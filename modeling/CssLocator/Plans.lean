import CssLocator.Navigation
import CssLocator.Selectors

/-!
# Locator plans

A compiled selector list is a list of branches, and a branch is a list of steps. A step finds the
elements that its locator describes and that stand in the right relation to those found before, and
keeps those that pass its filters.
-/

namespace CssLocator

namespace Plan

mutual

inductive Filter where
  /-- The nested plan finds something from the element. -/
  | has (branches : List (List Step))
  /-- The nested plan does not find the element from the document. -/
  | not (branches : List (List Step))
  | lang (code : Text)
  | visible
  | hidden

inductive Step where
  | mk (combinator : Combinator) (locator : Locator) (filters : List Filter)

end

namespace Step

def combinator : Step → Combinator
  | mk combinator _ _ => combinator

def locator : Step → Locator
  | mk _ locator _ => locator

def filters : Step → List Filter
  | mk _ _ filters => filters

end Step

end Plan

abbrev Plan := List (List Plan.Step)

/-- The locator with the children of its context widened to all elements below. What an element
must satisfy among its siblings stays the same. -/
def Locator.widened (l : Locator) : Locator :=
  match l.kind with
  | .native => l
  | .path => (Text.after? "./*" l.expression).elim l fun rest => .path (".//*" ++ rest)

namespace Plan

variable {m : Type → Type} [Monad m] {ν : Type} [DecidableEq ν]

/-- The elements that a locator describes below the candidates. -/
def locateBelow (engine : Engine m ν) (candidates : List ν) (locator : Locator) :
    ExceptT EngineError m (List ν) := do
  let found ← Loop.flatMap (engine.findAll · locator) candidates
  pure found.eraseDups

/-- The elements that a locator describes among those that can be reached from the candidates. One
query for the whole document keeps them in document order. -/
def locateAmong (engine : Engine m ν) (reach : ν → ExceptT EngineError m (List ν))
    (candidates : List ν) (locator : Locator) : ExceptT EngineError m (List ν) := do
  let reached ← Loop.flatMap reach candidates
  if reached.isEmpty then pure []
  else
    let found ← engine.findAll engine.document locator.widened
    pure (found.filter reached.contains)

/-- The elements that a locator describes and that the combinator relates to a candidate. -/
def locate (engine : Engine m ν) (candidates : List ν) (combinator : Combinator)
    (locator : Locator) : ExceptT EngineError m (List ν) :=
  match combinator with
  | .descendant => locateBelow engine candidates locator
  | .child => locateAmong engine (engine.findAll · (.path "./*")) candidates locator
  | .nextSibling => locateAmong engine engine.nextSibling candidates locator
  | .subsequentSibling => locateAmong engine engine.nextSiblings candidates locator

/-- The elements for which a test with effects holds. -/
def keep (test : ν → ExceptT EngineError m Bool) : List ν → ExceptT EngineError m (List ν)
  | [] => pure []
  | e :: es => do
    let b ← test e
    let kept ← keep test es
    pure (if b then e :: kept else kept)

mutual

def Filter.passes (engine : Engine m ν) : Filter → ν → ExceptT EngineError m Bool
  | .has branches, e => do
    let found ← runBranches engine branches e
    pure !found.isEmpty
  | .not branches, e => do
    let found ← runBranches engine branches engine.document
    pure !found.contains e
  | .lang code, e => do
    let language ← engine.language? e
    pure (language.any (languageMatches · code))
  | .visible, e => engine.isVisible e
  | .hidden, e => do
    let visible ← engine.isVisible e
    pure !visible

/-- Whether an element passes every filter. The first refusal decides. -/
def passesAll (engine : Engine m ν) : List Filter → ν → ExceptT EngineError m Bool
  | [], _ => pure true
  | f :: fs, e => do
    if ← f.passes engine e then passesAll engine fs e else pure false

def Step.run (engine : Engine m ν) : Step → List ν → ExceptT EngineError m (List ν)
  | .mk combinator locator filters, candidates => do
    let found ← locate engine candidates combinator locator
    keep (passesAll engine filters) found

/-- Runs the steps one after the other, as long as something is found. -/
def runSteps (engine : Engine m ν) : List Step → List ν → ExceptT EngineError m (List ν)
  | [], candidates => pure candidates
  | s :: steps, candidates => do
    match ← s.run engine candidates with
    | [] => pure []
    | e :: es => runSteps engine steps (e :: es)

/-- What the branches find from an element, one branch after the other. -/
def runBranches (engine : Engine m ν) : List (List Step) → ν → ExceptT EngineError m (List ν)
  | [], _ => pure []
  | steps :: branches, e => do
    let found ← runSteps engine steps [e]
    let more ← runBranches engine branches e
    pure (found ++ more)

end

/-- What a plan finds from an element, listed once and in the order of first appearance. -/
def run (engine : Engine m ν) (plan : Plan) (e : ν) : ExceptT EngineError m (List ν) := do
  let found ← runBranches engine plan e
  pure found.eraseDups

end Plan

end CssLocator
