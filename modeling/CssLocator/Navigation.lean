import CssLocator.Engines

/-!
# Navigation by queries

Parents, siblings, inherited language and visibility of elements, found with nothing but the
queries of an engine.
-/

namespace CssLocator

/-- Whether a language is the one of a code, or a variant of it after a hyphen. -/
def languageMatches (language code : Text) : Bool :=
  let wanted := Text.lower code
  let found := Text.lower (Text.trim language)
  found == wanted || (Text.after? wanted found).any fun rest => rest.head? == some '-'

namespace Engine

variable {m : Type → Type} [Monad m] {ν : Type}

/-- What an attempt to find an element says about its existence: not to be found, and being gone,
are answers and no failures. -/
def existing? : Except EngineError ν → Except EngineError (Option ν)
  | .ok e => .ok (some e)
  | .error (.notFound _) => .ok none
  | .error .stale => .ok none
  | .error other => .error other

/-- The parent element, if there is one. -/
def parent? (engine : Engine m ν) (e : ν) : ExceptT EngineError m (Option ν) :=
  ExceptT.mk (existing? <$> (engine.findOne e (.path "..")).run)

/-- The value of `lang` at the element or its nearest ancestor that has one, looking at no more
than the given number of elements. -/
def languageWithin? (engine : Engine m ν) : Nat → ν → ExceptT EngineError m (Option Text)
  | 0, _ => pure none
  | n + 1, e => do
    match ← engine.attributeValue e "lang" with
    | some language => pure (some language)
    | none =>
      match ← engine.parent? e with
      | none => pure none
      | some p => languageWithin? engine n p

/-- The inherited language of an element. -/
def language? (engine : Engine m ν) (e : ν) : ExceptT EngineError m (Option Text) :=
  engine.languageWithin? (engine.height + 1) e

/-- Whether the element has the attribute, be it empty. -/
def hasAttribute (engine : Engine m ν) (e : ν) (name : Text) : ExceptT EngineError m Bool := do
  let value ← engine.attributeValue e name
  pure value.isSome

/-- Whether the element is displayed and no title, on which engines disagree. -/
def isVisible (engine : Engine m ν) (e : ν) : ExceptT EngineError m Bool := do
  if ← engine.isDisplayed e then
    let tag ← engine.tagName e
    pure (tag != "title")
  else pure false

/-- The element children of the element's parent; without a parent, the element alone. -/
def itselfWithSiblings (engine : Engine m ν) (e : ν) : ExceptT EngineError m (List ν) := do
  match ← engine.parent? e with
  | some p => engine.findAll p (.path "./*")
  | none => pure [e]

variable [DecidableEq ν]

def previousSiblings (engine : Engine m ν) (e : ν) : ExceptT EngineError m (List ν) := do
  let siblings ← engine.itselfWithSiblings e
  pure (siblings.takeWhile (· != e))

def previousSibling? (engine : Engine m ν) (e : ν) : ExceptT EngineError m (Option ν) := do
  let siblings ← engine.previousSiblings e
  pure siblings.getLast?

/-- The siblings after the element. -/
def nextSiblings (engine : Engine m ν) (e : ν) : ExceptT EngineError m (List ν) := do
  let siblings ← engine.itselfWithSiblings e
  pure (siblings.dropWhile (· != e)).tail

/-- The sibling right after the element, if there is one. -/
def nextSibling (engine : Engine m ν) (e : ν) : ExceptT EngineError m (List ν) := do
  let siblings ← engine.nextSiblings e
  pure (siblings.take 1)

end Engine

end CssLocator
