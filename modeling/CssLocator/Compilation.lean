import CssLocator.ConditionTexts
import CssLocator.Plans
import CssLocator.PseudoClasses
import CssLocator.SelectorReading

/-!
# Compiling selectors

Every compound becomes one step of a plan. Its conditions are written in both query languages; the
selector text is used if the engine knows all of the compound's structural pseudo-classes, and the
XPath expression otherwise. Refining pseudo-classes become filters, and so are never written.
-/

namespace CssLocator

structure Settings where
  /-- Whether engines are asked what they know. Otherwise they are taken to know nothing. -/
  nativeProbing : Bool
  /-- How deep the arguments of `:has()` and `:not()` may be nested. -/
  maxNesting : Nat
  deriving DecidableEq, Repr

def Settings.standard : Settings := ⟨true, 8⟩

/-- What a simple selector contributes to the step of its compound. -/
inductive StepPart where
  | nothing
  | tag (name : Text)
  /-- A condition in both languages, and whether the engine knows its selector text. -/
  | condition (nativeText pathText : Text) (known : Bool)
  | filter (f : Plan.Filter)

namespace StepPart

def tag? : StepPart → Option Text
  | tag name => some name
  | _ => none

def nativeText : StepPart → Text
  | condition text _ _ => text
  | _ => ""

def predicate? : StepPart → Option Text
  | tag name => some (tagPathText name)
  | condition _ text _ => some text
  | _ => none

def known : StepPart → Bool
  | condition _ _ b => b
  | _ => true

def filter? : StepPart → Option Plan.Filter
  | filter f => some f
  | _ => none

end StepPart

/-- The selector text of a compound's conditions. -/
def nativeExpression (parts : List StepPart) : Text :=
  let conditions := parts.flatMap (·.nativeText)
  match parts.findSome? (·.tag?) with
  | some name => Identifier.escape name ++ conditions
  | none => if conditions.isEmpty then "*" else conditions

/-- The XPath expression of a compound's conditions. Only below the context does it look deeper
than one level. -/
def pathExpression (combinator : Combinator) (parts : List StepPart) : Text :=
  let elements : Text := if combinator = .descendant then ".//*" else "./*"
  match parts.filterMap (·.predicate?) with
  | [] => elements
  | predicates => elements ++ "[" ++ Text.join " and " predicates ++ "]"

/-- The step of a compound. -/
def assembleStep (combinator : Combinator) (parts : List StepPart) : Plan.Step :=
  let locator :=
    if parts.all (·.known) then Locator.native (nativeExpression parts)
    else .path (pathExpression combinator parts)
  .mk combinator locator (parts.filterMap (·.filter?))

/-- The language code in the argument of `:lang()`, which may be quoted. -/
def languageCode (argument : Text) : Text :=
  Text.strip (fun c => c == '"' || c == '\'') (Text.trim argument)

section

variable {M : Type → Type} [Monad M] [MonadExceptOf SelectorError M]

/-- Compiles a structural pseudo-class, given how it is found out which ones the engine knows. -/
def compileStructural (knows : Structural → M Bool) (kind : Structural) (use : PseudoUse) :
    M StepPart := do
  let native ← ofExcept (kind.nativeText use)
  let path ← ofExcept (kind.pathText use)
  let known ← knows kind
  pure (.condition native ("(" ++ path ++ ")") known)

/-- Compiles a refining pseudo-class, given what becomes of the selectors in its argument. -/
def compileRefining (nested : SelectorList → M Plan) (kind : Refining) (use : PseudoUse) :
    M Plan.Filter := do
  ofExcept (kind.check use)
  match kind with
  | .has => do
    let list ← ofExcept (SelectorList.read true use.argumentText)
    let plan ← nested list
    pure (.has plan)
  | .not => do
    let list ← ofExcept (SelectorList.read false use.argumentText)
    let plan ← nested list
    pure (.not plan)
  | .lang =>
    let code := languageCode use.argumentText
    if code.isEmpty then throw (.argument kind.name use.argumentText .noLanguage)
    else pure (.lang code)
  | .visible => pure .visible
  | .hidden => pure .hidden

/-- Compiles a simple selector. A condition other than a pseudo-class is known to every engine. -/
def compileSimple (knows : Structural → M Bool) (nested : SelectorList → M Plan) :
    SimpleSelector → M StepPart
  | .universal => pure .nothing
  | .tag name => pure (.tag name)
  | .className name => pure (.condition (classNativeText name) (classPathText name) true)
  | .id name => pure (.condition (idNativeText name) (idPathText name) true)
  | .hasAttribute name test =>
    pure (.condition (attributeNativeText name test) (attributePathText name test) true)
  | .pseudo use => do
    match ← ofExcept (PseudoClass.ofName use.name) with
    | .structural kind => compileStructural knows kind use
    | .refining kind => do
      let f ← compileRefining nested kind use
      pure (.filter f)

def compileCompound (knows : Structural → M Bool) (nested : SelectorList → M Plan)
    (combinator : Combinator) (compound : Compound) : M Plan.Step := do
  let parts ← Loop.map (compileSimple knows nested) compound
  pure (assembleStep combinator parts)

def compileBranches (knows : Structural → M Bool) (nested : SelectorList → M Plan) :
    SelectorList → M Plan :=
  Loop.map <| Loop.map fun (combinator, compound) => compileCompound knows nested combinator compound

/-- Compiles a list in whose arguments selectors may be nested as deep as allowed. -/
def compileList (knows : Structural → M Bool) (limit : Nat) :
    (allowance : Nat) → SelectorList → M Plan
  | 0 => compileBranches knows fun _ => throw (.nestedTooDeep limit)
  | n + 1 => compileBranches knows (compileList knows limit n)

/-- Reads and compiles a selector list. -/
def compileText (knows : Structural → M Bool) (limit : Nat) (selector : Text) : M Plan := do
  let list ← ofExcept (SelectorList.read false selector)
  compileList knows limit limit list

end

variable {m : Type → Type} [Monad m] {ν : Type}

/-- A compilation may fail, and what it has learnt about the engine by then stays. -/
abbrev Compiling (m : Type → Type) : Type → Type := ExceptT SelectorError (StateT SupportTable m)

/-- Asks an engine for a pseudo-class. A query it refuses shows that it does not know it. -/
def probe (engine : Engine m ν) (kind : Structural) : m Bool := do
  match ← (engine.findAll engine.document (.native kind.probe)).run with
  | .ok _ => pure true
  | .error _ => pure false

/-- Whether the engine evaluates a pseudo-class itself, as far as is known or can be asked. -/
def supports (settings : Settings) (engine : Engine m ν) (kind : Structural) :
    StateT SupportTable m Bool :=
  if settings.nativeProbing then SupportTable.ask ⟨engine.capability, kind⟩ (probe engine kind)
  else pure false

/-- Compiles a selector list for an engine. -/
def compile (settings : Settings) (engine : Engine m ν) (selector : Text) : Compiling m Plan :=
  compileText (fun kind => supports settings engine kind) settings.maxNesting selector

end CssLocator
