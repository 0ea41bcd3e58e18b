import CssLocator.Engines
import CssLocator.NativeMatching
import CssLocator.XPathEvaluation

/-!
# Engines for document trees

An engine that answers from a document held in memory. The structural pseudo-classes that its
selector matcher knows can be chosen. A node that is not attached to the document has gone.

An element is hidden by a `hidden` attribute, by being an input of type `hidden`, by `display: none`
in its own style, and by any ancestor that is hidden.
-/

namespace CssLocator

/-- Whether a declaration of a style attribute is `display: none`. -/
def hidesDisplay (declaration : Text) : Bool :=
  (Text.cut? ':' declaration).any fun (property, value) =>
    Text.sameLetters (Text.trim property) "display" && Text.sameLetters (Text.trim value) "none"

namespace Document

/-- Whether a node hides itself and all that is below it. -/
def hidesItself (d : Document) (id : Nat) : Bool :=
  (d.element? id).any fun (tag, attributes) =>
    (attributes.get? "hidden").isSome ||
      (tag == "input" &&
        (attributes.get? "type").any fun kind => Text.sameLetters (Text.trim kind) "hidden") ||
      (attributes.get? "style").any fun style => (Text.splitAt (· == ';') style).any hidesDisplay

def isDisplayed (d : Document) (id : Nat) : Bool :=
  d.isElement id && !(id :: d.ancestors id).any d.hidesItself

end Document

structure TreeEngine where
  document : Document
  /-- The structural pseudo-classes that native queries may use. -/
  known : List Structural
  deriving DecidableEq

namespace TreeEngine

/-- Names the known pseudo-classes in alphabetical order. -/
def capability (t : TreeEngine) : Text :=
  "memory[" ++ Text.join "," ((Structural.all.filter t.known.contains).map Structural.name) ++ "]"

/-- Refuses nodes that are not attached. -/
def checkAttached (t : TreeEngine) (id : Nat) : Except EngineError Unit :=
  if t.document.order.contains id then .ok () else .error .stale

/-- The elements that a query finds; other nodes are left out. -/
def findAll (t : TreeEngine) (context : Nat) (l : Locator) : Except EngineError (List Nat) := do
  t.checkAttached context
  let found ←
    match l.kind with
    | .native => selectNative t.document t.known context l.expression
    | .path => (XPath.select t.document context l.expression).mapError fun e =>
      .invalidExpression l.expression e.message
  .ok (found.filter t.document.isElement)

def attributeValue (t : TreeEngine) (id : Nat) (name : Text) :
    Except EngineError (Option Text) := do
  t.checkAttached id
  .ok (t.document.attribute? id name)

def isDisplayed (t : TreeEngine) (id : Nat) : Except EngineError Bool := do
  t.checkAttached id
  .ok (t.document.isDisplayed id)

def tagName (t : TreeEngine) (id : Nat) : Except EngineError Text := do
  t.checkAttached id
  match t.document.kind? id with
  | some (.element tag _) => .ok tag
  | some .document => .ok "#document"
  | some (.text _) => .ok "#text"
  | some (.comment _) => .ok "#comment"
  | none => .error .stale

/-- The engine as such; its answers have no effect. -/
def toEngine {m : Type → Type} [Monad m] (t : TreeEngine) : Engine m Nat where
  document := Document.root
  capability := t.capability
  height := t.document.size
  findAll context locator := ofExcept (t.findAll context locator)
  attributeValue element name := ofExcept (t.attributeValue element name)
  isDisplayed element := ofExcept (t.isDisplayed element)
  tagName element := ofExcept (t.tagName element)

/-- Whether a call puts the matcher to work. -/
def isNativeQuery (t : TreeEngine) : Call Nat → Bool
  | .findAll context locator =>
    locator.kind == .native && (t.checkAttached context).toBool
  | _ => false

end TreeEngine

end CssLocator
