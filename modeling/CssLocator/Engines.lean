import CssLocator.Errors

/-!
# Query engines

What a document engine has to answer: queries in two languages, and questions about single
elements. The answers are effects of a monad and may fail.
-/

namespace CssLocator

inductive QueryKind where
  /-- A selector, evaluated by the engine itself. -/
  | native
  /-- An XPath expression. -/
  | path
  deriving DecidableEq, Repr

/-- A query together with its language. -/
structure Locator where
  kind : QueryKind
  expression : Text
  deriving DecidableEq, Repr

namespace Locator

def native (expression : Text) : Locator := ⟨.native, expression⟩

def path (expression : Text) : Locator := ⟨.path, expression⟩

def text (l : Locator) : Text :=
  match l.kind with
  | .native => "css " ++ l.expression
  | .path => "xpath " ++ l.expression

end Locator

/-- An engine whose elements are handled by values of type `ν`; equal handles are the same node. -/
structure Engine (m : Type → Type) (ν : Type) where
  document : ν
  /-- Names what the engine can do. Engines of one name answer probes alike. -/
  capability : Text
  /-- No element is nested deeper than this. -/
  height : Nat
  /-- All elements that a query finds from a context, in document order. -/
  findAll : ν → Locator → ExceptT EngineError m (List ν)
  attributeValue : ν → Text → ExceptT EngineError m (Option Text)
  isDisplayed : ν → ExceptT EngineError m Bool
  tagName : ν → ExceptT EngineError m Text

namespace Engine

variable {m : Type → Type} [Monad m] {ν : Type}

/-- The first element that a query finds. -/
def findOne (engine : Engine m ν) (context : ν) (locator : Locator) : ExceptT EngineError m ν := do
  match ← engine.findAll context locator with
  | [] => throw (.notFound locator.expression)
  | e :: _ => pure e

end Engine

/-- A question put to an engine. -/
inductive Call (ν : Type) where
  | findAll (context : ν) (locator : Locator)
  | attributeValue (element : ν) (name : Text)
  | isDisplayed (element : ν)
  | tagName (element : ν)
  deriving DecidableEq, Repr

/-- The engine that tells every call before it answers it. -/
def Engine.observed {m : Type → Type} [Monad m] {ν : Type} (tell : Call ν → m Unit)
    (engine : Engine m ν) : Engine m ν where
  document := engine.document
  capability := engine.capability
  height := engine.height
  findAll context locator := do
    tell (.findAll context locator)
    engine.findAll context locator
  attributeValue element name := do
    tell (.attributeValue element name)
    engine.attributeValue element name
  isDisplayed element := do
    tell (.isDisplayed element)
    engine.isDisplayed element
  tagName element := do
    tell (.tagName element)
    engine.tagName element

end CssLocator
