import CssLocator.Engines

/-!
# Engines that follow a script

An engine whose answers are listed in tables. The first row that fits a call answers it, and a call
that no row fits gets a standing answer. A part of a call that a row leaves open may be anything.
-/

namespace CssLocator

structure ScriptRow (κ γ : Type) where
  call : κ
  answer : Except EngineError γ

/-- A query, as far as a row wants it to be a certain one. -/
structure WantedQuery where
  context : Option Nat
  kind : Option QueryKind
  expression : Option Text
  deriving DecidableEq, Repr

structure WantedAttribute where
  element : Option Nat
  name : Option Text
  deriving DecidableEq, Repr

/-- Whether a value is the wanted one, if one is wanted. -/
def fits {α : Type} [DecidableEq α] (wanted : Option α) (a : α) : Bool := wanted.all (· == a)

structure Script where
  capability : Text
  queries : List (ScriptRow WantedQuery (List Nat))
  attributes : List (ScriptRow WantedAttribute (Option Text))
  displayed : List (ScriptRow (Option Nat) Bool)
  tags : List (ScriptRow (Option Nat) Text)

namespace Script

def answer {κ γ : Type} (rows : List (ScriptRow κ γ)) (fitting : κ → Bool) (standing : γ) :
    Except EngineError γ :=
  (rows.find? fun r => fitting r.call).elim (.ok standing) (·.answer)

def findAll (s : Script) (context : Nat) (l : Locator) : Except EngineError (List Nat) :=
  answer s.queries
    (fun w => fits w.context context && fits w.kind l.kind && fits w.expression l.expression) []

def attributeValue (s : Script) (element : Nat) (name : Text) : Except EngineError (Option Text) :=
  answer s.attributes (fun w => fits w.element element && fits w.name name) none

def isDisplayed (s : Script) (element : Nat) : Except EngineError Bool :=
  answer s.displayed (fits · element) true

def tagName (s : Script) (element : Nat) : Except EngineError Text :=
  answer s.tags (fits · element) "div"

/-- The engine as such. A parent is always the first answer of a row, so a chain of parents without
a repetition is no longer than the table. -/
def toEngine {m : Type → Type} [Monad m] (s : Script) : Engine m Nat where
  document := 0
  capability := s.capability
  height := s.queries.length
  findAll context locator := ofExcept (s.findAll context locator)
  attributeValue element name := ofExcept (s.attributeValue element name)
  isDisplayed element := ofExcept (s.isDisplayed element)
  tagName element := ofExcept (s.tagName element)

end Script

end CssLocator
