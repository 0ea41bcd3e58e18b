import CssLocator.AnPlusB
import CssLocator.Selectors

/-!
# Pseudo-classes

A structural pseudo-class depends on the place of an element among its siblings and can be written
in both query languages. A refining one is decided for elements that are already found.

A support table keeps what engines have answered when they were asked whether they know a
pseudo-class, by the name of what they can do. A pair is asked for at most once.
-/

namespace CssLocator

inductive Structural where
  | nthChild
  | nthLastChild
  | firstChild
  | lastChild
  | onlyChild
  | empty
  | root
  deriving DecidableEq, Repr

inductive Refining where
  | has
  | not
  | lang
  | visible
  | hidden
  deriving DecidableEq, Repr

inductive PseudoClass where
  | structural (kind : Structural)
  | refining (kind : Refining)
  deriving DecidableEq, Repr

/-- Whether a pseudo-class with the given name has its parentheses as it should. -/
def checkArgument (name : Text) (takesArgument : Bool) (use : PseudoUse) :
    Except SelectorError Unit :=
  match use.argument with
  | none => if takesArgument then .error (.argument name [] .missing) else .ok ()
  | some a => if takesArgument then .ok () else .error (.argument name a .unwanted)

namespace Structural

/-- All kinds, in the alphabetical order of their names. -/
def all : List Structural :=
  [empty, firstChild, lastChild, nthChild, nthLastChild, onlyChild, root]

def name : Structural → Text
  | nthChild => "nth-child"
  | nthLastChild => "nth-last-child"
  | firstChild => "first-child"
  | lastChild => "last-child"
  | onlyChild => "only-child"
  | empty => "empty"
  | root => "root"

def takesArgument : Structural → Bool
  | nthChild | nthLastChild => true
  | _ => false

/-- The smallest selector that shows whether an engine knows the pseudo-class. -/
def probe (kind : Structural) : Text :=
  if kind.takesArgument then ":" ++ kind.name ++ "(1)" else ":" ++ kind.name

def check (kind : Structural) (use : PseudoUse) : Except SelectorError Unit :=
  checkArgument kind.name kind.takesArgument use

def argument (kind : Structural) (use : PseudoUse) : Except SelectorError AnPlusB :=
  AnPlusB.ofArgument kind.name use.argumentText

/-- Reads the argument; nothing is written for a pseudo-class without one. -/
def read (kind : Structural) (use : PseudoUse) : Except SelectorError AnPlusB := do
  kind.check use
  if kind.takesArgument then kind.argument use else return ⟨none, none⟩

/-- The pseudo-class as selector text. -/
def nativeText (kind : Structural) (use : PseudoUse) : Except SelectorError Text := do
  kind.check use
  if kind.takesArgument then return (← kind.argument use).nativeText kind.name
  else return ":" ++ kind.name

/-- The pseudo-class as an XPath predicate on the child axis. -/
def pathText (kind : Structural) (use : PseudoUse) : Except SelectorError Text := do
  kind.check use
  match kind with
  | nthChild => return (← kind.argument use).pathText "position()"
  | nthLastChild => return (← kind.argument use).pathText "(last() - position() + 1)"
  | firstChild => return "position() = 1"
  | lastChild => return "position() = last()"
  | onlyChild => return "last() = 1"
  | empty => return "not(*) and not(text())"
  | root => return "not(parent::*)"

end Structural

namespace Refining

def all : List Refining := [has, not, lang, visible, hidden]

def name : Refining → Text
  | has => "has"
  | not => "not"
  | lang => "lang"
  | visible => "visible"
  | hidden => "hidden"

def takesArgument : Refining → Bool
  | has | not | lang => true
  | visible | hidden => false

def check (kind : Refining) (use : PseudoUse) : Except SelectorError Unit :=
  checkArgument kind.name kind.takesArgument use

end Refining

namespace PseudoClass

def name : PseudoClass → Text
  | structural kind => kind.name
  | refining kind => kind.name

def all : List PseudoClass := Structural.all.map structural ++ Refining.all.map refining

/-- The pseudo-class of a name, in either case of letters. -/
def ofName? (s : Text) : Option PseudoClass := all.find? fun p => p.name == Text.lower s

def ofName (s : Text) : Except SelectorError PseudoClass :=
  (ofName? s).elim (.error (.unsupported s)) .ok

end PseudoClass

structure SupportKey where
  capability : Text
  kind : Structural
  deriving DecidableEq, Repr

structure SupportTable where
  answers : List (SupportKey × Bool)
  deriving DecidableEq, Repr

namespace SupportTable

def empty : SupportTable := ⟨[]⟩

def lookup? (t : SupportTable) (key : SupportKey) : Option Bool := t.answers.lookup key

def size (t : SupportTable) : Nat := t.answers.length

def isEmpty (t : SupportTable) : Bool := t.answers.isEmpty

def record (key : SupportKey) (b : Bool) (t : SupportTable) : SupportTable :=
  ⟨(key, b) :: t.answers⟩

variable {m : Type → Type} [Monad m]

/-- The recorded answer, or else that of the probe, which is then recorded. -/
def settle (key : SupportKey) (probe : m Bool) : StateT SupportTable m Bool := do
  match (← get).lookup? key with
  | some b => pure b
  | none =>
    let b ← probe
    modify (record key b)
    pure b

/-- Looks an answer up before it is settled. Between the two steps others may settle it. -/
def ask (key : SupportKey) (probe : m Bool) : StateT SupportTable m Bool := do
  match (← get).lookup? key with
  | some b => pure b
  | none => settle key probe

end SupportTable

end CssLocator
