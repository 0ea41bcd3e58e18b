import CssLocator.Documents
import CssLocator.Errors
import CssLocator.PseudoClasses
import CssLocator.SelectorReading

/-!
# Matching selectors against documents

An element matches a complex selector if it matches the last compound and, going from there to the
left, each combinator leads to an element that matches the compound before it. Structural
pseudo-classes are read in advance, so that one the matcher does not know fails the query as a
whole.
-/

namespace CssLocator

/-- A simple selector that is ready to be tested. -/
inductive ElementTest where
  | plain (s : SimpleSelector)
  | structural (kind : Structural) (argument : AnPlusB)
  deriving DecidableEq

/-- Prepares a simple selector, or tells why it cannot be evaluated. -/
def prepareSimple (known : List Structural) : SimpleSelector → Except Text ElementTest
  | .pseudo use =>
    match PseudoClass.ofName? use.name with
    | some (.structural kind) =>
      if kind ∈ known then
        ((kind.read use).map (ElementTest.structural kind)).mapError (·.message)
      else .error ("unsupported pseudo-class " ++ use.text)
    | _ => .error ("unsupported pseudo-class " ++ use.text)
  | s => .ok (.plain s)

/-- Whether an attribute value stands in the relation to the wanted one. Nothing starts with, ends
with or contains an empty value. -/
def AttributeOperator.holds (o : AttributeOperator) (value wanted : Text) : Bool :=
  match o with
  | equal => value == wanted
  | word => (Text.words Text.isAsciiSpace value).contains wanted
  | dash =>
    value == wanted || (Text.after? wanted value).any fun rest => rest.head? == some '-'
  | start => !wanted.isEmpty && wanted.isPrefixOf value
  | finish => !wanted.isEmpty && wanted.isSuffixOf value
  | anywhere => !wanted.isEmpty && Text.occursIn wanted value

namespace Document

/-- The words of an element's class attribute. -/
def classes (d : Document) (id : Nat) : List Text :=
  (d.attribute? id "class").elim [] (Text.words Text.isAsciiSpace)

/-- The position of an element among the element children of its parent, counted from one, and
their number. -/
def place? (d : Document) (id : Nat) : Option (Nat × Nat) := do
  let parent ← d.parent? id
  let siblings := d.elementChildren parent
  let index ← siblings.idxOf? id
  pure (index + 1, siblings.length)

end Document

/-- Whether an element meets a condition other than a pseudo-class. -/
def SimpleSelector.holds (d : Document) (id : Nat) : SimpleSelector → Bool
  | universal => true
  | tag name => (d.element? id).any fun e => Text.sameLetters e.1 name
  | className name => (d.classes id).contains name
  | .id name => d.attribute? id "id" == some name
  | hasAttribute name test =>
    (d.attribute? id name).any fun value => test.all fun (o, wanted) => o.holds value wanted
  | pseudo _ => false

/-- Whether a structural pseudo-class with its argument applies to an element. Comments do not
count as content. -/
def Structural.holds (d : Document) (id : Nat) (argument : AnPlusB) : Structural → Bool
  | root => d.documentElement? == some id
  | empty =>
    (d.children id).all fun child =>
      match d.kind? child with
      | some (.comment _) => true
      | _ => false
  | nthChild => (d.place? id).any fun (i, _) => argument.selects i
  | nthLastChild => (d.place? id).any fun (i, n) => argument.selects (n + 1 - i : Nat)
  | firstChild => (d.place? id).any fun (i, _) => i == 1
  | lastChild => (d.place? id).any fun (i, n) => i == n
  | onlyChild => (d.place? id).any fun (_, n) => n == 1

def ElementTest.holds (d : Document) (id : Nat) : ElementTest → Bool
  | plain s => s.holds d id
  | structural kind argument => kind.holds d id argument

/-- Whether an element passes all tests of a compound. -/
def matchesCompound (d : Document) (tests : List ElementTest) (id : Nat) : Bool :=
  d.isElement id && tests.all (·.holds d id)

/-- Whether an element matches a complex selector that is given from right to left. -/
def matchesBackwards (d : Document) : List (Combinator × List ElementTest) → Nat → Bool
  | [], _ => false
  | [(_, tests)], id => matchesCompound d tests id
  | (combinator, tests) :: left :: outer, id =>
    matchesCompound d tests id &&
      match combinator with
      | .descendant => (d.ancestors id).any (matchesBackwards d (left :: outer))
      | .child => (d.parent? id).any (matchesBackwards d (left :: outer))
      | .nextSibling =>
        ((d.precedingSiblings id).find? d.isElement).any (matchesBackwards d (left :: outer))
      | .subsequentSibling =>
        ((d.precedingSiblings id).filter d.isElement).any (matchesBackwards d (left :: outer))

/-- Prepares all complex selectors of a list, turning them round. -/
def prepareList (known : List Structural) (list : SelectorList) :
    Except Text (List (List (Combinator × List ElementTest))) :=
  Loop.map
    (fun complex => do
      let prepared ← Loop.map
        (fun (combinator, compound) => do
          let tests ← Loop.map (prepareSimple known) compound
          pure (combinator, tests))
        complex
      pure prepared.reverse)
    list

/-- The elements below a context that match a selector list, in document order. -/
def selectNative (d : Document) (known : List Structural) (context : Nat) (selector : Text) :
    Except EngineError (List Nat) := do
  let list ← (SelectorList.read false selector).mapError fun e =>
    .invalidExpression selector e.message
  let prepared ← (prepareList known list).mapError (.invalidExpression selector)
  .ok <| (d.descendants context).filter fun id =>
    prepared.any fun complex => matchesBackwards d complex id

end CssLocator
