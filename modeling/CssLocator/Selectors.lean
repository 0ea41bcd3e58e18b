import CssLocator.Text

/-!
# Selectors

The syntax trees of selector lists. A complex selector is kept from left to right, each compound
with the combinator that relates it to the compound before it, or to the search root if it is the
first.
-/

namespace CssLocator

/-- How an element must stand to an element matched by the compound on the left. -/
inductive Combinator where
  | descendant
  | child
  | nextSibling
  | subsequentSibling
  deriving DecidableEq, Repr

/-- The comparisons of an attribute selector with a value: `=`, `~=`, `|=`, `^=`, `$=`, `*=`. -/
inductive AttributeOperator where
  | equal
  | word
  | dash
  | start
  | finish
  | anywhere
  deriving DecidableEq, Repr

/-- The character that distinguishes the operator; plain equality has none. -/
def AttributeOperator.mark : AttributeOperator → Text
  | equal => ""
  | word => "~"
  | dash => "|"
  | start => "^"
  | finish => "$"
  | anywhere => "*"

def AttributeOperator.symbol (o : AttributeOperator) : Text := o.mark ++ "="

/-- A pseudo-class as written: a name in lower case, and the raw text between the parentheses if
there are any. -/
structure PseudoUse where
  name : Text
  argument : Option Text
  deriving DecidableEq, Repr

namespace PseudoUse

def named (name : Text) (argument : Option Text) : PseudoUse := ⟨Text.lower name, argument⟩

/-- The argument, or nothing at all when there are no parentheses. -/
def argumentText (u : PseudoUse) : Text := u.argument.getD []

def text (u : PseudoUse) : Text :=
  match u.argument with
  | none => ":" ++ u.name
  | some a => ":" ++ u.name ++ "(" ++ a ++ ")"

end PseudoUse

/-- One condition on an element. -/
inductive SimpleSelector where
  | universal
  | tag (name : Text)
  | className (name : Text)
  | id (name : Text)
  | hasAttribute (name : Text) (test : Option (AttributeOperator × Text))
  | pseudo (use : PseudoUse)
  deriving DecidableEq, Repr

/-- The conditions that one element has to meet, in source order. -/
abbrev Compound := List SimpleSelector

abbrev Complex := List (Combinator × Compound)

abbrev SelectorList := List Complex

namespace Compound

def pseudoUses (c : Compound) : List PseudoUse :=
  c.filterMap fun
    | .pseudo use => some use
    | _ => none

end Compound

/-- The last compound, which describes the selected elements themselves. -/
def Complex.subject? (c : Complex) : Option Compound := c.getLast?.map Prod.snd

end CssLocator
