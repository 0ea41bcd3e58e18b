import CssLocator.Text

/-!
# What can go wrong

The causes for which a selector is refused or a query fails, and their wording.
-/

namespace CssLocator

/-- Why a text is no selector list. -/
inductive ParseFault where
  | emptyList
  | emptyCompound
  | adjacentCombinators
  | leadingCombinator (c : Char)
  | trailingCombinator
  | noClassName
  | noId
  | noAttributeName
  | noPseudoName
  | misplacedType
  | unexpected (c : Char)
  | incompleteOperator (c : Char)
  | malformedAttribute
  | openString
  | noAttributeValue
  | openAttribute
  | pseudoElement
  | openArgument (name : Text)
  deriving DecidableEq, Repr

def ParseFault.reason : ParseFault → Text
  | emptyList => "empty selector"
  | emptyCompound => "empty compound selector"
  | adjacentCombinators => "two combinators in a row"
  | leadingCombinator c => "combinator `" ++ [c] ++ "` without a left-hand side"
  | trailingCombinator => "selector ends with a combinator"
  | noClassName => "expected a class name after `.`"
  | noId => "expected an id after `#`"
  | noAttributeName => "expected an attribute name"
  | noPseudoName => "expected a pseudo-class name after `:`"
  | misplacedType => "a type selector must come first in its compound"
  | unexpected c => "unexpected character `" ++ [c] ++ "`"
  | incompleteOperator c => "expected `=` after `" ++ [c] ++ "` in attribute selector"
  | malformedAttribute => "malformed attribute selector"
  | openString => "unterminated attribute value"
  | noAttributeValue => "expected an attribute value"
  | openAttribute => "expected `]` after attribute value"
  | pseudoElement => "pseudo-elements do not select elements"
  | openArgument name => "unbalanced parentheses in :" ++ name ++ "("

/-- Why a pseudo-class does not take the argument it was given. -/
inductive ArgumentFault where
  | missing
  | unwanted
  | notAnPlusB
  | noLanguage
  deriving DecidableEq, Repr

def ArgumentFault.reason (pseudo argument : Text) : ArgumentFault → Text
  | missing => ":" ++ pseudo ++ "() requires an argument"
  | unwanted => ":" ++ pseudo ++ " takes no argument, but was :" ++ pseudo ++ "(" ++ argument ++ ")"
  | notAnPlusB =>
    let form (inside : Text) : Text := ":" ++ pseudo ++ "(" ++ inside ++ ")"
    "the " ++ form "" ++ " pseudo-class must have an argument like " ++ form "an+b" ++ ", " ++
      form "an" ++ " or " ++ form "b" ++ " - where a and b are integers -, but was " ++ form argument
  | noLanguage => "the :lang() pseudo-class needs a language code"

/-- Why a selector does not compile. -/
inductive SelectorError where
  | argument (pseudo argument : Text) (fault : ArgumentFault)
  | unsupported (pseudo : Text)
  | malformed (selector : Text) (fault : ParseFault)
  | nestedTooDeep (limit : Nat)
  deriving DecidableEq, Repr

def SelectorError.message : SelectorError → Text
  | argument pseudo a fault =>
    "invalid argument for :" ++ pseudo ++ "(): " ++ fault.reason pseudo a
  | unsupported pseudo => "unsupported pseudo-class :" ++ pseudo
  | malformed selector fault => "cannot parse selector `" ++ selector ++ "`: " ++ fault.reason
  | nestedTooDeep limit =>
    "selector nesting exceeds the maximum depth of " ++ Text.ofNat limit

/-- Why an engine does not answer. -/
inductive EngineError where
  | notFound (expression : Text)
  | invalidExpression (expression reason : Text)
  | stale
  | driver (reason : Text)
  deriving DecidableEq, Repr

def EngineError.message : EngineError → Text
  | notFound expression => "no element matches `" ++ expression ++ "`"
  | invalidExpression expression reason =>
    "invalid expression `" ++ expression ++ "`: " ++ reason
  | stale => "stale element reference"
  | driver reason => "driver error: " ++ reason

end CssLocator
