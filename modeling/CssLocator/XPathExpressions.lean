import CssLocator.XPathTokens

/-!
# XPath expressions

Syntax trees of expressions and location paths, and the causes for which an expression is refused.
-/

namespace CssLocator.XPath

/-- The directions in which a step looks from a node. -/
inductive Axis where
  | child
  | descendant
  | descendantOrSelf
  | parent
  | ancestor
  | ancestorOrSelf
  | self
  | attributes
  | followingSibling
  | precedingSibling
  deriving DecidableEq, Repr

namespace Axis

def all : List Axis :=
  [child, descendant, descendantOrSelf, parent, ancestor, ancestorOrSelf, self, attributes,
    followingSibling, precedingSibling]

def name : Axis → Text
  | child => "child"
  | descendant => "descendant"
  | descendantOrSelf => "descendant-or-self"
  | parent => "parent"
  | ancestor => "ancestor"
  | ancestorOrSelf => "ancestor-or-self"
  | self => "self"
  | attributes => "attribute"
  | followingSibling => "following-sibling"
  | precedingSibling => "preceding-sibling"

def ofName? (s : Text) : Option Axis := all.find? fun a => a.name == s

end Axis

/-- Which nodes of an axis a step keeps: all of the axis's own kind, those with a name, or those of
a node type. -/
inductive NodeTest where
  | any
  | name (name : Text)
  | type (type : NodeType)
  deriving DecidableEq, Repr

mutual

inductive Expr where
  | binary (o : Operator) (left right : Expr)
  | negate (operand : Expr)
  | literal (value : Text)
  | number (value : Double)
  | call (function : Text) (arguments : List Expr)
  /-- A location path from the document node or from the context node. -/
  | path (absolute : Bool) (steps : List Step)
  /-- A node-set narrowed by predicates and continued by steps. -/
  | filter (primary : Expr) (predicates : List Expr) (steps : List Step)

/-- One location step; positions in its predicates count along the axis. -/
inductive Step where
  | mk (axis : Axis) (test : NodeTest) (predicates : List Expr)

end

/-- The step that `//` stands for. -/
def Step.anyDepth : Step := .mk .descendantOrSelf (.type .node) []

/-- Why a list of tokens is no expression. The token that was found is missing at the end. -/
inductive SyntaxFault where
  | emptyExpression
  | leftOver (found : Token)
  | expected (wanted : Token) (found : Option Token)
  | noExpression (found : Option Token)
  | noNodeTest (found : Option Token)
  deriving DecidableEq, Repr

/-- A token that was found, or the end. -/
def SyntaxFault.describe : Option Token → Text
  | none => "end of expression"
  | some t => "`" ++ t.text ++ "`"

def SyntaxFault.reason : SyntaxFault → Text
  | emptyExpression => "empty expression"
  | leftOver found => "unexpected `" ++ found.text ++ "` after expression"
  | expected wanted found => "expected `" ++ wanted.text ++ "`, found " ++ describe found
  | noExpression found => "expected an expression, found " ++ describe found
  | noNodeTest found => "expected a node test, found " ++ describe found

/-- How many arguments a function takes. -/
inductive Arity where
  | exactly (n : Nat)
  /-- The number or one more. -/
  | orOneMore (n : Nat)
  | atLeast (n : Nat)
  deriving DecidableEq, Repr

namespace Arity

def admits : Arity → Nat → Bool
  | exactly n, k => k == n
  | orOneMore n, k => k == n || k == n + 1
  | atLeast n, k => n ≤ k

def text : Arity → Text
  | exactly n => Text.ofNat n
  | orOneMore n => Text.ofNat n ++ " or " ++ Text.ofNat (n + 1)
  | atLeast n => Text.ofNat n ++ " or more"

end Arity

/-- Why an expression has no value. Offsets count the characters before the place. -/
inductive Error where
  | unexpectedCharacter (c : Char) (offset : Nat)
  | openLiteral (offset : Nat)
  | malformed (fault : SyntaxFault)
  | unsupportedAxis (name : Text)
  | unknownFunction (name : Text)
  | wrongArity (function : Text) (arity : Arity) (found : Nat)
  | noNodeSet
  deriving DecidableEq, Repr

def Error.message : Error → Text
  | unexpectedCharacter c offset =>
    "unexpected character `" ++ [c] ++ "` at offset " ++ Text.ofNat offset
  | openLiteral offset => "unterminated string literal at offset " ++ Text.ofNat offset
  | malformed fault => fault.reason
  | unsupportedAxis name => "unsupported axis " ++ name ++ "::"
  | unknownFunction name => "unknown function " ++ name ++ "()"
  | wrongArity function arity found =>
    function ++ "() expects " ++ arity.text ++ " argument(s), got " ++ Text.ofNat found
  | noNodeSet => "expected a node-set"

/-- An XPath string. There are no escapes, so a value with both kinds of quotes is put together from
pieces without apostrophes. -/
def quoteLiteral (value : Text) : Text :=
  if '\'' ∉ value then "'" ++ value ++ "'"
  else if '"' ∉ value then "\"" ++ value ++ "\""
  else
    let pieces := (Text.splitAt (· == '\'') value).map fun piece : Text =>
      ("'" ++ piece ++ "'" : Text)
    "concat(" ++ Text.join ", \"'\", " pieces ++ ")"

end CssLocator.XPath
