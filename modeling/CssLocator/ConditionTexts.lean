import CssLocator.Engines
import CssLocator.Identifiers
import CssLocator.Selectors
import CssLocator.XPathExpressions

/-!
# Conditions in both query languages

Ids, classes, attribute conditions and types are written as selector text and as XPath predicates.
Names and values that are not plain are escaped or quoted.
-/

namespace CssLocator

/-- Whether a name can follow `@` in an expression. -/
def isPlainName : Text → Bool
  | [] => false
  | c :: r =>
    (c.isAlpha || c == '_') && r.all fun d => d.isAlphanum || d == '-' || d == '_' || d == '.'

/-- The attribute with a name. -/
def attributePath (name : Text) : Text :=
  if isPlainName name then "@" ++ name else "@*[name() = " ++ XPath.quoteLiteral name ++ "]"

/-- Whether a word is among those of an attribute. -/
def wordPath (attributePath word : Text) : Text :=
  "contains(concat(' ', normalize-space(" ++ attributePath ++ "), ' '), " ++
    XPath.quoteLiteral (" " ++ word ++ " ") ++ ")"

/-- The comparison of an attribute with a value. -/
def AttributeOperator.pathText (o : AttributeOperator) (path value : Text) : Text :=
  let literal := XPath.quoteLiteral value
  match o with
  | equal => path ++ " = " ++ literal
  | word => wordPath path value
  | dash =>
    "(" ++ path ++ " = " ++ literal ++ " or starts-with(" ++ path ++ ", " ++
      XPath.quoteLiteral (value ++ "-") ++ "))"
  | start => "starts-with(" ++ path ++ ", " ++ literal ++ ")"
  | finish =>
    "substring(" ++ path ++ ", string-length(" ++ path ++ ") - string-length(" ++ literal ++
      ") + 1) = " ++ literal
  | anywhere => "contains(" ++ path ++ ", " ++ literal ++ ")"

/-- An attribute condition as selector text. -/
def attributeNativeText (name : Text) : Option (AttributeOperator × Text) → Text
  | none => "[" ++ Identifier.escape name ++ "]"
  | some (o, value) =>
    "[" ++ Identifier.escape name ++ o.symbol ++ Identifier.quoted value ++ "]"

/-- An attribute condition as an XPath predicate. -/
def attributePathText (name : Text) : Option (AttributeOperator × Text) → Text
  | none => attributePath name
  | some (o, value) => o.pathText (attributePath name) value

def classNativeText (name : Text) : Text := "." ++ Identifier.escape name

def classPathText (name : Text) : Text := wordPath "@class" name

def idNativeText (name : Text) : Text := "#" ++ Identifier.escape name

def idPathText (name : Text) : Text := "@id = " ++ XPath.quoteLiteral name

def tagPathText (name : Text) : Text := "local-name() = " ++ XPath.quoteLiteral name

end CssLocator
