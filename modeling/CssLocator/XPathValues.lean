import CssLocator.Documents
import CssLocator.XPathExpressions

/-!
# XPath values

Node-sets, booleans, numbers and strings, the conversions between them, and their comparison. The
nodes of a set are listed in document order.
-/

namespace CssLocator.XPath

/-- A node of the document tree, or an attribute, which is addressed by its element and name. -/
inductive Node where
  | tree (id : Nat)
  | attributeOf (owner : Nat) (name : Text)
  deriving DecidableEq

inductive Value where
  | nodes (nodes : List Node)
  | boolean (b : Bool)
  | number (x : Double)
  | string (s : Text)
  deriving DecidableEq

/-- The number a string stands for: digits with at most one point, after an optional minus sign and
between optional white space. -/
def numberOfText (s : Text) : Double :=
  let trimmed := Text.trim s
  let digits := (Text.after? "-" trimmed).getD trimmed
  if digits.any Char.isDigit && digits.all (fun c => c.isDigit || c == '.') &&
      digits.count '.' ≤ 1 then
    if digits = trimmed then .ofDecimal digits else -.ofDecimal digits
  else .nan

/-- The string a number is written as. Both zeros have the same. -/
def textOfNumber : Double → Text
  | .nan => "NaN"
  | .infinite false => "Infinity"
  | .infinite true => "-Infinity"
  | x => if x.isZero then "0" else x.decimalText

namespace Node

/-- The element an attribute belongs to, or the node of the tree itself. -/
def id : Node → Nat
  | tree id => id
  | attributeOf owner _ => owner

def attributeName? : Node → Option Text
  | tree _ => none
  | attributeOf _ name => some name

/-- The text that a node stands for. -/
def stringValue (d : Document) : Node → Text
  | attributeOf owner name => (d.attribute? owner name).getD []
  | tree id =>
    match d.kind? id with
    | some (.comment content) => content
    | _ => d.textContent id

/-- The name of an element or attribute; other nodes have none. -/
def name (d : Document) : Node → Text
  | attributeOf _ name => name
  | tree id => d.tag id

/-- Document order, given the attached nodes in tree order. The attributes of an element follow it
by name, and nodes outside the tree come last. -/
def notAfter (order : List Nat) (a b : Node) : Bool :=
  let i := order.idxOf a.id
  let j := order.idxOf b.id
  i < j || (i == j &&
    match a.attributeName?, b.attributeName? with
    | none, _ => true
    | some _, none => false
    | some m, some n => !Text.before n m)

/-- Puts a node into a sorted list, in front of those it is equal to. -/
def insert (order : List Nat) (n : Node) : List Node → List Node
  | [] => [n]
  | m :: rest => if notAfter order n m then n :: m :: rest else m :: insert order n rest

/-- Nodes in document order, neighbours that are the same node being listed once. -/
def sort (order : List Nat) (nodes : List Node) : List Node :=
  (nodes.foldr (insert order) []).eraseReps

end Node

namespace Value

def toBoolean : Value → Bool
  | nodes l => !l.isEmpty
  | boolean b => b
  | number x => !x.isZero && x != .nan
  | string s => !s.isEmpty

/-- A set of nodes stands for the text of its first one. -/
def toText (d : Document) : Value → Text
  | nodes l => l.head?.elim [] (·.stringValue d)
  | boolean b => if b then "true" else "false"
  | number x => textOfNumber x
  | string s => s

def toNumber (d : Document) : Value → Double
  | nodes l => numberOfText ((nodes l).toText d)
  | boolean b => .ofBool b
  | number x => x
  | string s => numberOfText s

end Value

/-- Comparison of numbers. -/
def Operator.relates : Operator → Double → Double → Bool
  | equal, x, y => x.equals y
  | notEqual, x, y => !x.equals y
  | less, x, y => x.less y
  | lessEqual, x, y => x.atMost y
  | greater, x, y => y.less x
  | greaterEqual, x, y => y.atMost x
  | _, _, _ => false

/-- Equality of two values that are no node-sets: as booleans if one of them is a boolean, else as
numbers if one of them is a number, else as strings. -/
def Value.equals (d : Document) (u v : Value) : Bool :=
  match u, v with
  | .boolean _, _ | _, .boolean _ => u.toBoolean == v.toBoolean
  | .number _, _ | _, .number _ => (u.toNumber d).equals (v.toNumber d)
  | _, _ => u.toText d == v.toText d

/-- Comparison of two values that are no node-sets. -/
def Operator.compareAtoms (d : Document) : Operator → Value → Value → Bool
  | equal, u, v => u.equals d v
  | notEqual, u, v => !u.equals d v
  | o, u, v => o.relates (u.toNumber d) (v.toNumber d)

/-- A node as the kind of value it is compared with: a number for a number, else a string. -/
def Node.asComparedTo (d : Document) (other : Value) (n : Node) : Value :=
  match other with
  | .number _ => .number (numberOfText (n.stringValue d))
  | _ => .string (n.stringValue d)

/-- A comparison with a set of nodes holds if it holds for one of them; against a boolean the set
itself is a boolean. -/
def Operator.compare (d : Document) (o : Operator) (u v : Value) : Bool :=
  match u, v with
  | .nodes l, .boolean _ => o.compareAtoms d (.boolean !l.isEmpty) v
  | .boolean _, .nodes r => o.compareAtoms d u (.boolean !r.isEmpty)
  | .nodes l, .nodes r =>
    l.any fun a => r.any fun b =>
      o.compareAtoms d (.string (a.stringValue d)) (.string (b.stringValue d))
  | .nodes l, _ => l.any fun a => o.compareAtoms d (a.asComparedTo d v) v
  | _, .nodes r => r.any fun b => o.compareAtoms d u (b.asComparedTo d u)
  | _, _ => o.compareAtoms d u v

end CssLocator.XPath
