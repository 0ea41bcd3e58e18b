import CssLocator.XPathValues

/-!
# XPath functions

The function library: names, numbers of arguments, and results.
-/

namespace CssLocator.XPath

inductive Function where
  | position
  | last
  | count
  | localName
  | name
  | string
  | concat
  | contains
  | startsWith
  | normalizeSpace
  | stringLength
  | substring
  | boolean
  | not
  | true
  | false
  | number
  deriving DecidableEq, Repr

namespace Function

def all : List Function :=
  [position, last, count, localName, name, string, concat, contains, startsWith, normalizeSpace,
    stringLength, substring, boolean, not, true, false, number]

def text : Function → Text
  | position => "position"
  | last => "last"
  | count => "count"
  | localName => "local-name"
  | name => "name"
  | string => "string"
  | concat => "concat"
  | contains => "contains"
  | startsWith => "starts-with"
  | normalizeSpace => "normalize-space"
  | stringLength => "string-length"
  | substring => "substring"
  | boolean => "boolean"
  | not => "not"
  | true => "true"
  | false => "false"
  | number => "number"

def ofName? (s : Text) : Option Function := all.find? fun f => f.text == s

def arity : Function → Arity
  | position | last | true | false => .exactly 0
  | count | boolean | not => .exactly 1
  | contains | startsWith => .exactly 2
  | localName | name | string | normalizeSpace | stringLength | number => .orOneMore 0
  | substring => .orOneMore 2
  | concat => .atLeast 2

end Function

/-- The node an expression is evaluated for, its position in the list it comes from, counted from
one, and the length of that list. -/
structure Focus where
  node : Node
  position : Nat
  size : Nat

/-- The nearest whole number, the greater one in a tie. -/
def roundHalfUp (x : Double) : Double := (x + .finite (mkRat 1 2)).floor

/-- The characters at the positions from `start` on and before `finish`, counted from one. -/
def substring (s : Text) (start finish : Double) : Text :=
  (s.zipIdx 1).filterMap fun (c, i) =>
    if start.atMost (.ofNat i) && (Double.ofNat i).less finish then some c else none

/-- The text of the argument, or of the node in focus if there is none. -/
def textOrFocus (d : Document) (focus : Focus) (arguments : List Value) : Text :=
  match arguments with
  | [] => focus.node.stringValue d
  | v :: _ => v.toText d

def nodeName (d : Document) (focus : Focus) : List Value → Except Error Value
  | [] => .ok (.string (focus.node.name d))
  | .nodes l :: _ => .ok (.string (l.head?.elim [] (·.name d)))
  | _ => .error .noNodeSet

/-- The result of a call, the arguments being evaluated. -/
def Function.apply (d : Document) (focus : Focus) (f : Function) (arguments : List Value) :
    Except Error Value :=
  match f, arguments with
  | position, _ => .ok (.number (.ofNat focus.position))
  | last, _ => .ok (.number (.ofNat focus.size))
  | count, [.nodes l] => .ok (.number (.ofNat l.length))
  | count, [_] => .error .noNodeSet
  | localName, l | name, l => nodeName d focus l
  | string, l => .ok (.string (textOrFocus d focus l))
  | concat, l => .ok (.string (l.flatMap (·.toText d)))
  | contains, [u, v] => .ok (.boolean (Text.occursIn (v.toText d) (u.toText d)))
  | startsWith, [u, v] => .ok (.boolean ((v.toText d).isPrefixOf (u.toText d)))
  | normalizeSpace, l =>
    .ok (.string (Text.join " " (Text.words Text.isSpace (textOrFocus d focus l))))
  | stringLength, l => .ok (.number (.ofNat (textOrFocus d focus l).length))
  | substring, [u, v] =>
    .ok (.string (XPath.substring (u.toText d) (roundHalfUp (v.toNumber d)) (.infinite Bool.false)))
  | substring, [u, v, w] =>
    let start := roundHalfUp (v.toNumber d)
    .ok (.string (XPath.substring (u.toText d) start (start + roundHalfUp (w.toNumber d))))
  | boolean, [v] => .ok (.boolean v.toBoolean)
  | not, [v] => .ok (.boolean !v.toBoolean)
  | true, _ => .ok (.boolean Bool.true)
  | false, _ => .ok (.boolean Bool.false)
  | number, [] => .ok (.number (numberOfText (focus.node.stringValue d)))
  | number, v :: _ => .ok (.number (v.toNumber d))
  | _, _ => .error (.wrongArity f.text f.arity arguments.length)

end CssLocator.XPath
