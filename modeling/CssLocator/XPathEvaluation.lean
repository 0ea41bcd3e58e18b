import CssLocator.XPathFunctions
import CssLocator.XPathParsing

/-!
# Evaluating XPath expressions

Expressions are evaluated for a node of a document. A location path replaces its nodes step by step
by those on the axis that pass the node test and the predicates, and lists them in document order.
-/

namespace CssLocator.XPath

/-- The nodes on an axis, the nearest ones first. -/
def Axis.nodes (d : Document) : Axis → Node → List Node
  | self, n => [n]
  | parent, .tree id => ((d.parent? id).map Node.tree).toList
  | parent, .attributeOf owner _ => [.tree owner]
  | ancestor, .tree id => (d.ancestors id).map .tree
  | ancestor, .attributeOf owner _ => (owner :: d.ancestors owner).map .tree
  | ancestorOrSelf, .tree id => (id :: d.ancestors id).map .tree
  | ancestorOrSelf, .attributeOf owner name =>
    .attributeOf owner name :: (owner :: d.ancestors owner).map .tree
  | child, .tree id => (d.children id).map .tree
  | descendant, .tree id => (d.descendants id).map .tree
  | descendantOrSelf, .tree id => (id :: d.descendants id).map .tree
  | followingSibling, .tree id => (d.followingSiblings id).map .tree
  | precedingSibling, .tree id => (d.precedingSiblings id).map .tree
  | attributes, .tree id =>
    (d.element? id).elim [] fun e => e.2.names.map (.attributeOf id)
  | _, .attributeOf _ _ => []

/-- Whether a node on the axis passes the test. Names and `*` stand for attributes on the attribute
axis and for elements on the others. -/
def NodeTest.admits (d : Document) (axis : Axis) (test : NodeTest) : Node → Bool
  | .attributeOf _ found =>
    match test with
    | any => axis == .attributes
    | .name wanted => axis == .attributes && wanted == found
    | type t => t == .node
  | .tree id =>
    match d.kind? id, test with
    | none, _ => false
    | some _, type .node => true
    | some (.text _), type .text => true
    | some (.comment _), type .comment => true
    | some (.element _ _), any => true
    | some (.element tag _), .name wanted => tag == wanted
    | _, _ => false

/-- The result of an operator on evaluated operands. -/
def Operator.apply (d : Document) (order : List Nat) (o : Operator) (u v : Value) :
    Except Error Value :=
  match o with
  | or => .ok (.boolean (u.toBoolean || v.toBoolean))
  | and => .ok (.boolean (u.toBoolean && v.toBoolean))
  | add => .ok (.number (u.toNumber d + v.toNumber d))
  | subtract => .ok (.number (u.toNumber d - v.toNumber d))
  | multiply => .ok (.number (u.toNumber d * v.toNumber d))
  | divide => .ok (.number (u.toNumber d / v.toNumber d))
  | modulo => .ok (.number (u.toNumber d % v.toNumber d))
  | union =>
    match u, v with
    | .nodes l, .nodes r => .ok (.nodes (Node.sort order (l ++ r)))
    | _, _ => .error .noNodeSet
  | equal | notEqual | less | lessEqual | greater | greaterEqual =>
    .ok (.boolean (o.compare d u v))

/-- Whether the value of a predicate keeps the node at a position: a number has to be the
position. -/
def Value.keeps (position : Nat) : Value → Bool
  | number x => x.equals (.ofNat position)
  | v => v.toBoolean

/-- The nodes for which a predicate holds, the first one of the list being at the given position of
`size` many. -/
def keepWhere (predicate : Focus → Except Error Value) (size : Nat) :
    (position : Nat) → List Node → Except Error (List Node)
  | _, [] => .ok []
  | position, n :: rest => do
    let v ← predicate ⟨n, position, size⟩
    let kept ← keepWhere predicate size (position + 1) rest
    .ok (if v.keeps position then n :: kept else kept)

mutual

def eval (d : Document) (order : List Nat) : Expr → Focus → Except Error Value
  | .literal s, _ => .ok (.string s)
  | .number x, _ => .ok (.number x)
  | .negate e, focus => do
    let v ← eval d order e focus
    .ok (.number (-v.toNumber d))
  | .binary .or left right, focus => do
    let u ← eval d order left focus
    if u.toBoolean then .ok (.boolean true)
    else
      let v ← eval d order right focus
      .ok (.boolean v.toBoolean)
  | .binary .and left right, focus => do
    let u ← eval d order left focus
    if u.toBoolean then
      let v ← eval d order right focus
      .ok (.boolean v.toBoolean)
    else .ok (.boolean false)
  | .binary o left right, focus => do
    let u ← eval d order left focus
    let v ← eval d order right focus
    o.apply d order u v
  | .call name arguments, focus =>
    match Function.ofName? name with
    | none => .error (.unknownFunction name)
    | some f =>
      if f.arity.admits arguments.length then do
        let values ← evalAll d order arguments focus
        f.apply d focus values
      else .error (.wrongArity name f.arity arguments.length)
  | .path absolute steps, focus => do
    let found ← walk d order steps [if absolute then .tree Document.root else focus.node]
    .ok (.nodes found)
  | .filter primary predicates steps, focus => do
    match ← eval d order primary focus with
    | .nodes l =>
      let kept ← narrow d order predicates l
      let found ← walk d order steps kept
      .ok (.nodes found)
    | _ => .error .noNodeSet

def evalAll (d : Document) (order : List Nat) : List Expr → Focus → Except Error (List Value)
  | [], _ => .ok []
  | e :: es, focus => do
    let v ← eval d order e focus
    let vs ← evalAll d order es focus
    .ok (v :: vs)

/-- The nodes that pass the predicates; each predicate counts positions among those left by the
ones before it. -/
def narrow (d : Document) (order : List Nat) : List Expr → List Node → Except Error (List Node)
  | [], nodes => .ok nodes
  | p :: ps, nodes => do
    let kept ← keepWhere (eval d order p) nodes.length 1 nodes
    narrow d order ps kept

/-- The nodes that the steps lead to from a list of nodes. -/
def walk (d : Document) (order : List Nat) : List Step → List Node → Except Error (List Node)
  | [], nodes => .ok nodes
  | s :: steps, nodes => do
    let found ← Loop.flatMap (advance d order s) nodes
    walk d order steps (Node.sort order found)

/-- The nodes that one step leads to from one node. -/
def advance (d : Document) (order : List Nat) : Step → Node → Except Error (List Node)
  | .mk axis test predicates, n =>
    narrow d order predicates ((axis.nodes d n).filter (test.admits d axis))

end

/-- The value of an expression for a node. -/
def evaluate (d : Document) (id : Nat) (s : Text) : Except Error Value := do
  let e ← parse s
  eval d d.order e ⟨.tree id, 1, 1⟩

/-- The tree nodes of a node-set. -/
def select (d : Document) (id : Nat) (s : Text) : Except Error (List Nat) := do
  match ← evaluate d id s with
  | .nodes l =>
    .ok <| l.filterMap fun
      | .tree n => some n
      | .attributeOf _ _ => none
  | _ => .error .noNodeSet

end CssLocator.XPath
