import CssLocator.XPathEvaluation
import CssLocator.Proofs.ConditionExpressions
import CssLocator.Proofs.NodeOrder
import Mathlib.Data.List.Nodup
import Mathlib.Data.List.Count

/-!
# Values of expressions

The values that the expressions of conditions have. Every one of them has a value for every node of
a document: no condition fails, whatever its names and operands are.
-/

namespace CssLocator.XPath

variable {d : Document} {order : List Nat} {focus : Focus}

/-- The expression has the value for the node in focus. -/
def HasValue (d : Document) (order : List Nat) (focus : Focus) (e : Expr) (v : Value) : Prop :=
  eval d order e focus = .ok v

theorem HasValue.binary {o : Operator} {e e' : Expr} {u v w : Value}
    (h : HasValue d order focus e u) (h' : HasValue d order focus e' v)
    (happly : o.apply d order u v = .ok w) : HasValue d order focus (.binary o e e') w := by
  unfold HasValue at *
  cases o with
  | or =>
    refine bind_eq_ok.2 ⟨u, h, ?_⟩
    cases hu : u.toBoolean with
    | true => simpa [Operator.apply, hu] using happly
    | false => exact bind_eq_ok.2 ⟨v, h', by simpa [Operator.apply, hu] using happly⟩
  | and =>
    refine bind_eq_ok.2 ⟨u, h, ?_⟩
    cases hu : u.toBoolean with
    | true => exact bind_eq_ok.2 ⟨v, h', by simpa [Operator.apply, hu] using happly⟩
    | false => simpa [Operator.apply, hu] using happly
  | _ => exact bind_eq_ok.2 ⟨u, h, bind_eq_ok.2 ⟨v, h', happly⟩⟩

private theorem evalAll_of_hasValue {es : List Expr} {vs : List Value}
    (h : List.Forall₂ (HasValue d order focus) es vs) : evalAll d order es focus = .ok vs := by
  induction h with
  | nil => rw [evalAll]
  | cons hv _ ih =>
    rw [evalAll, hv, ih]
    rfl

@[simp] theorem ofName?_text (f : Function) : Function.ofName? f.text = some f := by
  have hall : Function.all.all fun f => Function.ofName? f.text == some f := by decide +kernel
  exact eq_of_beq (List.all_eq_true.1 hall f f.mem_all)

theorem HasValue.call (f : Function) {es : List Expr} {vs : List Value} {v : Value}
    (hf : f.arity.admits es.length) (h : List.Forall₂ (HasValue d order focus) es vs)
    (happly : f.apply d focus vs = .ok v) : HasValue d order focus (.call f.text es) v := by
  unfold HasValue
  rw [eval, ofName?_text]
  dsimp only
  rw [if_pos hf, evalAll_of_hasValue h]
  exact happly

theorem hasValue_literal (s : Text) : HasValue d order focus (.literal s) (.string s) := rfl

theorem hasValue_number (x : Double) : HasValue d order focus (.number x) (.number x) := rfl

@[simp] theorem flatMap_toText_intersperse (separator : Text) (ws : List Text) :
    ((ws.map Value.string).intersperse (.string separator)).flatMap (·.toText d) =
      Text.join separator ws := by
  rw [← Text.map_intersperse, List.flatMap_map, ← Text.flatten_intersperse]
  exact List.flatMap_id

/-- A quoted value stands for itself. -/
theorem hasValue_value (value : Text) : HasValue d order focus (valueExpr value) (.string value) := by
  unfold valueExpr
  split
  · exact hasValue_literal value
  · rename_i hquotes
    have happostrophe : '\'' ∈ value := by
      by_contra happostrophe
      exact hquotes (.inl happostrophe)
    obtain ⟨u, v, ws, hsplit⟩ := Text.exists_splitAt_of_mem happostrophe
    have hpieces : List.Forall₂ (HasValue d order focus)
        (((Text.splitAt (· == '\'') value).map .literal).intersperse (.literal ['\'']))
        (((Text.splitAt (· == '\'') value).map .string).intersperse (.string ['\''])) := by
      refine forall₂_intersperse ?_ (hasValue_literal _)
      rw [List.forall₂_map_left_iff, List.forall₂_map_right_iff, List.forall₂_same]
      exact fun piece _ => hasValue_literal piece
    refine HasValue.call .concat ?_ hpieces ?_
    · rw [hsplit]
      simp [Function.arity, Arity.admits]
    · show Except.ok (Value.string _) = _
      rw [flatMap_toText_intersperse, Text.join_splitAt]

/-- Quoting keeps every text: whatever quotation marks it contains, the quoted text is cut into tokens,
read as an expression and evaluated to the text itself, for any node of any document. -/
theorem quoteLiteral_exact (value : Text) :
    ∃ ts e, tokens (quoteLiteral value) = .ok ts ∧ ofTokens ts = .ok e ∧
      (∀ d order focus, eval d order e focus = .ok (.string value)) ∧
      ∀ d id, evaluate d id (quoteLiteral value) = .ok (.string value) := by
  have hspelled := (spelled_value value).raise (Nat.zero_le 6)
  obtain ⟨ts, htokens, hread⟩ := hspelled.tokens
  refine ⟨ts, valueExpr value, htokens, hread, fun _ _ _ => hasValue_value value, fun d id => ?_⟩
  rw [evaluate, hspelled.parse]
  exact hasValue_value value

/-- The double of an integer, as expressions write it. -/
def integer (i : Int) : Double := if i < 0 then -.ofNat i.natAbs else .ofNat i.natAbs

theorem hasValue_integer (i : Int) :
    HasValue d order focus (integerExpr i) (.number (integer i)) := by
  unfold integerExpr integer
  split
  · exact bind_eq_ok.2 ⟨_, hasValue_number _, rfl⟩
  · exact hasValue_number _

/-- The attribute of a node with a name, if there is one. -/
def attributeNodes (d : Document) (id : Nat) (name : Text) : List Node :=
  if (d.attribute? id name).isSome then [.attributeOf id name] else []

theorem nodup_names (a : Attributes) : a.names.Nodup := by
  apply List.Pairwise.map Prod.fst _ a.sorted
  intro x y hxy heq
  have hself : Text.before x.1 x.1 := by rwa [← heq] at hxy
  rw [Text.before_irrefl] at hself
  cases hself

@[simp] theorem isSome_get? (a : Attributes) (name : Text) :
    (a.get? name).isSome = decide (name ∈ a.names) := by
  unfold Attributes.get? Attributes.names
  induction a.entries with
  | nil => rfl
  | cons x rest ih =>
    rw [List.lookup_cons]
    cases hx : name == x.1 with
    | true => simp [eq_of_beq hx]
    | false =>
      dsimp only
      rw [ih]
      have hne : name ≠ x.1 := by simpa using hx
      simp [hne]

private theorem filter_names (a : Attributes) (name : Text) :
    a.names.filter (name == ·) = if (a.get? name).isSome then [name] else [] := by
  have hcount : a.names.filter (name == ·) = List.replicate (a.names.count name) name := by
    rw [← List.filter_beq]
    congr 1
    funext x
    exact BEq.comm
  rw [hcount, isSome_get?]
  by_cases hmem : name ∈ a.names
  · rw [List.count_eq_one_of_mem (nodup_names a) hmem]
    simp [hmem]
  · rw [List.count_eq_zero_of_not_mem hmem]
    simp [hmem]

@[simp] theorem nodes_attributes (id : Nat) : Axis.attributes.nodes d (.tree id) =
    (d.element? id).elim [] fun e => e.2.names.map (.attributeOf id) := rfl

private theorem filter_attributes {test : Node → Bool} {id : Nat} {name : Text}
    (h : ∀ found, test (.attributeOf id found) = (name == found)) :
    (Axis.attributes.nodes d (.tree id)).filter test = attributeNodes d id name := by
  unfold attributeNodes Document.attribute?
  rw [nodes_attributes]
  cases d.element? id with
  | none => rfl
  | some e =>
    have hnames : test ∘ Node.attributeOf id = (name == ·) := by
      funext found
      exact h found
    rw [Option.elim_some, List.filter_map, hnames, filter_names]
    dsimp only [Option.bind]
    split <;> rfl

/-- The nodes that pass a test which does not look at positions. -/
theorem keepWhere_of_test {predicate : Focus → Except Error Value} {size : Nat} {test : Node → Bool}
    {nodes : List Node} (h : ∀ n ∈ nodes, ∀ i, predicate ⟨n, i, size⟩ = .ok (.boolean (test n)))
    (position : Nat) : keepWhere predicate size position nodes = .ok (nodes.filter test) := by
  induction nodes generalizing position with
  | nil => rfl
  | cons n rest ih =>
    have hrest := ih (fun m hm => h m (List.mem_cons_of_mem n hm)) (position + 1)
    rw [keepWhere, h n List.mem_cons_self position, hrest, List.filter_cons]
    rfl

theorem HasValue.step {s : Step} {l : List Node} (h : advance d order s focus.node = .ok l) :
    HasValue d order focus (.path false [s]) (.nodes (Node.sort order l)) := by
  rw [HasValue, eval, walk, if_neg Bool.false_ne_true, Loop.flatMap, h]
  show (walk d order [] (Node.sort order (l ++ [])) >>= _) = _
  rw [walk, List.append_nil]
  rfl

@[simp] theorem sort_attributeNodes (id : Nat) (name : Text) :
    Node.sort order (attributeNodes d id name) = attributeNodes d id name := by
  unfold attributeNodes
  split <;> rfl

theorem hasValue_attribute (name : Text) (id position size : Nat) :
    HasValue d order ⟨.tree id, position, size⟩ (attributeExpr name)
      (.nodes (attributeNodes d id name)) := by
  unfold attributeExpr
  rw [← @sort_attributeNodes d order]
  split
  · apply HasValue.step
    rw [advance, narrow]
    exact congrArg _ (filter_attributes fun found => rfl)
  · apply HasValue.step
    have hname : ∀ n : Node, ∀ i k, HasValue d order ⟨n, i, k⟩
        (.binary .equal (.call "name" []) (valueExpr name)) (.boolean (n.name d == name)) := by
      intro n i k
      have hcall : HasValue d order ⟨n, i, k⟩ (.call "name" []) (.string (n.name d)) :=
        HasValue.call .name rfl .nil rfl
      exact hcall.binary (hasValue_value name) rfl
    rw [advance, narrow, keepWhere_of_test fun n _ i => hname n i _]
    show narrow d order [] _ = _
    rw [narrow]
    have hany : (Axis.attributes.nodes d (.tree id)).filter (NodeTest.any.admits d .attributes) =
        Axis.attributes.nodes d (.tree id) := by
      rw [List.filter_eq_self]
      intro n hn
      rw [nodes_attributes] at hn
      cases he : d.element? id with
      | none => simp [he] at hn
      | some e =>
        simp only [he, Option.elim_some, List.mem_map] at hn
        obtain ⟨found, -, rfl⟩ := hn
        rfl
    rw [hany]
    exact congrArg _ (filter_attributes fun found => BEq.comm)

end CssLocator.XPath
