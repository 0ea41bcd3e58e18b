import CssLocator.Proofs.EnclosedExpressions
import CssLocator.Proofs.PathQueries
import CssLocator.Proofs.PathsFromUnions

/-!
# Axes with the node itself

From any node `ancestor-or-self` leads to the node and to where `ancestor` leads. For `descendant-or-self`
and `descendant` this holds in the tree only: an attribute has no descendants, and the axis that should
add the attribute leads nowhere from it.
-/

namespace CssLocator.XPath

variable {d : Document} {focus : Focus} {l m : List Node} {n x : Node} {s : Text} {e : Expr}

@[simp] theorem mem_nodes_ancestorOrSelf :
    n ∈ Axis.ancestorOrSelf.nodes d x ↔ n = x ∨ n ∈ Axis.ancestor.nodes d x := by
  cases x <;> simp [Axis.nodes]

private theorem attributeName?_of_mem_descendant (hn : n ∈ Axis.descendant.nodes d x) :
    n.attributeName? = none := by
  cases x with
  | tree i =>
    obtain ⟨j, -, rfl⟩ := List.mem_map.1 hn
    rfl
  | attributeOf owner name => cases hn

/-- The node itself is left out if it is an attribute. -/
theorem mem_nodes_descendantOrSelf :
    n ∈ Axis.descendantOrSelf.nodes d x ↔
      (n = x ∨ n ∈ Axis.descendant.nodes d x) ∧ n.attributeName? = none := by
  cases x with
  | tree i =>
    have htree : n = .tree i ∨ n ∈ Axis.descendant.nodes d (.tree i) → n.attributeName? = none := by
      rintro (rfl | hn)
      · rfl
      · exact attributeName?_of_mem_descendant hn
    simpa [Axis.nodes] using htree
  | attributeOf owner name =>
    have hattribute : n = .attributeOf owner name → n.attributeName? ≠ none := by
      rintro rfl
      simp [Node.attributeName?]
    simpa [Axis.nodes] using hattribute

section Attached

variable (h : d.Linked) (hroot : d.parent? Document.root = none)

include h hroot

/-- Every attached node passes the test. -/
theorem advance_anyNode (axis : Axis) (hx : x.id ∈ d.order) :
    advance d d.order (anyNode axis) x = .ok (axis.nodes d x) := by
  have hadmits : ∀ n ∈ axis.nodes d x, (NodeTest.type .node).admits d axis n := by
    intro n hn
    have hattached := axis.attached_of_mem_nodes h hroot hx hn
    cases n with
    | tree i => exact admits_node axis (h.lt_size_of_mem_order hattached)
    | attributeOf owner name => rfl
  rw [anyNode, advance, narrow, List.filter_eq_self.2 hadmits]

private theorem exists_walk_anyNode (axis : Axis) (hm : NodeSet d m) :
    ∃ l, walk d d.order [anyNode axis] m = .ok l ∧ NodeSet d l ∧
      ∀ n, n ∈ l ↔ ∃ x ∈ m, n ∈ axis.nodes d x := by
  obtain ⟨l, hl⟩ := exists_walk_singleton_iff.2 fun x hx =>
    ⟨_, advance_anyNode h hroot axis (hm.attached x hx)⟩
  refine ⟨l, hl, hm.walk h hroot hl, fun n => ?_⟩
  rw [mem_walk_singleton hl]
  refine exists_congr fun x => and_congr_right fun hx => ?_
  simp [advance_anyNode h hroot axis (hm.attached x hx)]

end Attached

/-- What the text finds, if it is an expression and its value is a node-set. -/
def found? (d : Document) (focus : Focus) (s : Text) : Option (List Node) :=
  (parse s).toOption.bind fun e =>
    match eval d d.order e focus with
    | .ok (.nodes l) => some l
    | _ => none

private theorem found?_eq_some_iff :
    found? d focus s = some l ↔ ∃ e, parse s = .ok e ∧ Selects d focus e l := by
  unfold found? Selects
  cases parse s with
  | error fault => simp [Except.toOption]
  | ok e =>
    simp only [Except.toOption, Option.bind_some, Except.ok.injEq, exists_eq_left']
    split <;> simp_all

/-- The step to the nodes of an axis from what an expression selects. -/
def stepFrom (s : Text) (axis : Axis) : Text := "(" ++ s ++ ")/" ++ axis.name ++ "::node()"

/-- What an expression selects, and the nodes of an axis from there. -/
def withStepFrom (s : Text) (axis : Axis) : Text := "(" ++ s ++ ") | " ++ stepFrom s axis

private theorem parse_stepFrom (h : parse s = .ok e) (axis : Axis) :
    parse (stepFrom s axis) = .ok (.filter e [] [anyNode axis]) ∧
      parse (withStepFrom s axis) = .ok (.binary .union e (.filter e [] [anyNode axis])) := by
  have henclosed := enclosed_of_parse h
  have hhead : ∃ c ∈ (axis.name ++ "::node()").head?, c ≠ '/' := by
    cases axis <;> exact ⟨_, rfl, by decide⟩
  have hstep := henclosed.continued (spelledStep_anyNode axis) hhead
  have htext : '(' :: (s ++ [')']) ++ '/' :: (axis.name ++ "::node()") = stepFrom s axis := by
    simp [stepFrom]
  rw [htext] at hstep
  have hunion := henclosed.path.union hstep
  have htexts : '(' :: (s ++ [')']) ++ " | " ++ stepFrom s axis = withStepFrom s axis := by
    simp [withStepFrom]
  rw [htexts] at hunion
  exact ⟨(hstep.spelled.raise (Nat.zero_le 6)).parse, (hunion.raise (Nat.zero_le 6)).parse⟩

section Attached

variable (h : d.Linked) (hroot : d.parent? Document.root = none) (hfocus : focus.node.id ∈ d.order)

include h hroot hfocus

/-- What is found by a step from the nodes of a text, and together with them. -/
theorem exists_found? (hs : found? d focus s = some m) (axis : Axis) :
    (∃ l, found? d focus (stepFrom s axis) = some l ∧ NodeSet d l ∧
      ∀ n, n ∈ l ↔ ∃ x ∈ m, n ∈ axis.nodes d x) ∧
    ∃ l, found? d focus (withStepFrom s axis) = some l ∧ NodeSet d l ∧
      ∀ n, n ∈ l ↔ ∃ x ∈ m, n = x ∨ n ∈ axis.nodes d x := by
  obtain ⟨e, hparse, he⟩ := found?_eq_some_iff.1 hs
  obtain ⟨hstep, hunion⟩ := parse_stepFrom hparse axis
  have hm : NodeSet d m := nodeSet_of_selects h hroot hfocus he
  obtain ⟨l, hwalk, hl, hmem⟩ := exists_walk_anyNode h hroot axis hm
  have hselects := selects_steps_iff.2 ⟨m, he, hwalk⟩
  refine ⟨⟨l, found?_eq_some_iff.2 ⟨_, hstep, hselects⟩, hl, hmem⟩, Node.sort d.order (m ++ l),
    found?_eq_some_iff.2 ⟨_, hunion, he.union hselects⟩, hm.union hl, fun n => ?_⟩
  simp [hmem, exists_or, and_or_left]

end Attached

/-- For an attached node and an expression whose value is a node-set: `ancestor-or-self` finds the nodes
and what `ancestor` finds, and `descendant-or-self` finds those of the nodes that are no attributes and
what `descendant` finds. So it adds all of the nodes if and only if there are no attributes among
them. -/
theorem or_self_axes_exact (d : Document) (focus : Focus) (hbuilt : d.Built)
    (hroot : d.parent? Document.root = none) (hfocus : focus.node.id ∈ d.order) (s : Text)
    (m : List Node) (hs : found? d focus s = some m) :
    (∃ l, found? d focus (stepFrom s .ancestorOrSelf) = some l ∧
      found? d focus (withStepFrom s .ancestor) = some l) ∧
    ∃ l r, found? d focus (stepFrom s .descendantOrSelf) = some l ∧
      found? d focus (withStepFrom s .descendant) = some r ∧
      l = r.filter (·.attributeName?.isNone) ∧ (l = r ↔ ∀ n ∈ m, n.attributeName? = none) := by
  have hfound := exists_found? hbuilt.linked hroot hfocus hs
  constructor
  · obtain ⟨l, hstep, hl, hmem⟩ := (hfound .ancestorOrSelf).1
    obtain ⟨r, hunion, hr, hmems⟩ := (hfound .ancestor).2
    have hsame : l = r := hl.ext hr fun n => by simp [hmem, hmems]
    exact ⟨l, hstep, hsame ▸ hunion⟩
  · obtain ⟨l, hstep, hl, hmem⟩ := (hfound .descendantOrSelf).1
    obtain ⟨r, hunion, hr, hmems⟩ := (hfound .descendant).2
    have htrees : l = r.filter (·.attributeName?.isNone) := by
      refine hl.ext (hr.sublist List.filter_sublist) fun n => ?_
      simp [hmem, hmems, mem_nodes_descendantOrSelf, ← and_assoc, exists_and_right]
    refine ⟨l, r, hstep, hunion, htrees, ?_⟩
    rw [htrees, List.filter_eq_self]
    constructor
    · intro hall n hn
      simpa using hall n ((hmems n).2 ⟨n, hn, .inl rfl⟩)
    · intro hall n hn
      obtain ⟨x, hx, rfl | hbelow⟩ := (hmems n).1 hn
      · simp [hall n hx]
      · simp [attributeName?_of_mem_descendant hbelow]

theorem or_self_axes_exact_list :
    describedList.Built ∧ describedList.parent? Document.root = none ∧ 1 ∈ describedList.order ∧
      found? describedList ⟨.tree 1, 1, 1⟩ ". | @id" = some [.tree 1, .attributeOf 1 "id"] ∧
      ∃ l r, found? describedList ⟨.tree 1, 1, 1⟩ "(. | @id)/descendant-or-self::node()" = some l ∧
        found? describedList ⟨.tree 1, 1, 1⟩ "(. | @id) | (. | @id)/descendant::node()" = some r ∧
        l ≠ r := by
  have hroot : describedList.parent? Document.root = none := by decide +kernel
  have hlist : 1 ∈ describedList.order := by decide +kernel
  have hvalue : found? describedList ⟨.tree 1, 1, 1⟩ ". | @id" =
      some [.tree 1, .attributeOf 1 "id"] := by decide +kernel
  obtain ⟨-, l, r, hstep, hunion, -, hsame⟩ := or_self_axes_exact describedList ⟨.tree 1, 1, 1⟩
    built_describedList hroot hlist ". | @id" _ hvalue
  refine ⟨built_describedList, hroot, hlist, hvalue, l, r, hstep, hunion, fun heq => ?_⟩
  exact absurd (hsame.1 heq (.attributeOf 1 "id") (by simp)) (by simp [Node.attributeName?])

/-- An attribute is not found by the axis that should add it. -/
theorem or_self_axes_attribute :
    found? describedList ⟨.tree 1, 1, 1⟩ "(@id)/descendant-or-self::node()" = some [] ∧
      found? describedList ⟨.tree 1, 1, 1⟩ "(@id) | (@id)/descendant::node()" =
        some [.attributeOf 1 "id"] := by
  decide +kernel

end CssLocator.XPath
