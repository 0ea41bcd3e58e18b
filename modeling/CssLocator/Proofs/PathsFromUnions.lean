import CssLocator.Proofs.NodeSets
import CssLocator.Proofs.PhraseRules

/-!
# Paths from unions

A location path leads from a union of node-sets to the union of what it leads to from each of them. A
step looks at one node after the other and counts positions along the axis from that node alone, so no
node of the set matters for another one; what the step finds is sorted only then.
-/

namespace CssLocator.XPath

variable {d : Document} {focus : Focus} {l m n r found : List Node} {a b e : Expr} {s : Step}
  {steps : List Step}

theorem walk_singleton_eq_ok :
    walk d d.order [s] l = .ok m ↔
      ∃ reached, Loop.flatMap (advance d d.order s) l = .ok reached ∧
        Node.sort d.order reached = m := by
  rw [walk, bind_eq_ok]
  simp only [walk, Except.ok.injEq]

/-- The first step, and then the others. -/
theorem walk_cons_eq_ok :
    walk d d.order (s :: steps) l = .ok found ↔
      ∃ m, walk d d.order [s] l = .ok m ∧ walk d d.order steps m = .ok found := by
  rw [← List.singleton_append, walk_append, bind_eq_ok]

theorem mem_walk_singleton (h : walk d d.order [s] l = .ok m) {y : Node} :
    y ∈ m ↔ ∃ x ∈ l, ∃ ys, advance d d.order s x = .ok ys ∧ y ∈ ys := by
  obtain ⟨reached, hreached, rfl⟩ := walk_singleton_eq_ok.1 h
  rw [Node.mem_sort, Loop.mem_flatMap hreached]

theorem exists_walk_singleton_iff :
    (∃ m, walk d d.order [s] l = .ok m) ↔ ∀ x ∈ l, ∃ ys, advance d d.order s x = .ok ys := by
  rw [← Loop.exists_flatMap_iff]
  constructor
  · rintro ⟨m, hm⟩
    obtain ⟨reached, hreached, -⟩ := walk_singleton_eq_ok.1 hm
    exact ⟨reached, hreached⟩
  · rintro ⟨reached, hreached⟩
    exact ⟨_, walk_singleton_eq_ok.2 ⟨reached, hreached, rfl⟩⟩

section Attached

variable (h : d.Linked) (hroot : d.parent? Document.root = none) (hl : NodeSet d l) (hr : NodeSet d r)

include h hroot hl hr

/-- One step from a union reaches what it reaches from both sides. -/
theorem walk_singleton_union (hm : walk d d.order [s] l = .ok m) (hn : walk d d.order [s] r = .ok n) :
    walk d d.order [s] (Node.sort d.order (l ++ r)) = .ok (Node.sort d.order (m ++ n)) := by
  have hrounds : ∀ x ∈ Node.sort d.order (l ++ r), ∃ ys, advance d d.order s x = .ok ys := by
    intro x hx
    rcases List.mem_append.1 (Node.mem_sort.1 hx) with hx | hx
    · exact exists_walk_singleton_iff.1 ⟨m, hm⟩ x hx
    · exact exists_walk_singleton_iff.1 ⟨n, hn⟩ x hx
  obtain ⟨u, hu⟩ := exists_walk_singleton_iff.2 hrounds
  have hset : NodeSet d u := (hl.union hr).walk h hroot hu
  have hsets : NodeSet d (Node.sort d.order (m ++ n)) :=
    (hl.walk h hroot hm).union (hr.walk h hroot hn)
  have hsame : u = Node.sort d.order (m ++ n) := by
    refine hset.ext hsets fun y => ?_
    rw [Node.mem_sort, List.mem_append, mem_walk_singleton hu, mem_walk_singleton hm,
      mem_walk_singleton hn]
    simp only [Node.mem_sort, List.mem_append, or_and_right, exists_or]
  rw [hu, hsame]

/-- One step succeeds from a union if and only if it succeeds from both sides. -/
theorem walk_singleton_union_iff :
    walk d d.order [s] (Node.sort d.order (l ++ r)) = .ok found ↔
      ∃ m n, walk d d.order [s] l = .ok m ∧ walk d d.order [s] r = .ok n ∧
        Node.sort d.order (m ++ n) = found := by
  constructor
  · intro hfound
    have hrounds := exists_walk_singleton_iff.1 ⟨found, hfound⟩
    obtain ⟨m, hm⟩ := exists_walk_singleton_iff.2 fun x hx =>
      hrounds x (Node.mem_sort.2 (List.mem_append_left r hx))
    obtain ⟨n, hn⟩ := exists_walk_singleton_iff.2 fun x hx =>
      hrounds x (Node.mem_sort.2 (List.mem_append_right l hx))
    have hunion := walk_singleton_union h hroot hl hr hm hn
    exact ⟨m, n, hm, hn, Except.ok.inj (hunion.symm.trans hfound)⟩
  · rintro ⟨m, n, hm, hn, rfl⟩
    exact walk_singleton_union h hroot hl hr hm hn

/-- Any number of steps from a union, by induction on the steps: each leads from two node-sets and
their union to two node-sets and their union again. -/
theorem walk_union_iff :
    walk d d.order steps (Node.sort d.order (l ++ r)) = .ok found ↔
      ∃ m n, walk d d.order steps l = .ok m ∧ walk d d.order steps r = .ok n ∧
        Node.sort d.order (m ++ n) = found := by
  induction steps generalizing l r with
  | nil => simp [walk]
  | cons s steps ih =>
    constructor
    · intro hfound
      obtain ⟨u, hu, hwalk⟩ := walk_cons_eq_ok.1 hfound
      obtain ⟨m, n, hm, hn, rfl⟩ := (walk_singleton_union_iff h hroot hl hr).1 hu
      obtain ⟨m', n', hm', hn', rfl⟩ := (ih (hl.walk h hroot hm) (hr.walk h hroot hn)).1 hwalk
      exact ⟨m', n', walk_cons_eq_ok.2 ⟨m, hm, hm'⟩, walk_cons_eq_ok.2 ⟨n, hn, hn'⟩, rfl⟩
    · rintro ⟨m', n', hleft, hright, rfl⟩
      obtain ⟨m, hm, hm'⟩ := walk_cons_eq_ok.1 hleft
      obtain ⟨n, hn, hn'⟩ := walk_cons_eq_ok.1 hright
      have hu := walk_singleton_union h hroot hl hr hm hn
      have hwalk := (ih (hl.walk h hroot hm) (hr.walk h hroot hn)).2 ⟨m', n', hm', hn', rfl⟩
      exact walk_cons_eq_ok.2 ⟨_, hu, hwalk⟩

end Attached

private theorem selects_union_iff :
    Selects d focus (.binary .union a b) l ↔
      ∃ m n, Selects d focus a m ∧ Selects d focus b n ∧ Node.sort d.order (m ++ n) = l := by
  constructor
  · intro hl
    obtain ⟨-, m, n, hm, hn, rfl⟩ := hl.of_binary
    exact ⟨m, n, hm, hn, rfl⟩
  · rintro ⟨m, n, hm, hn, rfl⟩
    exact hm.union hn

/-- Steps after an expression lead on from its nodes. -/
theorem selects_steps_iff :
    Selects d focus (.filter e [] steps) l ↔
      ∃ m, Selects d focus e m ∧ walk d d.order steps m = .ok l := by
  rw [selects_filter_iff]
  simp [narrow]

/-- For an attached node, any steps lead from a union to the union of what they lead to from both
sides: one of the two expressions has a node-set as its value if and only if the other one has, and
it is the same. -/
theorem paths_distribute_over_union (d : Document) (focus : Focus) (hbuilt : d.Built)
    (hroot : d.parent? Document.root = none) (hfocus : focus.node.id ∈ d.order) (a b : Expr)
    (steps : List Step) (l : List Node) :
    Selects d focus (.filter (.binary .union a b) [] steps) l ↔
      Selects d focus (.binary .union (.filter a [] steps) (.filter b [] steps)) l := by
  have hset : ∀ {e m}, Selects d focus e m → NodeSet d m :=
    fun h => nodeSet_of_selects hbuilt.linked hroot hfocus h
  rw [selects_steps_iff, selects_union_iff]
  simp only [selects_union_iff, selects_steps_iff]
  constructor
  · rintro ⟨_, ⟨m, n, hm, hn, rfl⟩, hwalk⟩
    obtain ⟨m', n', hm', hn', rfl⟩ :=
      (walk_union_iff hbuilt.linked hroot (hset hm) (hset hn)).1 hwalk
    exact ⟨m', n', ⟨m, hm, hm'⟩, ⟨n, hn, hn'⟩, rfl⟩
  · rintro ⟨m', n', ⟨m, hm, hm'⟩, ⟨n, hn, hn'⟩, rfl⟩
    have hwalk := (walk_union_iff hbuilt.linked hroot (hset hm) (hset hn)).2 ⟨m', n', hm', hn', rfl⟩
    exact ⟨_, ⟨m, n, hm, hn, rfl⟩, hwalk⟩

/-- Leads to the second node on the way up from a node, the node itself being the first. -/
def secondAncestor : Step := .mk .ancestorOrSelf (.type .node) [.number (.ofNat 2)]

theorem paths_distribute_over_union_ancestors :
    describedList.Built ∧ describedList.parent? Document.root = none ∧ 3 ∈ describedList.order ∧
      Selects describedList ⟨.tree 3, 1, 1⟩
        (.filter (.binary .union (.path false [anyNode .precedingSibling])
          (.path false [anyNode .parent])) [] [secondAncestor]) [.tree 0, .tree 1] ∧
      Selects describedList ⟨.tree 3, 1, 1⟩
        (.binary .union (.filter (.path false [anyNode .precedingSibling]) [] [secondAncestor])
          (.filter (.path false [anyNode .parent]) [] [secondAncestor])) [.tree 0, .tree 1] := by
  have hroot : describedList.parent? Document.root = none := by decide +kernel
  have hitem : 3 ∈ describedList.order := by decide +kernel
  have hvalue : selectedByLastItem (.filter (.binary .union (.path false [anyNode .precedingSibling])
      (.path false [anyNode .parent])) [] [secondAncestor]) = some [.tree 0, .tree 1] := by
    decide +kernel
  have hselects := selects_of_selectedByLastItem hvalue
  have hsame := paths_distribute_over_union describedList ⟨.tree 3, 1, 1⟩ built_describedList hroot
    hitem (.path false [anyNode .precedingSibling]) (.path false [anyNode .parent]) [secondAncestor]
    [.tree 0, .tree 1]
  exact ⟨built_describedList, hroot, hitem, hselects, hsame.1 hselects⟩

end CssLocator.XPath
