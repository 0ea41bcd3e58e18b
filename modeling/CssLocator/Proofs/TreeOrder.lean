import CssLocator.Proofs.TreeLinks
import Mathlib.Data.List.Induction

/-!
# Tree order

The nodes below a node are listed in pre-order, each child followed by what is below it. They are
the nodes that have it among their ancestors, and none is listed twice. What is below an attached
node is listed in the same order below the document node.
-/

namespace CssLocator.Document

variable {d : Document}

/-- Following the links from a first node meets the nodes of the list, and the last one has no
link. -/
inductive Follows (link : Nat → Option Nat) : Option Nat → List Nat → Prop
  | stop : Follows link none []
  | next {x : Nat} {met : List Nat} (h : Follows link (link x) met) : Follows link (some x) (x :: met)

/-- A walk that ends is found by any bound that leaves room for it. -/
theorem Follows.follow_eq {link : Nat → Option Nat} {start : Option Nat} {met : List Nat}
    (h : Follows link start met) {n : Nat} (hn : met.length ≤ n) : follow link n start = met := by
  induction h generalizing n with
  | stop => cases n <;> rfl
  | next _ ih =>
    rw [List.length_cons] at hn
    obtain ⟨n, rfl⟩ : ∃ m, n = m + 1 := ⟨n - 1, by omega⟩
    rw [follow, ih (by omega)]

/-- The pending nodes are visited one after the other, and the children of a visited node are put in
front of the nodes still pending. In the end the nodes of the list were visited and none is
pending. -/
inductive Visits (d : Document) : List Nat → List Nat → Prop
  | done : Visits d [] []
  | next {x : Nat} {pending visited : List Nat} (h : Visits d (d.children x ++ pending) visited) :
      Visits d (x :: pending) (x :: visited)

theorem Visits.preorder_eq {pending visited : List Nat} (h : Visits d pending visited) {n : Nat}
    (hn : visited.length ≤ n) : d.preorder n pending = visited := by
  induction h generalizing n with
  | done => cases n <;> rfl
  | next _ ih =>
    rw [List.length_cons] at hn
    obtain ⟨n, rfl⟩ : ∃ m, n = m + 1 := ⟨n - 1, by omega⟩
    rw [preorder, ih (by omega)]

/-- A node followed by what is below it, down to the given depth. -/
def branch (d : Document) : Nat → Nat → List Nat
  | 0, x => [x]
  | n + 1, x => x :: (d.children x).flatMap (branch d n)

theorem rank?_of_mem_order {x : Nat} (hx : x ∈ d.order) : d.rank? x = some (d.order.idxOf x) := by
  obtain ⟨i, hi⟩ := Option.isSome_iff_exists.1 (List.isSome_idxOf?.2 hx)
  rw [rank?, List.idxOf_eq_getD_idxOf?, hi]
  rfl

/-- Every pending node is visited together with its branch. -/
theorem visits_flatMap {f : Nat → List Nat} (hf : ∀ x, f x = x :: (d.children x).flatMap f)
    (pending : List Nat) : Visits d pending (pending.flatMap f) := by
  induction hn : (pending.flatMap f).length generalizing pending with
  | zero =>
    cases pending with
    | nil => exact .done
    | cons x pending =>
      rw [List.flatMap_cons, hf x] at hn
      simp at hn
  | succ n ih =>
    cases pending with
    | nil => cases hn
    | cons x pending =>
      have hrest : (x :: pending).flatMap f = x :: (d.children x ++ pending).flatMap f := by
        rw [List.flatMap_cons, hf x, List.flatMap_append, List.cons_append]
      rw [hrest] at hn ⊢
      exact .next (ih _ (Nat.succ.inj hn))

namespace Linked

private theorem length_ancestors_of_mem_children (h : d.Linked) {c p : Nat} (hc : c ∈ d.children p) :
    (d.ancestors c).length = (d.ancestors p).length + 1 := by
  rw [h.ancestors_of_some (h.mem_children.1 hc), List.length_cons]

/-- No branch is deeper than the number of nodes. -/
theorem branch_succ (h : d.Linked) (n x : Nat) (hn : d.size ≤ n + (d.ancestors x).length + 1) :
    d.branch (n + 1) x = d.branch n x := by
  induction n generalizing x with
  | zero =>
    have hnone : d.children x = [] := by
      refine List.eq_nil_iff_forall_not_mem.2 ?_
      intro c hc
      have := h.length_ancestors_of_mem_children hc
      have := h.length_ancestors_lt c
      omega
    simp [branch, hnone]
  | succ n ih =>
    have hsame : (d.children x).flatMap (d.branch (n + 1)) = (d.children x).flatMap (d.branch n) := by
      refine List.flatMap_congr ?_
      intro c hc
      have := h.length_ancestors_of_mem_children hc
      exact ih c (by omega)
    show x :: (d.children x).flatMap (d.branch (n + 1)) = x :: (d.children x).flatMap (d.branch n)
    rw [hsame]

theorem branch_eq (h : d.Linked) (x : Nat) :
    d.branch d.size x = x :: (d.children x).flatMap (d.branch d.size) := by
  rw [← h.branch_succ d.size x (by omega)]
  rfl

private theorem mem_branch (h : d.Linked) {x y : Nat} :
    y ∈ d.branch d.size x ↔ y = x ∨ x ∈ d.ancestors y := by
  induction x using h.wellFounded_children.induction with
  | _ x ih =>
    rw [h.branch_eq, List.mem_cons, List.mem_flatMap, h.mem_ancestors_iff, Relation.TransGen.head'_iff]
    refine or_congr_right (exists_congr fun c => ?_)
    rw [h.mem_children]
    refine and_congr_right fun hc => ?_
    rw [ih c (h.mem_children.2 hc), h.mem_ancestors_iff, Relation.reflTransGen_iff_eq_or_transGen]

/-- Of the nodes on the way up from a node, no two have the same parent. -/
theorem eq_of_parent_eq (h : d.Linked) {a b p y : Nat} (ha : a = y ∨ a ∈ d.ancestors y)
    (hb : b = y ∨ b ∈ d.ancestors y) (hap : d.parent? a = some p) (hbp : d.parent? b = some p) :
    a = b := by
  have hcycle : ∀ {u v : Nat}, d.parent? u = some p → d.parent? v = some p →
      v ∉ d.ancestors u := by
    intro u v hu hv hmem
    rw [h.ancestors_of_some hu, List.mem_cons] at hmem
    have habove : p ∈ d.ancestors v := by simp [h.ancestors_of_some hv]
    rcases hmem with rfl | hmem
    · exact h.not_mem_ancestors_self _ habove
    · exact h.not_mem_ancestors_self p (h.ancestors_trans habove hmem)
  induction y using h.acyclic.induction with
  | _ y ih =>
    rcases ha with rfl | ha
    · rcases hb with rfl | hb
      · rfl
      · exact absurd hb (hcycle hap hbp)
    · rcases hb with rfl | hb
      · exact absurd ha (hcycle hbp hap)
      · obtain ⟨q, hq, ha⟩ := h.mem_ancestors.1 ha
        rw [h.ancestors_of_some hq, List.mem_cons] at hb
        exact ih q hq ha hb

private theorem nodup_branch (h : d.Linked) (x : Nat) : (d.branch d.size x).Nodup := by
  induction x using h.wellFounded_children.induction with
  | _ x ih =>
    rw [h.branch_eq, List.nodup_cons, List.nodup_flatMap]
    refine ⟨?_, ih, ?_⟩
    · intro hmem
      obtain ⟨c, hc, hx⟩ := List.mem_flatMap.1 hmem
      have habove : x ∈ d.ancestors c := by simp [h.ancestors_of_some (h.mem_children.1 hc)]
      rcases h.mem_branch.1 hx with rfl | hx
      · exact h.not_mem_ancestors_self _ habove
      · exact h.not_mem_ancestors_self x (h.ancestors_trans habove hx)
    · refine (h.nodup_children x).imp_of_mem ?_
      intro a b ha hb hne y hya hyb
      refine hne (h.eq_of_parent_eq ?_ ?_ (h.mem_children.1 ha) (h.mem_children.1 hb) (y := y))
      · exact (h.mem_branch.1 hya).imp_left Eq.symm
      · exact (h.mem_branch.1 hyb).imp_left Eq.symm

theorem descendants_eq_flatMap_branch (h : d.Linked) (x : Nat) :
    d.descendants x = (d.children x).flatMap (d.branch d.size) := by
  refine (visits_flatMap h.branch_eq (d.children x)).preorder_eq ?_
  have hnodup := h.nodup_branch x
  rw [h.branch_eq, List.nodup_cons] at hnodup
  refine nodup_length_le hnodup.2 ?_
  intro y hy
  obtain ⟨c, hc, hy⟩ := List.mem_flatMap.1 hy
  rcases h.mem_branch.1 hy with rfl | hy
  · exact h.child_lt hc
  · exact (h.lt_size_of_mem_ancestors hy).2

private theorem branch_eq_cons_descendants (h : d.Linked) (x : Nat) :
    d.branch d.size x = x :: d.descendants x := by
  rw [h.branch_eq, h.descendants_eq_flatMap_branch]

/-- Tree order: each child is followed by its own descendants. -/
theorem descendants_eq (h : d.Linked) (x : Nat) :
    d.descendants x = (d.children x).flatMap fun c => c :: d.descendants c := by
  rw [h.descendants_eq_flatMap_branch]
  exact List.flatMap_congr fun c _ => h.branch_eq_cons_descendants c

theorem nodup_cons_descendants (h : d.Linked) (x : Nat) : (x :: d.descendants x).Nodup :=
  h.branch_eq_cons_descendants x ▸ h.nodup_branch x

theorem mem_descendants_iff (h : d.Linked) {x y : Nat} :
    y ∈ d.descendants x ↔ x ∈ d.ancestors y := by
  have hbranch := h.mem_branch (x := x) (y := y)
  rw [h.branch_eq_cons_descendants, List.mem_cons] at hbranch
  constructor
  · intro hy
    rcases hbranch.1 (.inr hy) with rfl | hx
    · exact absurd hy (List.nodup_cons.1 (h.nodup_cons_descendants y)).1
    · exact hx
  · intro hx
    rcases hbranch.2 (.inr hx) with rfl | hy
    · exact absurd hx (h.not_mem_ancestors_self y)
    · exact hy

theorem nodup_order (h : d.Linked) : d.order.Nodup := h.nodup_cons_descendants root

theorem mem_order_iff (h : d.Linked) {x : Nat} : x ∈ d.order ↔ x = root ∨ root ∈ d.ancestors x := by
  rw [order, List.mem_cons, h.mem_descendants_iff]

theorem root_mem_order : root ∈ d.order := List.mem_cons_self

theorem mem_order_of_mem_descendants (h : d.Linked) {x y : Nat} (hx : x ∈ d.order)
    (hy : y ∈ d.descendants x) : y ∈ d.order := by
  rw [h.mem_order_iff] at *
  rw [h.mem_descendants_iff] at hy
  rcases hx with rfl | hx
  · exact .inr hy
  · exact .inr (h.ancestors_trans hx hy)

theorem lt_size_of_mem_order (h : d.Linked) {x : Nat} (hx : x ∈ d.order) : x < d.size := by
  rcases h.mem_order_iff.1 hx with rfl | hx
  · exact h.root_lt
  · exact (h.lt_size_of_mem_ancestors hx).2

/-- What is below a node that is below another one is listed there in one piece. -/
theorem branch_contiguous (h : d.Linked) {x y : Nat} (hx : x = y ∨ x ∈ d.descendants y) :
    (x :: d.descendants x) <:+: (y :: d.descendants y) := by
  induction y using h.wellFounded_children.induction with
  | _ y ih =>
    rcases hx with rfl | hx
    · exact List.infix_rfl
    · rw [h.descendants_eq y] at hx ⊢
      obtain ⟨c, hc, hx⟩ := List.mem_flatMap.1 hx
      have hbelow := ih c hc (List.mem_cons.1 hx)
      have hpart := List.infix_of_mem_flatten
        (List.mem_map_of_mem (f := fun c => c :: d.descendants c) hc)
      exact (hbelow.trans hpart).trans (List.suffix_cons y _).isInfix

theorem branch_contiguous_order (h : d.Linked) {x : Nat} (hx : x ∈ d.order) :
    (x :: d.descendants x) <:+: d.order := h.branch_contiguous (List.mem_cons.1 hx)

theorem descendants_sublist_order (h : d.Linked) {x : Nat} (hx : x ∈ d.order) :
    (d.descendants x).Sublist d.order :=
  (List.sublist_cons_self x _).trans (h.branch_contiguous_order hx).sublist

theorem length_children_le (h : d.Linked) (p : Nat) : (d.children p).length ≤ d.size :=
  nodup_length_le (h.nodup_children p) fun _ hc => h.child_lt hc

theorem follows_previous (h : d.Linked) {p : Nat} {before after : List Nat}
    (hsplit : d.children p = before ++ after) :
    Follows d.previous? before.getLast? before.reverse := by
  induction before using List.reverseRecOn generalizing after with
  | nil => exact .stop
  | append_singleton before x ih =>
    rw [List.append_assoc, List.singleton_append] at hsplit
    rw [List.getLast?_concat, List.reverse_concat]
    refine .next ?_
    rw [h.previous_eq hsplit]
    exact ih hsplit

theorem precedingSiblings_eq (h : d.Linked) {p c : Nat} {before after : List Nat}
    (hsplit : d.children p = before ++ c :: after) : d.precedingSiblings c = before.reverse := by
  have hlength := h.length_children_le p
  rw [hsplit, List.length_append] at hlength
  rw [precedingSiblings, h.previous_eq hsplit]
  exact (h.follows_previous hsplit).follow_eq (by rw [List.length_reverse]; omega)

theorem precedingSiblings_of_none (h : d.Linked) {c : Nat} (hc : d.parent? c = none) :
    d.precedingSiblings c = [] := by
  rw [precedingSiblings, (h.without_parent hc).1]
  exact Follows.stop.follow_eq (Nat.zero_le _)

end Linked

end CssLocator.Document
