import CssLocator.Proofs.DocumentEdits
import CssLocator.Proofs.TreeOrder

/-!
# Walks through a tree

The walks upwards, sideways and downwards follow different links of a document. Whatever the
document was built by, they end, and they agree on what is above, beside and below a node and on the
order of the tree.
-/

namespace CssLocator.Document

variable {d : Document}

/-- The walks through a document end and agree with each other. -/
structure WalksAgree (d : Document) : Prop where
  up_ends : ∀ x, Follows d.parent? (d.parent? x) (d.ancestors x)
  before_ends : ∀ x, Follows d.previous? (d.previous? x) (d.precedingSiblings x)
  after_ends : ∀ x, Follows d.next? (d.next? x) (d.followingSiblings x)
  down_ends : ∀ x, Visits d (d.children x) (d.descendants x)
  mem_descendants : ∀ a x, x ∈ d.descendants a ↔ a ∈ d.ancestors x
  isDescendantOf_iff : ∀ a x, d.isDescendantOf x a ↔ a ∈ d.ancestors x
  nodup_descendants : ∀ a, (d.descendants a).Nodup
  /-- Pre-order: each child is followed by its own descendants. -/
  preorder : ∀ a, d.descendants a = (d.children a).flatMap fun c => c :: d.descendants c
  /-- The descendants are all that this rule determines. -/
  preorder_unique : ∀ f : Nat → List Nat, (∀ a, f a = (d.children a).flatMap fun c => c :: f c) →
    ∀ a, f a = d.descendants a
  siblings : ∀ x p, d.parent? x = some p →
    (d.precedingSiblings x).reverse ++ x :: d.followingSiblings x = d.children p
  alone : ∀ x, d.parent? x = none → d.precedingSiblings x = [] ∧ d.followingSiblings x = []
  rank_root : d.rank? root = some 0
  rank_below : ∀ i x, (d.descendants root)[i]? = some x → d.rank? x = some (1 + i)
  rank_outside : ∀ x, x ≠ root → x ∉ d.descendants root → d.rank? x = none

namespace Linked

private theorem follows_ancestors (h : d.Linked) (x : Nat) :
    Follows d.parent? (d.parent? x) (d.ancestors x) := by
  induction x using h.acyclic.induction with
  | _ x ih =>
    cases hp : d.parent? x with
    | none =>
      rw [ancestors_of_none hp]
      exact .stop
    | some p =>
      rw [h.ancestors_of_some hp]
      exact .next (ih p hp)

private theorem visits_descendants (h : d.Linked) (x : Nat) :
    Visits d (d.children x) (d.descendants x) := by
  rw [h.descendants_eq_flatMap_branch]
  exact visits_flatMap h.branch_eq (d.children x)

/-- The descendants are the only lists in which each child is followed by its own list. -/
theorem eq_descendants (h : d.Linked) {f : Nat → List Nat}
    (hf : ∀ a, f a = (d.children a).flatMap fun c => c :: f c) (a : Nat) : f a = d.descendants a := by
  induction a using h.wellFounded_children.induction with
  | _ a ih =>
    rw [hf, h.descendants_eq]
    exact List.flatMap_congr fun c hc => by rw [ih c hc]

private theorem follows_next (h : d.Linked) {p : Nat} {before after : List Nat}
    (hsplit : d.children p = before ++ after) : Follows d.next? after.head? after := by
  induction after generalizing before with
  | nil => exact .stop
  | cons x after ih =>
    have hsplit' : d.children p = (before ++ [x]) ++ after := by simpa using hsplit
    refine .next ?_
    rw [h.next_eq hsplit]
    exact ih hsplit'

private theorem followingSiblings_eq (h : d.Linked) {p c : Nat} {before after : List Nat}
    (hsplit : d.children p = before ++ c :: after) : d.followingSiblings c = after := by
  have hlength := h.length_children_le p
  rw [hsplit, List.length_append, List.length_cons] at hlength
  have hsplit' : d.children p = (before ++ [c]) ++ after := by simpa using hsplit
  rw [followingSiblings, h.next_eq hsplit]
  exact (h.follows_next hsplit').follow_eq (by omega)

theorem followingSiblings_of_none (h : d.Linked) {c : Nat} (hc : d.parent? c = none) :
    d.followingSiblings c = [] := by
  rw [followingSiblings, (h.without_parent hc).2]
  exact Follows.stop.follow_eq (Nat.zero_le _)

private theorem follows_siblings (h : d.Linked) (x : Nat) :
    Follows d.previous? (d.previous? x) (d.precedingSiblings x) ∧
      Follows d.next? (d.next? x) (d.followingSiblings x) := by
  cases hp : d.parent? x with
  | none =>
    obtain ⟨hprevious, hnext⟩ := h.without_parent hp
    rw [h.precedingSiblings_of_none hp, h.followingSiblings_of_none hp, hprevious, hnext]
    exact ⟨.stop, .stop⟩
  | some p =>
    obtain ⟨before, after, hsplit⟩ := List.append_of_mem (h.mem_children.2 hp)
    have hsplit' : d.children p = (before ++ [x]) ++ after := by simpa using hsplit
    rw [h.precedingSiblings_eq hsplit, h.followingSiblings_eq hsplit, h.previous_eq hsplit,
      h.next_eq hsplit]
    exact ⟨h.follows_previous hsplit, h.follows_next hsplit'⟩

theorem siblings_eq_children (h : d.Linked) {x p : Nat} (hp : d.parent? x = some p) :
    (d.precedingSiblings x).reverse ++ x :: d.followingSiblings x = d.children p := by
  obtain ⟨before, after, hsplit⟩ := List.append_of_mem (h.mem_children.2 hp)
  rw [h.precedingSiblings_eq hsplit, h.followingSiblings_eq hsplit, List.reverse_reverse, hsplit]

theorem rank?_of_getElem? (h : d.Linked) {i x : Nat} (hx : d.order[i]? = some x) :
    d.rank? x = some i := by
  obtain ⟨hi, rfl⟩ := List.getElem?_eq_some_iff.1 hx
  rw [rank?_of_mem_order (List.getElem_mem hi), h.nodup_order.idxOf_getElem i hi]

private theorem walksAgree (h : d.Linked) : d.WalksAgree where
  up_ends := h.follows_ancestors
  before_ends x := (h.follows_siblings x).1
  after_ends x := (h.follows_siblings x).2
  down_ends := h.visits_descendants
  mem_descendants _ _ := h.mem_descendants_iff
  isDescendantOf_iff a x := by rw [isDescendantOf, List.contains_iff_mem]
  nodup_descendants a := (List.nodup_cons.1 (h.nodup_cons_descendants a)).2
  preorder := h.descendants_eq
  preorder_unique _ := h.eq_descendants
  siblings _ _ := h.siblings_eq_children
  alone _ hx := ⟨h.precedingSiblings_of_none hx, h.followingSiblings_of_none hx⟩
  rank_root := h.rank?_of_getElem? (i := 0) rfl
  rank_below i x hx := h.rank?_of_getElem? (by simpa [order, Nat.add_comm 1 i] using hx)
  rank_outside x hroot hx := by
    rw [rank?, List.idxOf?_eq_none_iff, order, List.mem_cons, not_or]
    exact ⟨hroot, hx⟩

end Linked

/-- Whatever nodes are stored and attached, in whatever order: the walks through the document end
and agree. -/
theorem walks_agree_of_edits (edits : List Edit) (h : Edit.AdmissibleAll edits .empty) :
    (Edit.applyAll edits .empty).WalksAgree :=
  (Built.empty.applyAll h).linked.walksAgree

theorem walks_agree_of_edits_detached : Edit.AdmissibleAll detachedFirst .empty ∧
    (Edit.applyAll detachedFirst .empty).WalksAgree := by
  have hadmissible : Edit.AdmissibleAll detachedFirst .empty := by decide +kernel
  exact ⟨hadmissible, walks_agree_of_edits detachedFirst hadmissible⟩

/-- The order of the tree is not the order in which its nodes were stored. -/
example : ((List.range 9).map (Edit.applyAll detachedFirst .empty).rank?) =
    [some 0, some 2, some 3, none, some 4, none, some 5, some 1, some 6] := by decide +kernel

end CssLocator.Document
