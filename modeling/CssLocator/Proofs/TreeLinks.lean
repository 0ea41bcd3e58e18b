import CssLocator.Documents
import Mathlib.Data.List.Nodup
import Mathlib.Data.List.Perm.Subperm
import Mathlib.Logic.Relation
import Mathlib.Order.WellFounded

/-!
# Consistent links

The links of a document are consistent if parents and children name each other, siblings follow
each other in the order of their parent's children, and parent links close no cycle. The walks that
follow links are bounded by the number of nodes; for consistent links the bound is never reached.
-/

namespace CssLocator.Document

variable {d : Document}

/-- The first node is the parent of the second one. -/
def IsParent (d : Document) (p c : Nat) : Prop := d.parent? c = some p

structure Linked (d : Document) : Prop where
  root_lt : root < d.size
  mem_children : ∀ {p c}, c ∈ d.children p ↔ d.parent? c = some p
  nodup_children : ∀ p, (d.children p).Nodup
  acyclic : WellFounded d.IsParent
  previous_eq : ∀ {p c before after}, d.children p = before ++ c :: after →
    d.previous? c = before.getLast?
  next_eq : ∀ {p c before after}, d.children p = before ++ c :: after → d.next? c = after.head?
  without_parent : ∀ {c}, d.parent? c = none → d.previous? c = none ∧ d.next? c = none

theorem lt_size_of_parent? {c p : Nat} (h : d.parent? c = some p) : c < d.size := by
  unfold parent? node? at h
  cases hc : d.nodes[c]? with
  | none => simp [hc] at h
  | some n => exact (Array.getElem?_eq_some_iff.1 hc).1

private theorem lt_size_of_mem_children {c p : Nat} (h : c ∈ d.children p) : p < d.size := by
  unfold children node? at h
  cases hp : d.nodes[p]? with
  | none => simp [hp] at h
  | some n => exact (Array.getElem?_eq_some_iff.1 hp).1

theorem nodup_length_le {l : List Nat} {n : Nat} (h : l.Nodup) (hl : ∀ x ∈ l, x < n) :
    l.length ≤ n := by
  have hsub : l ⊆ List.range n := fun x hx => List.mem_range.2 (hl x hx)
  simpa using (List.subperm_of_subset h hsub).length_le

namespace Linked

private theorem irrefl (h : d.Linked) (x : Nat) : ¬ Relation.TransGen d.IsParent x x :=
  h.acyclic.transGen.irrefl.irrefl x

theorem parent_lt (h : d.Linked) {c p : Nat} (hp : d.parent? c = some p) : p < d.size :=
  lt_size_of_mem_children (h.mem_children.2 hp)

theorem child_lt (h : d.Linked) {c p : Nat} (hc : c ∈ d.children p) : c < d.size :=
  lt_size_of_parent? (h.mem_children.1 hc)

/-- One more round makes no difference once the nodes met so far leave no other node to meet. -/
theorem follow_parent_succ (h : d.Linked) (n : Nat) (start : Option Nat) (seen : List Nat)
    (hseen : seen.Nodup) (hlt : ∀ z ∈ seen, z < d.size)
    (habove : ∀ y ∈ start, y < d.size ∧ ∀ z ∈ seen, Relation.TransGen d.IsParent y z)
    (hn : d.size ≤ seen.length + n) :
    follow d.parent? (n + 1) start = follow d.parent? n start := by
  induction n generalizing start seen with
  | zero =>
    cases start with
    | none => rfl
    | some y =>
      obtain ⟨hy, habove⟩ := habove y rfl
      have hfresh : y ∉ seen := fun hmem => h.irrefl y (habove y hmem)
      have := nodup_length_le (List.nodup_cons.2 ⟨hfresh, hseen⟩)
        (by simpa [List.forall_mem_cons] using ⟨hy, hlt⟩)
      simp only [List.length_cons] at this
      omega
  | succ n ih =>
    cases start with
    | none => rfl
    | some y =>
      obtain ⟨hy, habove⟩ := habove y rfl
      have hfresh : y ∉ seen := fun hmem => h.irrefl y (habove y hmem)
      have hrest := ih (d.parent? y) (y :: seen)
        (List.nodup_cons.2 ⟨hfresh, hseen⟩) (by simpa [List.forall_mem_cons] using ⟨hy, hlt⟩)
        (by
          intro p hp
          refine ⟨h.parent_lt hp, ?_⟩
          intro z hz
          rcases List.mem_cons.1 hz with rfl | hz
          · exact .single hp
          · exact .head hp (habove z hz))
        (by simp only [List.length_cons]; omega)
      simp only [follow, List.cons.injEq, true_and]
      exact hrest

theorem ancestors_of_none {x : Nat} (hx : d.parent? x = none) : d.ancestors x = [] := by
  unfold ancestors
  rw [hx]
  cases d.size <;> rfl

theorem ancestors_of_some (h : d.Linked) {x p : Nat} (hp : d.parent? x = some p) :
    d.ancestors x = p :: d.ancestors p := by
  have hx := lt_size_of_parent? hp
  obtain ⟨n, hn⟩ : ∃ n, d.size = n + 1 := ⟨d.size - 1, by omega⟩
  have hrest := h.follow_parent_succ n (d.parent? p) [p]
    (List.nodup_singleton p) (by simpa using h.parent_lt hp)
    (by
      intro q hq
      refine ⟨h.parent_lt hq, ?_⟩
      intro z hz
      rw [List.mem_singleton.1 hz]
      exact .single hq)
    (by simp only [List.length_singleton]; omega)
  unfold ancestors
  rw [hp, hn]
  simp only [follow, List.cons.injEq, true_and]
  exact hrest.symm

theorem mem_ancestors (h : d.Linked) {a x : Nat} :
    a ∈ d.ancestors x ↔ ∃ p, d.parent? x = some p ∧ (a = p ∨ a ∈ d.ancestors p) := by
  cases hp : d.parent? x with
  | none => simp [ancestors_of_none hp]
  | some p => simp [h.ancestors_of_some hp]

/-- The ancestors of a node are the nodes from which parent links lead down to it. -/
theorem mem_ancestors_iff (h : d.Linked) {a x : Nat} :
    a ∈ d.ancestors x ↔ Relation.TransGen d.IsParent a x := by
  induction x using h.acyclic.induction with
  | _ x ih =>
    rw [h.mem_ancestors, Relation.TransGen.tail'_iff]
    constructor
    · rintro ⟨p, hp, rfl | ha⟩
      · exact ⟨a, .refl, hp⟩
      · exact ⟨p, ((ih p hp).1 ha).to_reflTransGen, hp⟩
    · rintro ⟨p, ha, hp⟩
      refine ⟨p, hp, ?_⟩
      rcases Relation.reflTransGen_iff_eq_or_transGen.1 ha with rfl | ha
      · exact .inl rfl
      · exact .inr ((ih p hp).2 ha)

theorem exists_child_of_mem_ancestors (h : d.Linked) {a x : Nat} (ha : a ∈ d.ancestors x) :
    ∃ c, d.parent? c = some a := by
  obtain ⟨c, hc, -⟩ := Relation.TransGen.head'_iff.1 (h.mem_ancestors_iff.1 ha)
  exact ⟨c, hc⟩

theorem ancestors_trans (h : d.Linked) {a b c : Nat} (hab : a ∈ d.ancestors b)
    (hbc : b ∈ d.ancestors c) : a ∈ d.ancestors c := by
  rw [h.mem_ancestors_iff] at *
  exact hab.trans hbc

theorem not_mem_ancestors_self (h : d.Linked) (x : Nat) : x ∉ d.ancestors x := by
  rw [h.mem_ancestors_iff]
  exact h.irrefl x

theorem nodup_ancestors (h : d.Linked) (x : Nat) : (d.ancestors x).Nodup := by
  induction x using h.acyclic.induction with
  | _ x ih =>
    cases hp : d.parent? x with
    | none => simp [ancestors_of_none hp]
    | some p =>
      rw [h.ancestors_of_some hp, List.nodup_cons]
      exact ⟨h.not_mem_ancestors_self p, ih p hp⟩

theorem lt_size_of_mem_ancestors (h : d.Linked) {a x : Nat} (ha : a ∈ d.ancestors x) :
    a < d.size ∧ x < d.size := by
  induction x using h.acyclic.induction with
  | _ x ih =>
    obtain ⟨p, hp, rfl | ha⟩ := h.mem_ancestors.1 ha
    · exact ⟨h.parent_lt hp, lt_size_of_parent? hp⟩
    · exact ⟨(ih p hp ha).1, lt_size_of_parent? hp⟩

/-- The number of nodes above a node. -/
theorem length_ancestors_lt (h : d.Linked) (x : Nat) : (d.ancestors x).length < d.size := by
  cases hp : d.parent? x with
  | none => exact ancestors_of_none hp ▸ h.root_lt
  | some p =>
    have hx := lt_size_of_parent? hp
    have hnodup := List.nodup_cons.2 ⟨h.not_mem_ancestors_self x, h.nodup_ancestors x⟩
    have := nodup_length_le hnodup (n := d.size) (by
      intro z hz
      rcases List.mem_cons.1 hz with rfl | hz
      · exact hx
      · exact (h.lt_size_of_mem_ancestors hz).1)
    simp only [List.length_cons] at this
    omega

theorem wellFounded_children (h : d.Linked) : WellFounded fun c p => c ∈ d.children p := by
  refine Subrelation.wf ?_ (measure fun x => d.size - (d.ancestors x).length).wf
  intro c p hc
  have hlength := congrArg List.length (h.ancestors_of_some (h.mem_children.1 hc))
  have := h.length_ancestors_lt c
  simp only [List.length_cons] at hlength
  show d.size - (d.ancestors c).length < d.size - (d.ancestors p).length
  omega

end Linked

end CssLocator.Document
