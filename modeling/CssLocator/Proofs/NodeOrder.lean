import CssLocator.Proofs.TreeOrder
import CssLocator.XPathValues
import Mathlib.Data.List.Sort

/-!
# Document order of node-sets

Sorting a list of attached nodes keeps the same nodes and puts them into strict document order. A
list in strict document order is determined by its members.
-/

namespace CssLocator

@[simp] theorem Text.before_irrefl (s : Text) : Text.before s s = false := by
  induction s with
  | nil => rfl
  | cons c s ih => simpa [Text.before] using ih

theorem Text.before_asymm {s t : Text} (h : Text.before s t) : Text.before t s = false := by
  cases h' : Text.before t s with
  | false => rfl
  | true =>
    have := Text.before_trans h h'
    simp at this

variable {α : Type}

private theorem eraseRepsBy_loop (r : α → α → Bool) (a : α) (l acc : List α) :
    List.eraseRepsBy.loop r a l acc = acc.reverse ++ List.eraseRepsBy.loop r a l [] := by
  induction l generalizing a acc with
  | nil => simp [List.eraseRepsBy.loop]
  | cons b l ih =>
    unfold List.eraseRepsBy.loop
    cases r a b with
    | true => exact ih a acc
    | false =>
      dsimp only
      rw [ih b (a :: acc), ih b [a]]
      simp

theorem eraseReps_cons_cons [BEq α] (a b : α) (l : List α) :
    (a :: b :: l).eraseReps = if a == b then (a :: l).eraseReps else a :: (b :: l).eraseReps := by
  show List.eraseRepsBy.loop (· == ·) a (b :: l) [] = _
  unfold List.eraseRepsBy.loop
  cases hab : a == b with
  | true => rfl
  | false => exact eraseRepsBy_loop _ b l [a]

variable [BEq α] [LawfulBEq α]

private theorem mem_eraseReps_cons {x a : α} {l : List α} : x ∈ (a :: l).eraseReps ↔ x ∈ a :: l := by
  induction l generalizing a with
  | nil => rfl
  | cons b l ih =>
    rw [eraseReps_cons_cons]
    by_cases hab : a = b
    · subst hab
      rw [if_pos (beq_self_eq_true a), ih]
      simp
    · rw [if_neg (by simpa using hab), List.mem_cons, ih, List.mem_cons (b := a)]

@[simp] theorem mem_eraseReps {x : α} {l : List α} : x ∈ l.eraseReps ↔ x ∈ l := by
  cases l with
  | nil => rfl
  | cons a l => exact mem_eraseReps_cons

/-- In a sorted list equal entries are neighbours. -/
theorem pairwise_eraseReps {le : α → α → Prop} {l : List α} (h : l.Pairwise le)
    (hanti : ∀ a ∈ l, ∀ b ∈ l, le a b → le b a → a = b) :
    l.eraseReps.Pairwise fun a b => le a b ∧ a ≠ b := by
  cases l with
  | nil => exact .nil
  | cons a l =>
    induction l generalizing a with
    | nil => exact List.pairwise_singleton _ _
    | cons b l ih =>
      rw [eraseReps_cons_cons]
      obtain ⟨ha, hb⟩ := List.pairwise_cons.1 h
      by_cases hab : a = b
      · subst hab
        rw [if_pos (beq_self_eq_true a)]
        exact ih a hb fun x hx y hy => hanti x (List.mem_cons_of_mem a hx) y (List.mem_cons_of_mem a hy)
      · rw [if_neg (by simpa using hab), List.pairwise_cons]
        refine ⟨?_, ih b hb fun x hx y hy =>
          hanti x (List.mem_cons_of_mem a hx) y (List.mem_cons_of_mem a hy)⟩
        intro x hx
        rw [mem_eraseReps_cons] at hx
        refine ⟨ha x hx, ?_⟩
        rintro rfl
        have hba : b = a ∨ le b a :=
          (List.mem_cons.1 hx).imp Eq.symm fun hx => (List.pairwise_cons.1 hb).1 a hx
        rcases hba with rfl | hba
        · exact hab rfl
        · exact hab (hanti a List.mem_cons_self b (by simp) (ha b List.mem_cons_self) hba)

theorem pairwise_idxOf {l : List α} (hn : l.Nodup) :
    l.Pairwise fun a b => l.idxOf a < l.idxOf b := by
  rw [List.pairwise_iff_getElem]
  intro i j hi hj hij
  rwa [hn.idxOf_getElem i hi, hn.idxOf_getElem j hj]

omit [LawfulBEq α] in
/-- Lists in the order of another list are determined by their members. -/
theorem eq_of_pairwise_idxOf {l m whole : List α}
    (hl : l.Pairwise fun a b => whole.idxOf a < whole.idxOf b)
    (hm : m.Pairwise fun a b => whole.idxOf a < whole.idxOf b) (hmem : ∀ a, a ∈ l ↔ a ∈ m) :
    l = m := by
  have hne : ∀ {a b : α}, whole.idxOf a < whole.idxOf b → a ≠ b := by
    rintro a b hab rfl
    exact Nat.lt_irrefl _ hab
  have hperm : l.Perm m := (List.perm_ext_iff_of_nodup (hl.imp hne) (hm.imp hne)).2 hmem
  refine hperm.eq_of_pairwise ?_ hl hm
  intro a b _ _ hab hba
  omega

/-- Entries picked from a list without repetitions, in the order of the list. -/
theorem eq_of_sublist {l m whole : List α} (hn : whole.Nodup) (hl : l.Sublist whole)
    (hm : m.Sublist whole) (hmem : ∀ a, a ∈ l ↔ a ∈ m) : l = m :=
  eq_of_pairwise_idxOf ((pairwise_idxOf hn).sublist hl) ((pairwise_idxOf hn).sublist hm) hmem

namespace XPath.Node

variable {order : List Nat}

theorem notAfter_total (a b : Node) : notAfter order a b ∨ notAfter order b a := by
  unfold notAfter
  dsimp only
  rcases Nat.lt_trichotomy (order.idxOf a.id) (order.idxOf b.id) with h | h | h
  · exact .inl (by simp [h])
  · rw [h]
    cases a.attributeName? with
    | none => exact .inl (by simp)
    | some m =>
      cases b.attributeName? with
      | none => exact .inr (by simp)
      | some n =>
        cases hnm : Text.before n m with
        | false => exact .inl (by simp [hnm])
        | true => exact .inr (by simp [Text.before_asymm hnm])
  · exact .inr (by simp [h])

theorem notAfter_trans {a b c : Node} (hab : notAfter order a b) (hbc : notAfter order b c) :
    notAfter order a c := by
  unfold notAfter at *
  dsimp only at *
  simp only [Bool.or_eq_true, decide_eq_true_eq, Bool.and_eq_true, beq_iff_eq] at *
  rcases hab with hab | ⟨hab, hab'⟩
  · rcases hbc with hbc | ⟨hbc, -⟩
    · exact .inl (hab.trans hbc)
    · exact .inl (hbc ▸ hab)
  · rcases hbc with hbc | ⟨hbc, hbc'⟩
    · exact .inl (hab ▸ hbc)
    · refine .inr ⟨hab.trans hbc, ?_⟩
      cases ha : a.attributeName? with
      | none => rfl
      | some l =>
        cases hb : b.attributeName? with
        | none => simp [ha, hb] at hab'
        | some m =>
          cases hc : c.attributeName? with
          | none => simp [hb, hc] at hbc'
          | some n =>
            simp only [ha, hb, hc, Bool.not_eq_true'] at hab' hbc' ⊢
            cases hnl : Text.before n l with
            | false => rfl
            | true =>
              by_cases hmn : m = n
              · rw [hmn, hnl] at hab'
                cases hab'
              · have hmn' := Text.before_of_ne (Ne.symm hmn) hbc'
                rw [Text.before_trans hmn' hnl] at hab'
                cases hab'

theorem notAfter_antisymm {a b : Node} (ha : a.id ∈ order) (hab : notAfter order a b)
    (hba : notAfter order b a) : a = b := by
  unfold notAfter at *
  dsimp only at *
  simp only [Bool.or_eq_true, decide_eq_true_eq, Bool.and_eq_true, beq_iff_eq] at *
  have hidx : order.idxOf a.id = order.idxOf b.id := by omega
  have hid : a.id = b.id := (List.idxOf_inj ha).1 hidx
  have hab' := (hab.resolve_left (by omega)).2
  have hba' := (hba.resolve_left (by omega)).2
  cases a with
  | tree i =>
    cases b with
    | tree j => simpa [id] using hid
    | attributeOf j n => simp [attributeName?] at hba'
  | attributeOf i m =>
    cases b with
    | tree j => simp [attributeName?] at hab'
    | attributeOf j n =>
      simp only [attributeName?, Bool.not_eq_true'] at hab' hba'
      by_cases hmn : m = n
      · simpa [id, hmn] using hid
      · rw [Text.before_of_ne hmn hba'] at hab'
        cases hab'

@[simp] theorem mem_insert {n m : Node} {l : List Node} : n ∈ insert order m l ↔ n = m ∨ n ∈ l := by
  induction l with
  | nil => simp [insert]
  | cons x l ih =>
    unfold insert
    split
    · simp
    · rw [List.mem_cons, ih, List.mem_cons]
      tauto

private theorem pairwise_insert {n : Node} {l : List Node} (h : l.Pairwise (notAfter order · ·)) :
    (insert order n l).Pairwise (notAfter order · ·) := by
  induction l with
  | nil => exact List.pairwise_singleton _ _
  | cons x l ih =>
    obtain ⟨hx, hl⟩ := List.pairwise_cons.1 h
    unfold insert
    split
    · rename_i hnx
      refine List.pairwise_cons.2 ⟨?_, h⟩
      intro y hy
      rcases List.mem_cons.1 hy with rfl | hy
      · exact hnx
      · exact notAfter_trans hnx (hx y hy)
    · rename_i hnx
      refine List.pairwise_cons.2 ⟨?_, ih hl⟩
      intro y hy
      rcases mem_insert.1 hy with rfl | hy
      · exact (notAfter_total y x).resolve_left hnx
      · exact hx y hy

@[simp] theorem mem_foldr_insert {n : Node} {l : List Node} :
    n ∈ l.foldr (insert order) [] ↔ n ∈ l := by
  induction l with
  | nil => rfl
  | cons x l ih => simp [ih]

theorem pairwise_foldr_insert (l : List Node) :
    (l.foldr (insert order) []).Pairwise (notAfter order · ·) := by
  induction l with
  | nil => exact .nil
  | cons x l ih => exact pairwise_insert ih

@[simp] theorem mem_sort {n : Node} {l : List Node} : n ∈ sort order l ↔ n ∈ l := by
  simp [sort]

/-- The first node stands before the second one in document order. -/
def Precedes (order : List Nat) (a b : Node) : Prop := notAfter order a b ∧ a ≠ b

theorem pairwise_sort {l : List Node} (hl : ∀ n ∈ l, n.id ∈ order) :
    (sort order l).Pairwise (Precedes order) := by
  refine pairwise_eraseReps (pairwise_foldr_insert l) ?_
  intro a ha b _ hab hba
  exact notAfter_antisymm (hl a (mem_foldr_insert.1 ha)) hab hba

theorem eq_of_pairwise {l m : List Node} (hl : ∀ n ∈ l, n.id ∈ order)
    (h : l.Pairwise (Precedes order)) (h' : m.Pairwise (Precedes order))
    (hmem : ∀ n, n ∈ l ↔ n ∈ m) : l = m := by
  have hperm : l.Perm m :=
    (List.perm_ext_iff_of_nodup (h.imp And.right) (h'.imp And.right)).2 hmem
  exact hperm.eq_of_pairwise (fun a b ha _ hab hba => notAfter_antisymm (hl a ha) hab.1 hba.1) h h'

/-- A list that is in document order already is left as it is. -/
theorem sort_eq_self {l : List Node} (hl : ∀ n ∈ l, n.id ∈ order)
    (h : l.Pairwise (Precedes order)) : sort order l = l :=
  (eq_of_pairwise hl h (pairwise_sort hl) fun _ => mem_sort.symm).symm

private theorem precedes_tree (hn : order.Nodup) {l : List Nat} (hl : l.Sublist order) :
    (l.map tree).Pairwise (Precedes order) := by
  rw [List.pairwise_map]
  refine ((pairwise_idxOf hn).sublist hl).imp ?_
  intro a b hab
  refine ⟨by simp [notAfter, id, hab], ?_⟩
  rintro heq
  cases heq
  exact Nat.lt_irrefl _ hab

/-- Attached nodes of the tree, sorted: the part of the tree order that consists of them. -/
theorem sort_map_tree (hn : order.Nodup) {l : List Nat} (hl : ∀ x ∈ l, x ∈ order) :
    sort order (l.map tree) = (order.filter (l.contains ·)).map tree := by
  have hattached : ∀ n ∈ l.map tree, n.id ∈ order := by
    intro n hmem
    obtain ⟨x, hx, rfl⟩ := List.mem_map.1 hmem
    exact hl x hx
  refine eq_of_pairwise ?_ (pairwise_sort hattached) (precedes_tree hn List.filter_sublist) ?_
  · intro n hmem
    exact hattached n (mem_sort.1 hmem)
  · intro n
    rw [mem_sort]
    constructor
    · intro hmem
      obtain ⟨x, hx, rfl⟩ := List.mem_map.1 hmem
      exact List.mem_map_of_mem (List.mem_filter.2 ⟨hl x hx, by simpa using hx⟩)
    · intro hmem
      obtain ⟨x, hx, rfl⟩ := List.mem_map.1 hmem
      exact List.mem_map_of_mem (by simpa using (List.mem_filter.1 hx).2)

theorem sort_of_sublist (hn : order.Nodup) {l : List Nat} (hl : l.Sublist order) :
    sort order (l.map tree) = l.map tree :=
  sort_eq_self (by simpa [id] using fun x hx => hl.subset hx) (precedes_tree hn hl)

end XPath.Node

end CssLocator
