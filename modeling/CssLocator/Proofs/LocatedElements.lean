import CssLocator.Proofs.DescribedDocuments
import CssLocator.Proofs.LoopResults
import CssLocator.Proofs.TreeNavigation
import Mathlib.Data.List.Induction

/-!
# Located elements

One step of a plan without its filters. If the locator of the step finds the elements that pass a
test, the step finds those of them that its combinator relates to a candidate. Candidates in tree
order lead to elements in tree order, although overlapping branches are searched one by one.
-/

namespace CssLocator

section

variable {α β : Type} [BEq α] [LawfulBEq α] {R : α → α → Prop}

theorem eraseDups_of_nodup {l : List α} (h : l.Nodup) : l.eraseDups = l := by
  induction l with
  | nil => rfl
  | cons a l ih =>
    obtain ⟨ha, hl⟩ := List.nodup_cons.1 h
    have hfilter : l.filter (fun b => !b == a) = l := by
      apply List.filter_eq_self.2
      intro b hb
      have hne : b ≠ a := fun heq => ha (heq ▸ hb)
      simpa using hne
    rw [List.eraseDups_cons, hfilter, ih hl]

@[simp] theorem mem_removeAll {l m : List α} {a : α} : a ∈ l.removeAll m ↔ a ∈ l ∧ a ∉ m := by
  simp [List.removeAll]

/-- Sorted pieces make a sorted list without repetitions if whatever a piece adds to an earlier one
is behind it. -/
theorem pairwise_eraseDups_flatMap {f : β → List α} {l : List β} (hirrefl : ∀ a, ¬ R a a)
    (hpieces : ∀ x ∈ l, (f x).Pairwise R)
    (hlater : l.Pairwise fun x y => ∀ a ∈ f x, ∀ b ∈ f y, b ∉ f x → R a b) :
    (l.flatMap f).eraseDups.Pairwise R := by
  induction l using List.reverseRecOn with
  | nil => exact .nil
  | append_singleton l x ih =>
    obtain ⟨hbefore, -, hcross⟩ := List.pairwise_append.1 hlater
    have hx : (f x).Pairwise R := hpieces x (by simp)
    have hnew : ((f x).removeAll (l.flatMap f)).Pairwise R := hx.filter _
    have hnodup : ((f x).removeAll (l.flatMap f)).Nodup := by
      apply hnew.imp
      rintro a b hab rfl
      exact hirrefl a hab
    rw [List.flatMap_append, List.flatMap_singleton, List.eraseDups_append, eraseDups_of_nodup hnodup,
      List.pairwise_append]
    refine ⟨ih (fun y hy => hpieces y (List.mem_append_left _ hy)) hbefore, hnew, ?_⟩
    intro a ha b hb
    rw [List.mem_eraseDups] at ha
    obtain ⟨y, hy, ha⟩ := List.mem_flatMap.1 ha
    obtain ⟨hb, hfresh⟩ := mem_removeAll.1 hb
    apply hcross y hy x (List.mem_singleton_self x) a ha b hb
    intro hby
    exact hfresh (List.mem_flatMap.2 ⟨y, hy, hby⟩)

end

namespace Document

variable {d : Document} {x y a b : Nat}

/-- The root is no element. Of a document that was edited no more is known: its root may have a parent. -/
structure Rooted (d : Document) : Prop where
  linked : d.Linked
  not_isElement_root : d.isElement root = false

theorem Grown.rooted (h : d.Grown) : d.Rooted := ⟨h.linked, h.not_isElement_root⟩

theorem Built.rooted (h : d.Built) : d.Rooted := by
  have hkind : d.kind? root = some .document := by
    induction h with
    | empty => rfl
    | @allocate d kind h ih =>
      rw [kind?, node?_allocate, if_neg (Nat.ne_of_lt h.linked.root_lt)]
      exact ih
    | appendChild _ _ _ _ _ _ ih => exact (kind?_appendChild _).trans ih
  exact ⟨h.linked, by simp [isElement, element?, hkind]⟩

/-- The parent is attached, if it is an element. -/
def Settled (d : Document) (x : Nat) : Prop := ∀ p, d.parentElement? x = some p → p ∈ d.order

/-- Of the attached nodes only the root can have a parent that is not attached. -/
theorem Rooted.settled (h : d.Rooted) (hx : x ∈ d.order) (helement : d.isElement x) : d.Settled x := by
  intro p hp
  have hparent := (parentElement?_eq_some.1 hp).1
  rcases h.linked.mem_order_iff.1 hx with rfl | hx
  · rw [h.not_isElement_root] at helement
    cases helement
  · rw [h.linked.ancestors_of_some hparent, List.mem_cons] at hx
    exact h.linked.mem_order_iff.2 (hx.imp_left Eq.symm)

private theorem Linked.idxOf_lt_of_mem_descendants (h : d.Linked) (hx : x ∈ d.order)
    (hy : y ∈ d.descendants x) : d.order.idxOf x < d.order.idxOf y := by
  have hbranch := (pairwise_idxOf h.nodup_order).sublist (h.branch_contiguous_order hx).sublist
  exact (List.pairwise_cons.1 hbranch).1 y hy

/-- What is below a node and not below an earlier one is behind everything below the earlier one. -/
theorem Linked.idxOf_lt_of_not_mem_descendants (h : d.Linked) (hx : x ∈ d.order) (hy : y ∈ d.order)
    (hxy : d.order.idxOf x < d.order.idxOf y) (ha : a ∈ d.descendants x) (hb : b ∈ d.descendants y)
    (hnot : b ∉ d.descendants x) : d.order.idxOf a < d.order.idxOf b := by
  have hyb := h.idxOf_lt_of_mem_descendants hy hb
  obtain ⟨before, after, hsplit⟩ := h.branch_contiguous_order hx
  have hpairwise := (congrArg (List.Pairwise fun a b => d.order.idxOf a < d.order.idxOf b) hsplit).mpr
    (pairwise_idxOf h.nodup_order)
  obtain ⟨hfront, -, hback⟩ := List.pairwise_append.1 hpairwise
  have hattached : b ∈ d.order := h.mem_order_of_mem_descendants hy hb
  rw [← hsplit, List.mem_append, List.mem_append, List.mem_cons] at hattached
  rcases hattached with (hbefore | rfl | hbelow) | hafter
  · have hbx := (List.pairwise_append.1 hfront).2.2 b hbefore x List.mem_cons_self
    omega
  · omega
  · exact absurd hbelow hnot
  · exact hback a (List.mem_append_right _ (List.mem_cons_of_mem x ha)) b hafter

/-- The nodes that a combinator relates to a node, as far as they are elements. -/
def reach (d : Document) : Combinator → Nat → List Nat
  | .descendant, x => d.descendants x
  | .child, x => d.elementChildren x
  | .nextSibling, x => (d.laterSiblings x).take 1
  | .subsequentSibling, x => d.laterSiblings x

theorem mem_reach (h : d.Linked) (hy : d.isElement y) {combinator : Combinator} :
    y ∈ d.reach combinator x ↔ d.Related combinator x y := by
  cases combinator with
  | descendant => exact Iff.rfl
  | child =>
    show y ∈ d.elementChildren x ↔ d.parent? y = some x
    rw [mem_elementChildren h]
    exact ⟨And.left, fun hparent => ⟨hparent, hy⟩⟩
  | nextSibling => exact mem_take_laterSiblings h
  | subsequentSibling => exact mem_laterSiblings h

/-- The attached nodes that pass a test and that a combinator relates to a candidate. -/
def located (d : Document) (test : Nat → Bool) (combinator : Combinator) (candidates : List Nat) :
    List Nat :=
  d.order.filter fun y => test y && candidates.any fun x => (d.reach combinator x).contains y

@[simp] theorem mem_located {test : Nat → Bool} {combinator : Combinator} {candidates : List Nat} :
    y ∈ d.located test combinator candidates ↔
      y ∈ d.order ∧ test y ∧ ∃ x ∈ candidates, y ∈ d.reach combinator x := by
  simp [located]

/-- The branches below the candidates, searched one by one. -/
theorem eraseDups_descendants (h : d.Linked) {candidates : List Nat}
    (hc : candidates.Sublist d.order) (test : Nat → Bool) :
    (candidates.flatMap fun x => (d.descendants x).filter test).eraseDups =
      d.located test .descendant candidates := by
  have horder := pairwise_idxOf h.nodup_order
  have hsorted : (candidates.flatMap fun x => (d.descendants x).filter test).eraseDups.Pairwise
      fun a b => d.order.idxOf a < d.order.idxOf b := by
    apply pairwise_eraseDups_flatMap
    · exact fun a => Nat.lt_irrefl _
    · intro x hx
      exact (horder.sublist (h.descendants_sublist_order (hc.subset hx))).filter test
    · refine (horder.sublist hc).imp_of_mem ?_
      intro x y hx hy hxy a ha b hb hnot
      obtain ⟨ha, -⟩ := List.mem_filter.1 ha
      obtain ⟨hb, htest⟩ := List.mem_filter.1 hb
      have hnot : b ∉ d.descendants x := fun hmem => hnot (List.mem_filter.2 ⟨hmem, htest⟩)
      exact h.idxOf_lt_of_not_mem_descendants (hc.subset hx) (hc.subset hy) hxy ha hb hnot
  have hlocated : (d.located test .descendant candidates).Pairwise
      fun a b => d.order.idxOf a < d.order.idxOf b := horder.filter _
  apply eq_of_pairwise_idxOf hsorted hlocated
  intro y
  rw [List.mem_eraseDups, List.mem_flatMap, mem_located]
  constructor
  · rintro ⟨x, hx, hy⟩
    obtain ⟨hy, htest⟩ := List.mem_filter.1 hy
    exact ⟨h.mem_order_of_mem_descendants (hc.subset hx) hy, htest, x, hx, hy⟩
  · rintro ⟨-, htest, x, hx, hy⟩
    exact ⟨x, hx, List.mem_filter.2 ⟨hy, htest⟩⟩

private theorem filter_filter_located {test : Nat → Bool} (hroot : test root = false)
    (combinator : Combinator) (candidates : List Nat) :
    ((d.descendants root).filter test).filter
        ((candidates.flatMap (d.reach combinator)).contains ·) =
      d.located test combinator candidates := by
  rw [located, order, List.filter_cons_of_neg (by simp [hroot]), List.filter_filter]
  apply List.filter_congr
  intro y _
  rw [Bool.and_comm, Bool.eq_iff_iff]
  simp

end Document

open Plan

namespace TreeEngine

variable {t : TreeEngine} {test : Nat → Bool} {candidates : List Nat}

/-- Asked from an attached node, the locator finds what is below it and passes the test. -/
def FindsBelow (t : TreeEngine) (l : Locator) (test : Nat → Bool) : Prop :=
  ∀ c ∈ t.document.order, t.findAll c l = .ok ((t.document.descendants c).filter test)

variable {m : Type → Type} [Monad m] [LawfulMonad m]

private theorem locateAmong_toEngine {l : Locator} (hfinds : t.FindsBelow l.widened test)
    (hroot : test Document.root = false) {reach : Nat → ExceptT EngineError m (List Nat)}
    (combinator : Combinator)
    (hreach : ∀ x ∈ candidates, reach x = pure (t.document.reach combinator x)) :
    locateAmong t.toEngine reach candidates l =
      pure (t.document.located test combinator candidates) := by
  have hfound := findAll_toEngine (m := m) (hfinds Document.root Document.Linked.root_mem_order)
  unfold locateAmong
  rw [Loop.flatMap_eq_pure hreach, pure_bind, ← Document.filter_filter_located hroot]
  cases hreached : candidates.flatMap (t.document.reach combinator) with
  | nil =>
    have hnone : ((t.document.descendants Document.root).filter test).filter
        (([] : List Nat).contains ·) = [] := List.filter_eq_nil_iff.2 fun _ _ => nofun
    rw [hnone]
    rfl
  | cons y ys =>
    show (t.toEngine : Engine m Nat).findAll Document.root l.widened >>= _ = _
    rw [hfound, pure_bind]

/-- A step without its filters, from candidates in tree order. -/
theorem locate_toEngine (h : t.document.Linked) {l : Locator} {combinator : Combinator}
    (hfinds : t.FindsBelow l.widened test) (hroot : test Document.root = false)
    (hwidened : combinator = .descendant → l.widened = l)
    (hc : candidates.Sublist t.document.order)
    (hsettled : combinator ≠ .descendant → ∀ x ∈ candidates, t.document.Settled x) :
    locate (t.toEngine : Engine m Nat) candidates combinator l =
      pure (t.document.located test combinator candidates) := by
  cases combinator with
  | descendant =>
    rw [hwidened rfl] at hfinds
    have hbelow : ∀ x ∈ candidates, (t.toEngine : Engine m Nat).findAll x l =
        pure ((t.document.descendants x).filter test) := fun x hx =>
      findAll_toEngine (hfinds x (hc.subset hx))
    show locateBelow _ _ _ = _
    unfold locateBelow
    rw [Loop.flatMap_eq_pure hbelow, pure_bind,
      Document.eraseDups_descendants h hc]
  | child =>
    apply locateAmong_toEngine hfinds hroot
    intro x hx
    exact findAll_toEngine (findAll_children h (hc.subset hx))
  | nextSibling =>
    apply locateAmong_toEngine hfinds hroot
    intro x hx
    exact nextSibling_toEngine h (hc.subset hx) (hsettled (by decide) x hx)
  | subsequentSibling =>
    apply locateAmong_toEngine hfinds hroot
    intro x hx
    exact nextSiblings_toEngine h (hc.subset hx) (hsettled (by decide) x hx)

end TreeEngine

end CssLocator
