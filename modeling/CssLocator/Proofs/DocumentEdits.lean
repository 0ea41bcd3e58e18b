import CssLocator.Proofs.TreeBuilding
import Mathlib.Logic.Function.Iterate

/-!
# Edited documents

Nodes are stored and attached in any order, and a subtree may be built before it is attached. As
long as only nodes are attached that have no parent and are not above their new parent, the four
kinds of links say the same: each node is the child of its parent alone, siblings follow each other
as children do, and every way up ends.
-/

namespace CssLocator.Document

variable {d : Document}

/-- One change of a document. -/
inductive Edit where
  | allocate (kind : NodeKind)
  | appendChild (parent child : Nat)
  | appendElement (parent : Nat) (tag : Text) (attributes : Attributes)
  | appendText (parent : Nat) (content : Text)

namespace Edit

def apply : Edit → Document → Document
  | allocate kind, d => d.allocate kind
  | appendChild parent child, d => d.appendChild parent child
  | appendElement parent tag attributes, d => d.appendElement parent tag attributes
  | appendText parent content, d => d.appendText parent content

/-- The nodes that are named exist. A node that is attached has no parent, and it is neither its new
parent nor above it. -/
def Admissible : Edit → Document → Prop
  | allocate _, _ => True
  | appendChild parent child, d =>
    parent < d.size ∧ child < d.size ∧ d.parent? child = none ∧ child ≠ parent ∧
      child ∉ d.ancestors parent
  | appendElement parent _ _, d => parent < d.size
  | appendText parent _, d => parent < d.size

instance (e : Edit) (d : Document) : Decidable (e.Admissible d) :=
  match e with
  | allocate _ => inferInstanceAs (Decidable True)
  | appendChild parent child =>
    inferInstanceAs (Decidable (parent < d.size ∧ child < d.size ∧ d.parent? child = none ∧
      child ≠ parent ∧ child ∉ d.ancestors parent))
  | appendElement parent _ _ => inferInstanceAs (Decidable (parent < d.size))
  | appendText parent _ => inferInstanceAs (Decidable (parent < d.size))

/-- The document after all edits, one after the other. -/
def applyAll (edits : List Edit) (d : Document) : Document := edits.foldl (fun d e => e.apply d) d

/-- Every edit is admissible for the document that it is applied to. -/
def AdmissibleAll : List Edit → Document → Prop
  | [], _ => True
  | e :: edits, d => e.Admissible d ∧ AdmissibleAll edits (e.apply d)

instance decidableAdmissibleAll : (edits : List Edit) → (d : Document) →
    Decidable (AdmissibleAll edits d)
  | [], _ => inferInstanceAs (Decidable True)
  | e :: edits, d =>
    have := decidableAdmissibleAll edits (e.apply d)
    inferInstanceAs (Decidable (e.Admissible d ∧ AdmissibleAll edits (e.apply d)))

end Edit

/-- All nodes that the links of a node lead to. -/
def links (d : Document) (x : Nat) : List Nat :=
  (d.parent? x).toList ++ d.children x ++ (d.next? x).toList ++ (d.previous? x).toList

/-- The links of a document agree with each other. -/
structure Consistent (d : Document) : Prop where
  mem_children_iff : ∀ p c, c ∈ d.children p ↔ d.parent? c = some p
  nodup_children : ((List.range d.size).flatMap d.children).Nodup
  neighbours : ∀ p a b before after, d.children p = before ++ a :: b :: after →
    d.next? a = some b ∧ d.previous? b = some a
  first : ∀ p c after, d.children p = c :: after → d.previous? c = none
  last : ∀ p c before, d.children p = before ++ [c] → d.next? c = none
  without_parent : ∀ c, d.parent? c = none → d.previous? c = none ∧ d.next? c = none
  links_lt : ∀ x, ∀ y ∈ d.links x, y < d.size
  /-- The way up from a node has left the document after as many steps as there are nodes. -/
  ends : ∀ x, (fun y : Option Nat => y.bind d.parent?)^[d.size] (some x) = none

namespace Linked

/-- The ancestors of a node are met one after the other on the way up. -/
theorem iterate_parent (h : d.Linked) (n x : Nat) :
    (fun y : Option Nat => y.bind d.parent?)^[n + 1] (some x) = (d.ancestors x)[n]? := by
  induction n generalizing x with
  | zero =>
    cases hp : d.parent? x with
    | none => simp [ancestors_of_none hp, hp]
    | some p => simp [h.ancestors_of_some hp, hp]
  | succ n ih =>
    rw [Function.iterate_succ_apply]
    cases hp : d.parent? x with
    | none =>
      have hnone : (fun y : Option Nat => y.bind d.parent?)^[n + 1] none = none :=
        Function.iterate_fixed rfl (n + 1)
      simpa [hp, ancestors_of_none hp] using hnone
    | some p =>
      have hrest := ih p
      simpa [hp, h.ancestors_of_some hp] using hrest

private theorem nodup_flatMap_children (h : d.Linked) :
    ((List.range d.size).flatMap d.children).Nodup := by
  rw [List.nodup_flatMap]
  refine ⟨fun p _ => h.nodup_children p, ?_⟩
  apply List.nodup_range.imp
  intro p q hne c hp hq
  rw [h.mem_children] at hp hq
  exact hne (Option.some.inj (hp.symm.trans hq))

/-- The siblings next to a node are children of its parent. -/
theorem sibling_mem_children (h : d.Linked) {x y : Nat}
    (hy : d.next? x = some y ∨ d.previous? x = some y) : ∃ p, y ∈ d.children p := by
  cases hp : d.parent? x with
  | none =>
    obtain ⟨hprevious, hnext⟩ := h.without_parent hp
    rw [hprevious, hnext] at hy
    simp at hy
  | some p =>
    obtain ⟨before, after, hsplit⟩ := List.append_of_mem (h.mem_children.2 hp)
    rw [h.next_eq hsplit, h.previous_eq hsplit] at hy
    refine ⟨p, ?_⟩
    rw [hsplit, List.mem_append, List.mem_cons]
    rcases hy with hy | hy
    · exact .inr (.inr (List.mem_of_head? hy))
    · exact .inl (List.mem_of_getLast? hy)

private theorem links_lt (h : d.Linked) {x y : Nat} (hy : y ∈ d.links x) : y < d.size := by
  simp only [links, List.mem_append, Option.mem_toList] at hy
  rcases hy with ((hparent | hchild) | hnext) | hprevious
  · exact h.parent_lt hparent
  · exact h.child_lt hchild
  · obtain ⟨p, hp⟩ := h.sibling_mem_children (.inl hnext)
    exact h.child_lt hp
  · obtain ⟨p, hp⟩ := h.sibling_mem_children (.inr hprevious)
    exact h.child_lt hp

theorem consistent (h : d.Linked) : d.Consistent where
  mem_children_iff _ _ := h.mem_children
  nodup_children := h.nodup_flatMap_children
  neighbours p a b before after hsplit := by
    have hsplit' : d.children p = (before ++ [a]) ++ b :: after := by simpa using hsplit
    constructor
    · simpa using h.next_eq hsplit
    · simpa using h.previous_eq hsplit'
  first p c after hsplit := by
    have hsplit' : d.children p = [] ++ c :: after := hsplit
    exact h.previous_eq hsplit'
  last p c before hsplit := by
    have hsplit' : d.children p = before ++ c :: [] := hsplit
    exact h.next_eq hsplit'
  without_parent _ := h.without_parent
  links_lt _ _ := h.links_lt
  ends x := by
    have hlength := h.length_ancestors_lt x
    obtain ⟨n, hn⟩ : ∃ n, d.size = n + 1 := ⟨d.size - 1, by omega⟩
    rw [hn, h.iterate_parent, List.getElem?_eq_none]
    omega

end Linked

theorem Built.apply (h : d.Built) {e : Edit} (he : e.Admissible d) : (e.apply d).Built := by
  cases e with
  | allocate kind => exact h.allocate kind
  | appendChild parent child =>
    obtain ⟨hparent, hchild, hfree, hne, habove⟩ := he
    exact h.appendChild hparent hchild hfree hne habove
  | appendElement parent tag attributes => exact h.append he (.elementOf tag attributes)
  | appendText parent content => exact h.append he (.text content)

theorem Built.applyAll (h : d.Built) {edits : List Edit} (hedits : Edit.AdmissibleAll edits d) :
    (Edit.applyAll edits d).Built := by
  induction edits generalizing d with
  | nil => exact h
  | cons e edits ih => exact ih (h.apply hedits.1) hedits.2

/-- Whatever nodes are stored and attached, in whatever order: the links of the document are
consistent. -/
theorem consistent_of_edits (edits : List Edit) (h : Edit.AdmissibleAll edits .empty) :
    (Edit.applyAll edits .empty).Consistent :=
  (Built.empty.applyAll h).linked.consistent

/-- A list is filled before it is attached, and a second document node and a comment stay apart. -/
def detachedFirst : List Edit :=
  [.allocate (.elementOf "UL" .empty), .appendElement 1 "li" .empty, .allocate .document,
    .appendText 2 "one", .allocate (.comment "two"), .appendElement 1 "li" .empty,
    .appendElement root "body" .empty, .appendChild 7 1, .appendChild 3 5, .appendText 7 "three"]

theorem consistent_of_edits_detached : Edit.AdmissibleAll detachedFirst .empty ∧
    (Edit.applyAll detachedFirst .empty).Consistent := by
  have hadmissible : Edit.AdmissibleAll detachedFirst .empty := by decide +kernel
  exact ⟨hadmissible, consistent_of_edits detachedFirst hadmissible⟩

end CssLocator.Document
