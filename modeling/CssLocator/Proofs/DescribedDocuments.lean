import CssLocator.JsonDescriptions
import CssLocator.Proofs.Texts
import CssLocator.Proofs.TreeBuilding
import CssLocator.Proofs.TreeOrder

/-!
# Described documents

In a document that is built from a description every node is attached, the document node has no
parent and is the only one of its kind above other nodes than elements, and tags are in lower case.
-/

namespace CssLocator.Document

variable {d : Document}

/-- What holds of a document as long as nodes are only appended below elements and at the top. -/
structure Grown (d : Document) : Prop where
  built : d.Built
  parent?_root : d.parent? root = none
  kind?_root : d.kind? root = some .document
  has_parent : ∀ {x}, x < d.size → x ≠ root → ∃ p, d.parent? x = some p
  parent_element : ∀ {c p}, d.parent? c = some p → p = root ∨ d.isElement p
  lower_tag : ∀ {x tag attributes}, d.element? x = some (tag, attributes) → Text.lower tag = tag
  eq_root : ∀ {x}, d.kind? x = some .document → x = root

namespace Grown

theorem linked (h : d.Grown) : d.Linked := h.built.linked

/-- Every node is attached. -/
theorem mem_order (h : d.Grown) {x : Nat} (hx : x < d.size) : x ∈ d.order := by
  rw [h.linked.mem_order_iff]
  induction x using h.linked.acyclic.induction with
  | _ x ih =>
    by_cases hroot : x = root
    · exact .inl hroot
    · obtain ⟨p, hp⟩ := h.has_parent hx hroot
      refine .inr ?_
      rw [h.linked.ancestors_of_some hp, List.mem_cons]
      exact (ih p hp (h.linked.parent_lt hp)).imp_left Eq.symm

theorem not_isElement_root (h : d.Grown) : d.isElement root = false := by
  simp [isElement, element?, h.kind?_root]

end Grown

private theorem grown_empty : Document.empty.Grown where
  built := .empty
  parent?_root := rfl
  kind?_root := rfl
  has_parent {x} hx hroot := by
    have : x < 1 := hx
    exact absurd (Nat.lt_one_iff.1 this) hroot
  parent_element {c p} hp := by
    have hc : c ∈ Document.empty.children p → False := by
      cases p <;> simp [children, node?, Document.empty, Node.detached]
    exact (hc (linked_empty.mem_children.2 hp)).elim
  lower_tag {x tag attributes} hx := by
    cases x <;> simp [element?, kind?, node?, Document.empty, Node.detached] at hx
  eq_root {x} hx := by
    cases x with
    | zero => rfl
    | succ x => simp [kind?, node?, Document.empty] at hx

@[simp] theorem size_append (parent : Nat) (kind : NodeKind) :
    (d.append parent kind).size = d.size + 1 := by
  simp [append]

private theorem kind?_append (parent : Nat) (kind : NodeKind) (i : Nat) :
    (d.append parent kind).kind? i = if i = d.size then some kind else d.kind? i := by
  unfold append
  rw [kind?_appendChild]
  unfold kind?
  rw [node?_allocate]
  split <;> rfl

private theorem parent?_append (parent : Nat) (kind : NodeKind) (i : Nat) :
    (d.append parent kind).parent? i = if i = d.size then some parent else d.parent? i := by
  unfold append
  rw [parent?_appendChild (by simp), parent?_allocate]

/-- The kinds of nodes that a description appends. -/
def NodeKind.Appended : NodeKind → Prop
  | .document => False
  | .element tag _ => Text.lower tag = tag
  | .text _ | .comment _ => True

theorem Grown.append (h : d.Grown) {parent : Nat} (hparent : parent < d.size)
    (habove : parent = root ∨ d.isElement parent) {kind : NodeKind} (hkind : NodeKind.Appended kind) :
    (d.append parent kind).Grown where
  built := h.built.append hparent kind
  parent?_root := by
    rw [parent?_append, if_neg (Nat.ne_of_lt h.linked.root_lt)]
    exact h.parent?_root
  kind?_root := by
    rw [kind?_append, if_neg (Nat.ne_of_lt h.linked.root_lt)]
    exact h.kind?_root
  has_parent {x} hx hroot := by
    rw [size_append] at hx
    rw [parent?_append]
    split
    · exact ⟨parent, rfl⟩
    · exact h.has_parent (by omega) hroot
  parent_element {c p} hp := by
    have hold : p = root ∨ d.isElement p := by
      rw [parent?_append] at hp
      split at hp
      · exact Option.some.inj hp ▸ habove
      · exact h.parent_element hp
    refine hold.imp_right fun helement => ?_
    have hp' : p ≠ d.size := Nat.ne_of_lt (lt_size_of_isElement helement)
    simpa [isElement, element?, kind?_append, hp'] using helement
  lower_tag {x tag attributes} hx := by
    unfold element? at hx
    rw [kind?_append] at hx
    by_cases hnew : x = d.size
    · rw [if_pos hnew] at hx
      cases kind <;> simp_all [NodeKind.Appended]
    · rw [if_neg hnew] at hx
      exact h.lower_tag hx
  eq_root {x} hx := by
    rw [kind?_append] at hx
    split at hx
    · rw [Option.some.inj hx] at hkind
      exact hkind.elim
    · exact h.eq_root hx

private theorem isElement_append {parent : Nat} {kind : NodeKind} {x : Nat} (hx : x < d.size) :
    (d.append parent kind).isElement x = d.isElement x := by
  simp [isElement, element?, kind?_append, Nat.ne_of_lt hx]

/-- What is kept while nodes are appended: the nodes there are, and which of them are elements. -/
structure Extends (d e : Document) : Prop where
  grown : e.Grown
  size_le : d.size ≤ e.size
  isElement_eq : ∀ {x}, x < d.size → e.isElement x = d.isElement x

theorem Extends.trans {d e f : Document} (h : d.Extends e) (h' : e.Extends f) : d.Extends f where
  grown := h'.grown
  size_le := h.size_le.trans h'.size_le
  isElement_eq hx := (h'.isElement_eq (hx.trans_le h.size_le)).trans (h.isElement_eq hx)

private theorem Grown.extends_append (h : d.Grown) {parent : Nat} (hparent : parent < d.size)
    (habove : parent = root ∨ d.isElement parent) (kind : NodeKind) (hkind : NodeKind.Appended kind) :
    d.Extends (d.append parent kind) where
  grown := h.append hparent habove hkind
  size_le := by simp
  isElement_eq := isElement_append

mutual

theorem Grown.attach {d : Document} (h : d.Grown) {parent : Nat} (hparent : parent < d.size)
    (habove : parent = root ∨ d.isElement parent) :
    (x : Description) → d.Extends (x.attach parent d)
  | .element tag attributes children => by
    have hnew := h.extends_append hparent habove (.elementOf tag attributes) (lower_lower tag)
    refine hnew.trans (hnew.grown.attachAll ?_ (.inr ?_) children)
    · simp
    · simp [isElement, element?, kind?_append, NodeKind.elementOf]
  | .text content => h.extends_append hparent habove (.text content) trivial
  | .comment content => h.extends_append hparent habove (.comment content) trivial

theorem Grown.attachAll {d : Document} (h : d.Grown) {parent : Nat} (hparent : parent < d.size)
    (habove : parent = root ∨ d.isElement parent) :
    (l : List Description) → d.Extends (Description.attachAll parent d l)
  | [] => ⟨h, Nat.le_refl _, fun _ => rfl⟩
  | x :: l => by
    have hfirst := h.attach hparent habove x
    refine hfirst.trans (hfirst.grown.attachAll (hparent.trans_le hfirst.size_le) ?_ l)
    exact habove.imp_right fun helement => (hfirst.isElement_eq hparent).trans helement

end

theorem grown_ofDescriptions (l : List Description) : (ofDescriptions l).Grown :=
  (grown_empty.attachAll Nat.one_pos (.inl rfl) l).grown

/-- A document that is read from a JSON text is built from a description. -/
theorem grown_of_ofText? {s : Text} (h : ofText? s = some d) : d.Grown := by
  obtain ⟨l, -, rfl⟩ := Option.map_eq_some_iff.1 h
  exact grown_ofDescriptions l

end CssLocator.Document
