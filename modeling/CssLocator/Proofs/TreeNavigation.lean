import CssLocator.Plans
import CssLocator.Proofs.PathQueries

/-!
# Navigation in document trees

Parents and siblings as the engine of a document tree finds them, and how these stand to the links
of the tree.
-/

namespace CssLocator

namespace Document

variable {d : Document} {x y p : Nat}

/-- The parent of a node, if it is an element. -/
def parentElement? (d : Document) (x : Nat) : Option Nat := (d.parent? x).filter d.isElement

@[simp] theorem parentElement?_eq_some :
    d.parentElement? x = some p ↔ d.parent? x = some p ∧ d.isElement p := by
  simp [parentElement?, Option.filter_eq_some_iff]

@[simp] theorem mem_elementChildren (h : d.Linked) :
    y ∈ d.elementChildren x ↔ d.parent? y = some x ∧ d.isElement y := by
  rw [elementChildren, List.mem_filter, h.mem_children]

theorem nodup_elementChildren (h : d.Linked) (x : Nat) : (d.elementChildren x).Nodup :=
  (h.nodup_children x).filter _

/-- How the second node must stand to the first one. Siblings are element children of one parent
element. -/
def Related (d : Document) : Combinator → Nat → Nat → Prop
  | .descendant, x, y => y ∈ d.descendants x
  | .child, x, y => d.parent? y = some x
  | .nextSibling, x, y =>
    ∃ p before after, d.isElement p ∧ d.elementChildren p = before ++ x :: y :: after
  | .subsequentSibling, x, y =>
    ∃ p before between after, d.isElement p ∧
      d.elementChildren p = before ++ x :: (between ++ y :: after)

/-- The element children of the parent element; without one, the node alone. -/
def siblingElements (d : Document) (x : Nat) : List Nat :=
  (d.parentElement? x).elim [x] d.elementChildren

theorem siblingElements_of_some (h : d.parentElement? x = some p) :
    d.siblingElements x = d.elementChildren p := by
  rw [siblingElements, h, Option.elim_some]

theorem siblingElements_of_none (h : d.parentElement? x = none) : d.siblingElements x = [x] := by
  rw [siblingElements, h, Option.elim_none]

/-- The siblings after an element; there are none without a parent element. -/
def laterSiblings (d : Document) (x : Nat) : List Nat :=
  ((d.siblingElements x).dropWhile (· != x)).tail

private theorem dropWhile_ne {l before after : List Nat} (hl : l = before ++ x :: after)
    (hn : l.Nodup) : l.dropWhile (· != x) = x :: after := by
  have hbefore : ∀ a ∈ before, (a != x) = true := by
    intro a ha
    rw [hl] at hn
    have hne : a ≠ x := fun heq =>
      List.disjoint_of_nodup_append hn ha (heq ▸ List.mem_cons_self)
    simpa using hne
  rw [hl, List.dropWhile_append_of_pos hbefore]
  simp

theorem before_unique {l before before' after after' : List Nat} (hn : l.Nodup)
    (hl : l = before ++ y :: after) (hl' : l = before' ++ y :: after') : before = before' := by
  have hrest : y :: after = y :: after' := by rw [← dropWhile_ne hl hn, dropWhile_ne hl' hn]
  rw [hl, hrest] at hl'
  exact List.append_cancel_right hl'

theorem takeWhile_ne {l before after : List Nat} (hl : l = before ++ x :: after) (hn : l.Nodup) :
    l.takeWhile (· != x) = before := by
  have hsplit : l = l.takeWhile (· != x) ++ x :: after := by
    rw [← dropWhile_ne hl hn, List.takeWhile_append_dropWhile]
  exact before_unique hn hsplit hl

private theorem dropWhile_ne_of_not_mem {l : List Nat} (hx : x ∉ l) : l.dropWhile (· != x) = [] := by
  induction l with
  | nil => rfl
  | cons a l ih =>
    rw [List.mem_cons, not_or] at hx
    rw [List.dropWhile_cons_of_pos (by simpa using Ne.symm hx.1), ih hx.2]

/-- The siblings before an element, without the nodes between them. -/
theorem filter_precedingSiblings (h : d.Linked) (hy : d.isElement y) (hp : d.parent? y = some p) :
    ∃ before after, d.elementChildren p = before ++ y :: after ∧
      (d.precedingSiblings y).filter d.isElement = before.reverse := by
  obtain ⟨before, after, hsplit⟩ := List.append_of_mem (h.mem_children.2 hp)
  refine ⟨before.filter d.isElement, after.filter d.isElement, ?_, ?_⟩
  · rw [elementChildren, hsplit, List.filter_append, List.filter_cons_of_pos hy]
  · rw [h.precedingSiblings_eq hsplit, List.filter_reverse]

/-- The later siblings are what stands after the element among the children of a parent element. -/
theorem laterSiblings_eq (h : d.Linked) {before after : List Nat} (hp : d.isElement p)
    (hsplit : d.elementChildren p = before ++ x :: after) : d.laterSiblings x = after := by
  have hx : x ∈ d.elementChildren p := by simp [hsplit]
  have hparent : d.parentElement? x = some p :=
    parentElement?_eq_some.2 ⟨((mem_elementChildren h).1 hx).1, hp⟩
  rw [laterSiblings, siblingElements_of_some hparent,
    dropWhile_ne hsplit (nodup_elementChildren h p), List.tail_cons]

private theorem exists_split_of_laterSiblings (h : d.Linked) (hne : d.laterSiblings x ≠ []) :
    ∃ p before, d.isElement p ∧ d.elementChildren p = before ++ x :: d.laterSiblings x := by
  cases hparent : d.parentElement? x with
  | none => simp [laterSiblings, siblingElements_of_none hparent] at hne
  | some p =>
    have hp := (parentElement?_eq_some.1 hparent).2
    by_cases hx : x ∈ d.elementChildren p
    · obtain ⟨before, after, hsplit⟩ := List.append_of_mem hx
      rw [laterSiblings_eq h hp hsplit]
      exact ⟨p, before, hp, hsplit⟩
    · simp [laterSiblings, siblingElements_of_some hparent, dropWhile_ne_of_not_mem hx] at hne

/-- The later siblings are the elements that are related to the node as such. -/
theorem mem_laterSiblings (h : d.Linked) : y ∈ d.laterSiblings x ↔ d.Related .subsequentSibling x y := by
  constructor
  · intro hy
    obtain ⟨p, before, hp, hsplit⟩ := exists_split_of_laterSiblings h (List.ne_nil_of_mem hy)
    obtain ⟨between, after, hlater⟩ := List.append_of_mem hy
    exact ⟨p, before, between, after, hp, hlater ▸ hsplit⟩
  · rintro ⟨p, before, between, after, hp, hsplit⟩
    rw [laterSiblings_eq h hp hsplit]
    simp

theorem mem_take_laterSiblings (h : d.Linked) :
    y ∈ (d.laterSiblings x).take 1 ↔ d.Related .nextSibling x y := by
  constructor
  · intro hy
    have hne : d.laterSiblings x ≠ [] := List.ne_nil_of_mem (List.mem_of_mem_take hy)
    obtain ⟨p, before, hp, hsplit⟩ := exists_split_of_laterSiblings h hne
    obtain ⟨z, after, hlater⟩ := List.exists_cons_of_ne_nil hne
    rw [hlater] at hy hsplit
    obtain rfl : y = z := by simpa using hy
    exact ⟨p, before, after, hp, hsplit⟩
  · rintro ⟨p, before, after, hp, hsplit⟩
    rw [laterSiblings_eq h hp hsplit]
    simp

end Document

namespace TreeEngine

variable {t : TreeEngine} {c : Nat} {m : Type → Type} [Monad m]

theorem findAll_toEngine {l : Locator} {found : List Nat} (h : t.findAll c l = .ok found) :
    (t.toEngine : Engine m Nat).findAll c l = pure found := by
  show ofExcept (t.findAll c l) = _
  rw [h]
  rfl

private theorem findAll_toEngine_error {l : Locator} {e : EngineError} (h : t.findAll c l = .error e) :
    (t.toEngine : Engine m Nat).findAll c l = throw e := by
  show ofExcept (t.findAll c l) = _
  rw [h]
  rfl

variable [LawfulMonad m]

/-- The parent of an attached node, as navigation finds it. -/
theorem parent?_toEngine (h : t.document.Linked) (hc : c ∈ t.document.order) :
    (t.toEngine : Engine m Nat).parent? c = pure (t.document.parentElement? c) := by
  unfold Engine.parent? Engine.findOne Document.parentElement?
  rw [findAll_toEngine (findAll_parent h hc), pure_bind]
  cases t.document.parent? c with
  | none => exact map_pure _ _
  | some p =>
    rw [Option.toList_some, List.filter_singleton, Option.filter_some]
    cases t.document.isElement p with
    | true => exact map_pure _ _
    | false => exact map_pure _ _

theorem itselfWithSiblings_toEngine (h : t.document.Linked) (hc : c ∈ t.document.order)
    (hp : ∀ p, t.document.parentElement? c = some p → p ∈ t.document.order) :
    (t.toEngine : Engine m Nat).itselfWithSiblings c = pure (t.document.siblingElements c) := by
  unfold Engine.itselfWithSiblings Document.siblingElements
  rw [parent?_toEngine h hc, pure_bind]
  cases hparent : t.document.parentElement? c with
  | none => rfl
  | some p => exact findAll_toEngine (findAll_children h (hp p hparent))

theorem nextSiblings_toEngine (h : t.document.Linked) (hc : c ∈ t.document.order)
    (hp : ∀ p, t.document.parentElement? c = some p → p ∈ t.document.order) :
    (t.toEngine : Engine m Nat).nextSiblings c = pure (t.document.laterSiblings c) := by
  unfold Engine.nextSiblings
  rw [itselfWithSiblings_toEngine h hc hp, pure_bind]
  rfl

theorem nextSibling_toEngine (h : t.document.Linked) (hc : c ∈ t.document.order)
    (hp : ∀ p, t.document.parentElement? c = some p → p ∈ t.document.order) :
    (t.toEngine : Engine m Nat).nextSibling c = pure ((t.document.laterSiblings c).take 1) := by
  unfold Engine.nextSibling
  rw [nextSiblings_toEngine h hc hp, pure_bind]

/-- A parent that is not attached has gone, and with it the siblings. -/
theorem nextSiblings_detached (h : t.document.Linked) (hc : c ∈ t.document.order) {p : Nat}
    (hparent : t.document.parentElement? c = some p) (hp : p ∉ t.document.order) :
    (t.toEngine : Engine m Nat).nextSiblings c = throw .stale := by
  have hfind : t.findAll p (.path "./*") = .error .stale := by
    rw [findAll, checkAttached_of_not_mem hp]
    rfl
  unfold Engine.nextSiblings Engine.itselfWithSiblings
  rw [parent?_toEngine h hc, pure_bind, hparent]
  dsimp only
  rw [findAll_toEngine_error hfind]
  apply ExceptT.ext
  simp

end TreeEngine

end CssLocator
