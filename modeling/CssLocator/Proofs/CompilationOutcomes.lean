import CssLocator.Compilation
import Mathlib.Data.List.Forall2

/-!
# Outcomes of compilations

A compilation runs effects of an engine and passes on a table of answers. What it makes of a
selector does not depend on either: a fault is known beforehand, and without one the result stands
in a given relation to the selector, as long as the table keeps an invariant.
-/

namespace CssLocator

variable {m : Type → Type} [Monad m] {α β : Type}

/-- Whatever effects there are, the value has the property. -/
def Returns (p : α → Prop) (x : m α) : Prop := ∃ y : m {a // p a}, Subtype.val <$> y = x

namespace Returns

variable [LawfulMonad m] {p q : α → Prop}

theorem pure {a : α} (h : p a) : Returns p (pure a : m α) :=
  ⟨Pure.pure ⟨a, h⟩, by rw [map_pure]⟩

theorem bind {r : β → Prop} {x : m α} {f : α → m β} (h : Returns p x)
    (h' : ∀ a, p a → Returns r (f a)) : Returns r (x >>= f) := by
  obtain ⟨y, rfl⟩ := h
  have hchoice : ∀ a : {a // p a}, ∃ z : m {b // r b}, Subtype.val <$> z = f a.1 := fun a =>
    h' a.1 a.2
  choose z hz using hchoice
  refine ⟨y >>= z, ?_⟩
  rw [map_bind, bind_map_left]
  exact bind_congr hz

theorem imp {x : m α} (h : Returns p x) (h' : ∀ a, p a → q a) : Returns q x := by
  obtain ⟨y, rfl⟩ := h
  refine ⟨(fun a => ⟨a.1, h' a.1 a.2⟩) <$> y, ?_⟩
  rw [← comp_map]
  rfl

theorem of_forall (x : m α) (h : ∀ a, p a) : Returns p x := by
  refine ⟨(fun a => ⟨a, h a⟩) <$> x, ?_⟩
  rw [← comp_map]
  exact id_map x

/-- Without effects the value itself has the property. -/
theorem of_id {x : Id α} (h : Returns p x) : p x := by
  obtain ⟨y, rfl⟩ := h
  exact y.2

end Returns

section

variable [LawfulMonad m]

@[simp] theorem ofExcept_ok_bind (a : α) (f : α → Compiling m β) :
    (ofExcept (.ok a) : Compiling m α) >>= f = f a := pure_bind a f

@[simp] theorem ofExcept_error_bind (e : SelectorError) (f : α → Compiling m β) :
    (ofExcept (.error e) : Compiling m α) >>= f = throw e := by
  apply ExceptT.ext
  rw [ExceptT.run_bind]
  exact pure_bind _ _

end

/-- The fault is the error of a result without a value; a value has the property. -/
def Outcome (fault : Option SelectorError) (p : α → Prop) : Except SelectorError α → Prop
  | .error e => fault = some e
  | .ok a => fault = none ∧ p a

theorem Outcome.imp {fault : Option SelectorError} {p q : α → Prop} {r : Except SelectorError α}
    (h : Outcome fault p r) (h' : ∀ a, p a → q a) : Outcome fault q r := by
  cases r with
  | error e => exact h
  | ok a => exact ⟨h.1, h' a h.2⟩

theorem Outcome.eq_error {e : SelectorError} {p : α → Prop} {r : Except SelectorError α}
    (h : Outcome (some e) p r) : r = .error e := by
  cases r with
  | error e' => exact congrArg Except.error (Option.some.inj h).symm
  | ok a => cases h.1

theorem Outcome.exists_ok {p : α → Prop} {r : Except SelectorError α} (h : Outcome none p r) :
    ∃ a, r = .ok a ∧ p a := by
  cases r with
  | error e => cases h
  | ok a => exact ⟨a, rfl, h.2⟩

/-- With one value that has the property there is one result. -/
theorem Outcome.unique {fault : Option SelectorError} {p : α → Prop} {r r' : Except SelectorError α}
    (h : Outcome fault p r) (h' : Outcome fault p r') (hp : ∀ a a', p a → p a' → a = a') : r = r' := by
  cases fault with
  | some e => exact h.eq_error.trans h'.eq_error.symm
  | none =>
    obtain ⟨a, rfl, ha⟩ := h.exists_ok
    obtain ⟨a', rfl, ha'⟩ := h'.exists_ok
    rw [hp a a' ha ha']

/-- A compilation has the outcome, and keeps the invariant of the table. -/
def Yields (I : SupportTable → Prop) (fault : Option SelectorError) (p : α → Prop)
    (x : Compiling m α) : Prop :=
  ∀ t, I t → Returns (fun r => Outcome fault p r.1 ∧ I r.2) (x.run.run t)

namespace Yields

variable [LawfulMonad m] {I : SupportTable → Prop} {fault fault' : Option SelectorError}
  {p q : α → Prop}

theorem pure {a : α} (h : p a) : Yields I none p (pure a : Compiling m α) :=
  fun _ ht => Returns.pure ⟨⟨rfl, h⟩, ht⟩

theorem throw (e : SelectorError) : Yields I (some e) p (throw e : Compiling m α) :=
  fun _ ht => Returns.pure ⟨rfl, ht⟩

theorem imp {x : Compiling m α} (h : Yields I fault p x) (h' : ∀ a, p a → q a) :
    Yields I fault q x := by
  intro t ht
  exact (h t ht).imp fun r hr => ⟨hr.1.imp h', hr.2⟩

/-- The second part of a compilation runs, and can have a fault, only if the first one has none. -/
theorem bind {r : β → Prop} {x : Compiling m α} {f : α → Compiling m β} (h : Yields I fault p x)
    (h' : ∀ a, fault = none → p a → Yields I fault' r (f a)) :
    Yields I (fault.or fault') r (x >>= f) := by
  intro t ht
  have hrun : (x >>= f).run.run t = x.run.run t >>= fun s =>
      match s.1 with
      | .ok a => (f a).run.run s.2
      | .error e => Pure.pure (.error e, s.2) := by
    rw [ExceptT.run_bind, StateT.run_bind]
    refine bind_congr ?_
    rintro ⟨s | a, t'⟩ <;> rfl
  rw [hrun]
  refine (h t ht).bind ?_
  rintro ⟨e | a, t'⟩ ⟨hr, ht'⟩
  · have he : fault = some e := hr
    exact Returns.pure ⟨by rw [he]; rfl, ht'⟩
  · obtain ⟨hnone, ha⟩ := hr
    have hnext := h' a hnone ha t' ht'
    rw [hnone, Option.none_or]
    exact hnext

theorem bind_pure {r : β → Prop} {x : Compiling m α} {f : α → β} (h : Yields I fault p x)
    (h' : ∀ a, p a → r (f a)) : Yields I fault r (x >>= fun a => Pure.pure (f a)) := by
  have hbind : Yields I (fault.or none) r (x >>= fun a => Pure.pure (f a)) :=
    h.bind fun a _ ha => pure (h' a ha)
  rwa [Option.or_none] at hbind

/-- A part of a compilation that cannot fail. -/
theorem lift {x : StateT SupportTable m α}
    (h : ∀ t, I t → Returns (fun r => p r.1 ∧ I r.2) (x.run t)) :
    Yields I none p (liftM x : Compiling m α) := by
  intro t ht
  have hrun : (liftM x : Compiling m α).run.run t =
      x.run t >>= fun r => Pure.pure (.ok r.1, r.2) := by
    rw [show (liftM x : Compiling m α) = ExceptT.lift x from rfl, ExceptT.run_lift, StateT.run_map,
      map_eq_pure_bind]
  rw [hrun]
  exact (h t ht).bind fun r hr => Returns.pure ⟨⟨rfl, hr.1⟩, hr.2⟩

/-- A loop has the first fault that one of its rounds has. -/
theorem map {f : α → Compiling m β} {faults : α → Option SelectorError} {rel : α → β → Prop}
    {l : List α} (h : ∀ x ∈ l, Yields I (faults x) (rel x) (f x)) :
    Yields I (l.findSome? faults) (List.Forall₂ rel l) (Loop.map f l) := by
  induction l with
  | nil => exact pure .nil
  | cons x xs ih =>
    have hx := h x List.mem_cons_self
    have hxs := ih fun y hy => h y (List.mem_cons_of_mem x hy)
    have hfault : (x :: xs).findSome? faults = (faults x).or (xs.findSome? faults) := by
      rw [List.findSome?_cons]
      cases faults x <;> rfl
    rw [hfault]
    refine hx.bind fun y _ hy => ?_
    exact hxs.bind_pure fun ys hys => .cons hy hys

end Yields

end CssLocator
