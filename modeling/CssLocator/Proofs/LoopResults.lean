import CssLocator.Text
import Mathlib.Data.List.Forall2

/-!
# Results of loops

A loop without effects other than errors succeeds if every round does, and its result is made of
those of the rounds.
-/

namespace CssLocator

variable {ε α β : Type}

theorem forall₂_exists_getElem? {r : α → β → Prop} {l : List α} {l' : List β}
    (h : List.Forall₂ r l l') {b : β} (hb : b ∈ l') :
    ∃ (i : Nat) (a : α), l[i]? = some a ∧ l'[i]? = some b ∧ r a b := by
  induction h with
  | nil => cases hb
  | cons hr _ ih =>
    rcases List.mem_cons.1 hb with rfl | hb
    · exact ⟨0, _, rfl, rfl, hr⟩
    · obtain ⟨i, a, ha, hb', hab⟩ := ih hb
      exact ⟨i + 1, a, ha, hb', hab⟩

theorem forall₂_exists_left {r : α → β → Prop} {l : List α} {l' : List β} (h : List.Forall₂ r l l')
    {b : β} (hb : b ∈ l') : ∃ a ∈ l, r a b := by
  obtain ⟨i, a, ha, -, hab⟩ := forall₂_exists_getElem? h hb
  exact ⟨a, List.mem_of_getElem? ha, hab⟩

theorem exists_of_forall₂_singleton {r : α → β → Prop} {a : α} {ys : List β}
    (h : List.Forall₂ r [a] ys) : ∃ b, ys = [b] ∧ r a b := by
  cases h with
  | cons hab hnil =>
    cases hnil
    exact ⟨_, rfl, hab⟩

/-- Two lists that are related to the same list, entry by entry. -/
theorem forall₂_pair {γ : Type} {r : α → β → Prop} {r' : α → γ → Prop} {s : β → γ → Prop} {l : List α}
    {bs : List β} {cs : List γ} (h : List.Forall₂ r l bs) (h' : List.Forall₂ r' l cs)
    (hs : ∀ a b c, r a b → r' a c → s b c) : List.Forall₂ s bs cs := by
  induction h generalizing cs with
  | nil =>
    cases h'
    exact .nil
  | cons hr _ ih =>
    cases h' with
    | cons hr' hrest => exact .cons (hs _ _ _ hr hr') (ih hrest)

/-- A condition on the second list alone. -/
theorem forall₂_and_right {r : α → β → Prop} {p : β → Prop} {l : List α} {ys : List β} :
    List.Forall₂ (fun x y => r x y ∧ p y) l ys ↔ List.Forall₂ r l ys ∧ ∀ y ∈ ys, p y := by
  constructor
  · intro h
    induction h with
    | nil => exact ⟨.nil, nofun⟩
    | cons hxy _ ih => exact ⟨.cons hxy.1 ih.1, List.forall_mem_cons.2 ⟨hxy.2, ih.2⟩⟩
  · rintro ⟨h, hp⟩
    induction h with
    | nil => exact .nil
    | cons hxy _ ih =>
      obtain ⟨hy, hys⟩ := List.forall_mem_cons.1 hp
      exact .cons ⟨hxy, hy⟩ (ih hys)

private theorem forall₂_append_iff {r : α → β → Prop} {l l' : List α} {ys : List β} :
    List.Forall₂ r (l ++ l') ys ↔
      ∃ zs zs', ys = zs ++ zs' ∧ List.Forall₂ r l zs ∧ List.Forall₂ r l' zs' := by
  constructor
  · intro h
    have hleft := (List.forall₂_take_append ys l l' h.flip).flip
    have hright := (List.forall₂_drop_append ys l l' h.flip).flip
    exact ⟨_, _, (List.take_append_drop l.length ys).symm, hleft, hright⟩
  · rintro ⟨zs, zs', rfl, h, h'⟩
    exact List.rel_append h h'

theorem forall₂_flatMap_iff {γ : Type} {r : β → γ → Prop} {f : α → List β} {l : List α} {ys : List γ} :
    List.Forall₂ r (l.flatMap f) ys ↔
      ∃ yss, List.Forall₂ (fun x zs => List.Forall₂ r (f x) zs) l yss ∧ ys = yss.flatten := by
  induction l generalizing ys with
  | nil => simp
  | cons x l ih =>
    rw [List.flatMap_cons, forall₂_append_iff]
    constructor
    · rintro ⟨zs, zs', rfl, hx, hl⟩
      obtain ⟨yss, hyss, rfl⟩ := ih.1 hl
      exact ⟨zs :: yss, .cons hx hyss, rfl⟩
    · rintro ⟨yss, hyss, rfl⟩
      obtain ⟨zs, yss, hx, hl, rfl⟩ := List.forall₂_cons_left_iff.1 hyss
      exact ⟨zs, yss.flatten, rfl, hx, ih.2 ⟨yss, hl, rfl⟩⟩

theorem Loop.map_eq_ok {f : α → Except ε β} {l : List α} {ys : List β} :
    Loop.map f l = .ok ys ↔ List.Forall₂ (fun x y => f x = .ok y) l ys := by
  induction l generalizing ys with
  | nil =>
    rw [List.forall₂_nil_left_iff]
    exact ⟨fun h => (Except.ok.inj h).symm, fun h => congrArg Except.ok h.symm⟩
  | cons x xs ih =>
    rw [List.forall₂_cons_left_iff]
    cases hx : f x with
    | error e => simp [Loop.map, hx, bind, Except.bind]
    | ok y =>
      cases hxs : Loop.map f xs with
      | error e =>
        have hnone : ∀ zs, ¬ List.Forall₂ (fun x y => f x = .ok y) xs zs := by
          intro zs hzs
          rw [ih.2 hzs] at hxs
          cases hxs
        simp [Loop.map, hx, hxs, bind, Except.bind, hnone]
      | ok zs =>
        have hys : ∀ ws, List.Forall₂ (fun x y => f x = .ok y) xs ws ↔ zs = ws := by
          intro ws
          rw [← ih, hxs, Except.ok.injEq]
        simp [Loop.map, hx, hxs, bind, Except.bind, pure, Except.pure, hys, eq_comm]

theorem Loop.exists_map {f : α → Except ε β} {r : α → β → Prop} {l : List α}
    (h : ∀ x ∈ l, ∃ y, f x = .ok y ∧ r x y) : ∃ ys, Loop.map f l = .ok ys ∧ List.Forall₂ r l ys := by
  induction l with
  | nil => exact ⟨[], rfl, .nil⟩
  | cons x l ih =>
    obtain ⟨y, hy, hxy⟩ := h x List.mem_cons_self
    obtain ⟨ys, hys, hrel⟩ := ih fun z hz => h z (List.mem_cons_of_mem x hz)
    refine ⟨y :: ys, ?_, .cons hxy hrel⟩
    rw [Loop.map, hy, hys]
    rfl

theorem Loop.exists_flatMap {f : α → Except ε (List β)} {p : β → Prop} {l : List α}
    (h : ∀ x ∈ l, ∃ ys, f x = .ok ys ∧ ∀ y ∈ ys, p y) :
    ∃ ys, Loop.flatMap f l = .ok ys ∧ ∀ y ∈ ys, p y := by
  induction l with
  | nil => exact ⟨[], rfl, nofun⟩
  | cons x l ih =>
    obtain ⟨ys, hys, hp⟩ := h x List.mem_cons_self
    obtain ⟨zs, hzs, hq⟩ := ih fun z hz => h z (List.mem_cons_of_mem x hz)
    refine ⟨ys ++ zs, ?_, fun y hy => (List.mem_append.1 hy).elim (hp y) (hq y)⟩
    rw [Loop.flatMap, hys, hzs]
    rfl

theorem bind_eq_ok {x : Except ε α} {f : α → Except ε β} {b : β} :
    x >>= f = .ok b ↔ ∃ a, x = .ok a ∧ f a = .ok b := by
  cases x with
  | error e => simp [bind, Except.bind]
  | ok a => simp [bind, Except.bind]

@[simp] theorem toOption_eq_some {x : Except ε α} {a : α} : x.toOption = some a ↔ x = .ok a := by
  cases x <;> simp [Except.toOption]

/-- Effects that end with a result only if all their parts do. -/
structure Traceable (m : Type → Type) [Monad m] : Prop where
  pure_inj : ∀ {α : Type} {a b : α}, (pure a : m α) = pure b → a = b
  exists_of_bind : ∀ {α β : Type} {x : m α} {f : α → m β} {b : β}, x >>= f = pure b →
    ∃ a, x = pure a ∧ f a = pure b

private theorem traceable_except (ε : Type) : Traceable (Except ε) where
  pure_inj := Except.ok.inj
  exists_of_bind := bind_eq_ok.1

/-- A loop that has a result has one for every round, and collects just these. -/
theorem Traceable.rounds {m : Type → Type} [Monad m] (hm : Traceable m) {f : α → m (List β)} {l : List α}
    {found : List β} (h : Loop.flatMap f l = pure found) :
    (∀ x ∈ l, ∃ ys, f x = pure ys) ∧ ∀ y, y ∈ found ↔ ∃ x ∈ l, ∃ ys, f x = pure ys ∧ y ∈ ys := by
  induction l generalizing found with
  | nil =>
    obtain rfl := hm.pure_inj h
    simp
  | cons x l ih =>
    obtain ⟨ys, hys, h⟩ := hm.exists_of_bind h
    obtain ⟨zs, hzs, h⟩ := hm.exists_of_bind h
    obtain rfl := hm.pure_inj h
    obtain ⟨htotal, hmem⟩ := ih hzs
    constructor
    · intro z hz
      rcases List.mem_cons.1 hz with rfl | hz
      · exact ⟨ys, hys⟩
      · exact htotal z hz
    · intro y
      rw [List.mem_append, hmem]
      constructor
      · rintro (hy | ⟨z, hz, h⟩)
        · exact ⟨x, List.mem_cons_self, ys, hys, hy⟩
        · exact ⟨z, List.mem_cons_of_mem x hz, h⟩
      · rintro ⟨z, hz, us, hus, hy⟩
        rcases List.mem_cons.1 hz with rfl | hz
        · rw [hys] at hus
          obtain rfl := hm.pure_inj hus
          exact .inl hy
        · exact .inr ⟨z, hz, us, hus, hy⟩

/-- What a loop collects is what its rounds give. -/
theorem Loop.mem_flatMap {f : α → Except ε (List β)} {l : List α} {found : List β}
    (h : Loop.flatMap f l = .ok found) {y : β} : y ∈ found ↔ ∃ x ∈ l, ∃ ys, f x = .ok ys ∧ y ∈ ys :=
  ((traceable_except ε).rounds h).2 y

/-- A loop has a result if and only if all its rounds have one. -/
theorem Loop.exists_flatMap_iff {f : α → Except ε (List β)} {l : List α} :
    (∃ found, Loop.flatMap f l = .ok found) ↔ ∀ x ∈ l, ∃ ys, f x = .ok ys := by
  constructor
  · rintro ⟨found, h⟩
    exact ((traceable_except ε).rounds h).1
  · intro h
    obtain ⟨found, hfound, -⟩ := Loop.exists_flatMap (p := fun _ => True) fun x hx =>
      (h x hx).imp fun ys hys => ⟨hys, fun _ _ => trivial⟩
    exact ⟨found, hfound⟩

/-- A loop whose rounds all have a result. -/
theorem Loop.flatMap_eq_pure {m : Type → Type} [Monad m] [LawfulMonad m] {f : α → m (List β)}
    {g : α → List β} {l : List α} (h : ∀ x ∈ l, f x = pure (g x)) :
    Loop.flatMap f l = pure (l.flatMap g) := by
  induction l with
  | nil => rfl
  | cons x l ih =>
    have hrest := ih fun y hy => h y (List.mem_cons_of_mem x hy)
    rw [Loop.flatMap, h x List.mem_cons_self, hrest, pure_bind, pure_bind, List.flatMap_cons]

end CssLocator
