import CssLocator.Text
import Mathlib.Tactic.Common

/-!
# Patterns of texts

Patterns are matched from left to right. A repetition takes as many characters as it can and an optional
part is taken if it can be; both give way as long as the rest of the pattern does not match. A group
keeps the text that its part has matched.
-/

namespace CssLocator

inductive Pattern where
  | one (p : Char → Bool)
  | many (p : Char → Bool)
  | next (first second : Pattern)
  | optional (part : Pattern)
  | group (part : Pattern)

namespace Pattern

/-- A way to match the front of a text: what is matched, what each group keeps, and what is left. -/
structure Found where
  text : Text
  groups : List (Option Text)
  rest : Text

def groupCount : Pattern → Nat
  | one _ | many _ => 0
  | next a b => a.groupCount + b.groupCount
  | optional a => a.groupCount
  | group a => a.groupCount + 1

/-- The ways to take characters of a class off the front of a text, the longest one first. -/
def takings (p : Char → Bool) : Text → List (Text × Text)
  | [] => [([], [])]
  | c :: r => (if p c then (takings p r).map fun (u, v) => (c :: u, v) else []) ++ [([], c :: r)]

/-- The ways to match the front of a text, the preferred one first. -/
def ways : Pattern → Text → List Found
  | one _, [] => []
  | one p, c :: r => if p c then [⟨[c], [], r⟩] else []
  | many p, s => (takings p s).map fun (u, v) => ⟨u, [], v⟩
  | next a b, s => (a.ways s).flatMap fun x =>
      (b.ways x.rest).map fun y => ⟨x.text ++ y.text, x.groups ++ y.groups, y.rest⟩
  | optional a, s => a.ways s ++ [⟨[], List.replicate a.groupCount none, s⟩]
  | group a, s => (a.ways s).map fun x => ⟨x.text, some x.text :: x.groups, x.rest⟩

/-- Whether the whole text can be matched. -/
def matchesWhole (a : Pattern) (s : Text) : Bool := (a.ways s).any (·.rest.isEmpty)

/-- The preferred way at the first place where there is one. -/
def find? (a : Pattern) : Text → Option Found
  | [] => (a.ways []).head?
  | c :: r => (a.ways (c :: r)).head?.or (find? a r)

/-- The texts that a pattern describes. -/
def Describes : Pattern → Text → Prop
  | one p, s => ∃ c, p c ∧ s = [c]
  | many p, s => ∀ c ∈ s, p c
  | next a b, s => ∃ u v, s = u ++ v ∧ a.Describes u ∧ b.Describes v
  | optional a, s => a.Describes s ∨ s = []
  | group a, s => a.Describes s

variable {p : Char → Bool} {a b : Pattern} {s u v : Text} {x y : Found}

private theorem mem_takings_cons {c : Char} {r : Text} :
    (u, v) ∈ takings p (c :: r) ↔
      (∃ u', p c ∧ (u', v) ∈ takings p r ∧ u = c :: u') ∨ u = [] ∧ v = c :: r := by
  rw [takings, List.mem_append, List.mem_singleton, Prod.mk.injEq]
  apply or_congr_left
  by_cases hc : p c
  · rw [if_pos hc, List.mem_map]
    constructor
    · rintro ⟨⟨u', v'⟩, hmem, heq⟩
      cases heq
      exact ⟨u', hc, hmem, rfl⟩
    · rintro ⟨u', -, hmem, rfl⟩
      exact ⟨(u', v), hmem, rfl⟩
  · rw [if_neg hc]
    exact ⟨nofun, fun ⟨_, hc', _⟩ => absurd hc' hc⟩

@[simp] theorem mem_takings : (u, v) ∈ takings p s ↔ s = u ++ v ∧ ∀ c ∈ u, p c := by
  induction s generalizing u with
  | nil => cases u <;> cases v <;> simp [takings]
  | cons c r ih =>
    rw [mem_takings_cons]
    constructor
    · rintro (⟨u', hc, hmem, rfl⟩ | ⟨rfl, rfl⟩)
      · obtain ⟨hr, hall⟩ := ih.1 hmem
        exact ⟨congrArg (c :: ·) hr, List.forall_mem_cons.2 ⟨hc, hall⟩⟩
      · exact ⟨rfl, nofun⟩
    · rintro ⟨hsplit, hall⟩
      cases u with
      | nil => exact .inr ⟨rfl, hsplit.symm⟩
      | cons d u =>
        obtain ⟨rfl, hr⟩ := List.cons.inj hsplit
        obtain ⟨hc, hall⟩ := List.forall_mem_cons.1 hall
        exact .inl ⟨u, hc, ih.2 ⟨hr, hall⟩, rfl⟩

/-- What is matched is described by the pattern, and what is left follows it. -/
theorem of_mem_ways (h : x ∈ a.ways s) : s = x.text ++ x.rest ∧ a.Describes x.text := by
  induction a generalizing s x with
  | one p =>
    cases s with
    | nil => cases h
    | cons c r =>
      change x ∈ if p c then [⟨[c], [], r⟩] else [] at h
      split at h
      · rename_i hc
        obtain rfl := List.mem_singleton.1 h
        exact ⟨rfl, c, hc, rfl⟩
      · cases h
  | many p =>
    obtain ⟨⟨u, v⟩, hmem, rfl⟩ := List.mem_map.1 h
    exact mem_takings.1 hmem
  | next a b iha ihb =>
    obtain ⟨x, hx, hmem⟩ := List.mem_flatMap.1 h
    obtain ⟨y, hy, rfl⟩ := List.mem_map.1 hmem
    obtain ⟨hs, ha⟩ := iha hx
    obtain ⟨hrest, hb⟩ := ihb hy
    refine ⟨?_, x.text, y.text, rfl, ha, hb⟩
    rw [hs, hrest, List.append_assoc]
  | optional a ih =>
    rcases List.mem_append.1 h with h | h
    · exact ⟨(ih h).1, .inl (ih h).2⟩
    · obtain rfl := List.mem_singleton.1 h
      exact ⟨rfl, .inr rfl⟩
  | group a ih =>
    obtain ⟨y, hy, rfl⟩ := List.mem_map.1 h
    exact ⟨(ih hy).1, (ih hy).2⟩

/-- A described text can be matched, whatever follows it. -/
theorem exists_mem_ways (h : a.Describes u) (v : Text) :
    ∃ x ∈ a.ways (u ++ v), x.text = u ∧ x.rest = v := by
  induction a generalizing u v with
  | one p =>
    obtain ⟨c, hc, rfl⟩ := h
    have hmem : ⟨[c], [], v⟩ ∈ if p c then [Found.mk [c] [] v] else [] := by simp [hc]
    exact ⟨⟨[c], [], v⟩, hmem, rfl, rfl⟩
  | many p => exact ⟨⟨u, [], v⟩, List.mem_map.2 ⟨(u, v), mem_takings.2 ⟨rfl, h⟩, rfl⟩, rfl, rfl⟩
  | next a b iha ihb =>
    obtain ⟨u, u', rfl, ha, hb⟩ := h
    obtain ⟨x, hx, hxu, hxrest⟩ := iha ha (u' ++ v)
    obtain ⟨y, hy, hyu, hyrest⟩ := ihb hb v
    refine ⟨⟨x.text ++ y.text, x.groups ++ y.groups, y.rest⟩, ?_, by rw [hxu, hyu], hyrest⟩
    rw [List.append_assoc]
    exact List.mem_flatMap.2 ⟨x, hx, List.mem_map.2 ⟨y, hxrest ▸ hy, rfl⟩⟩
  | optional a ih =>
    rcases h with h | rfl
    · obtain ⟨x, hx, hxu⟩ := ih h v
      exact ⟨x, List.mem_append_left _ hx, hxu⟩
    · exact ⟨_, List.mem_append_right _ (List.mem_singleton_self _), rfl, rfl⟩
  | group a ih =>
    obtain ⟨x, hx, hxu⟩ := ih h v
    exact ⟨_, List.mem_map.2 ⟨x, hx, rfl⟩, hxu⟩

@[simp] theorem matchesWhole_iff : a.matchesWhole s ↔ a.Describes s := by
  rw [matchesWhole, List.any_eq_true]
  constructor
  · rintro ⟨x, hx, hrest⟩
    obtain ⟨hs, hdescribes⟩ := of_mem_ways hx
    rwa [hs, List.isEmpty_iff.1 hrest, List.append_nil]
  · intro h
    obtain ⟨x, hx, -, hrest⟩ := exists_mem_ways h []
    rw [List.append_nil] at hx
    exact ⟨x, hx, List.isEmpty_iff.2 hrest⟩

/-- The way that is tried first succeeds. -/
def Prefers (a : Pattern) (s : Text) (x : Found) : Prop := (a.ways s).head? = some x

theorem prefers_one {c : Char} (hc : p c) (r : Text) : (one p).Prefers (c :: r) ⟨[c], [], r⟩ := by
  show (if p c then [Found.mk [c] [] r] else []).head? = _
  rw [if_pos hc, List.head?_cons]

/-- A repetition goes on up to a character outside its class. -/
theorem prefers_many (hu : ∀ c ∈ u, p c) (hv : ∀ c ∈ v.head?, p c = false) :
    (many p).Prefers (u ++ v) ⟨u, [], v⟩ := by
  have htakings : (takings p (u ++ v)).head? = some (u, v) := by
    induction u with
    | nil =>
      cases v with
      | nil => rfl
      | cons c v =>
        rw [List.nil_append, takings, if_neg (by simp [hv c rfl])]
        rfl
    | cons c u ih =>
      obtain ⟨hc, hu⟩ := List.forall_mem_cons.1 hu
      rw [List.cons_append, takings, if_pos hc, List.head?_append, List.head?_map, ih hu]
      rfl
  show ((takings p (u ++ v)).map _).head? = _
  rw [List.head?_map, htakings]
  rfl

theorem Prefers.next (h : a.Prefers s x) (h' : b.Prefers x.rest y) :
    (next a b).Prefers s ⟨x.text ++ y.text, x.groups ++ y.groups, y.rest⟩ := by
  obtain ⟨xs, hxs⟩ := List.head?_eq_some_iff.1 h
  obtain ⟨ys, hys⟩ := List.head?_eq_some_iff.1 h'
  show ((a.ways s).flatMap _).head? = _
  rw [hxs, List.flatMap_cons, hys]
  rfl

theorem Prefers.optional (h : a.Prefers s x) : (optional a).Prefers s x := by
  obtain ⟨xs, hxs⟩ := List.head?_eq_some_iff.1 h
  show (a.ways s ++ _).head? = _
  rw [hxs]
  rfl

/-- A part that does not match is left out. -/
theorem prefers_nothing (h : a.ways s = []) :
    (optional a).Prefers s ⟨[], List.replicate a.groupCount none, s⟩ := by
  show (a.ways s ++ _).head? = _
  rw [h]
  rfl

theorem Prefers.group (h : a.Prefers s x) :
    (group a).Prefers s ⟨x.text, some x.text :: x.groups, x.rest⟩ := by
  show ((a.ways s).map _).head? = _
  rw [List.head?_map, h]
  rfl

theorem Prefers.find? (h : a.Prefers s x) : a.find? s = some x := by
  cases s with
  | nil => exact h
  | cons c r =>
    rw [Pattern.find?, h]
    rfl

end Pattern

end CssLocator
