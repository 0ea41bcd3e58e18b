import CssLocator.Proofs.ReadCompounds

/-!
# Quoted values

A value is quoted by three replacements, one after the other. The quoted value is read as what the first
of them leaves: every double quote behind a backslash loses the backslash, and nothing else changes.
-/

namespace CssLocator

variable {old new s t u : Text}

/-- The second text is the first one with every occurrence of `old` replaced by `new`. Occurrences are
found from left to right, each behind the one before it. -/
inductive Text.Replaces (old new : Text) : Text → Text → Prop
  | nil : Replaces old new [] []
  | occurrence {s t : Text} (h : Replaces old new s t) : Replaces old new (old ++ s) (new ++ t)
  | other {c : Char} {s t : Text} (hc : ¬ old <+: c :: s) (h : Replaces old new s t) :
      Replaces old new (c :: s) (c :: t)

namespace Text.Replaces

theorem unique (hne : old ≠ []) (h : Replaces old new s t) (h' : Replaces old new s u) : u = t := by
  obtain ⟨x, old, rfl⟩ := List.exists_cons_of_ne_nil hne
  induction h generalizing u with
  | nil =>
    cases h'
    rfl
  | @occurrence s t h ih =>
    generalize hs : x :: old ++ s = w at h'
    cases h' with
    | nil => cases hs
    | occurrence h' =>
      cases List.append_cancel_left hs
      rw [ih h']
    | other hc =>
      rw [← hs] at hc
      exact absurd (List.prefix_append _ _) hc
  | @other c s t hc h ih =>
    generalize hs : c :: s = w at h'
    cases h' with
    | nil => cases hs
    | occurrence h' =>
      rw [hs] at hc
      exact absurd (List.prefix_append _ _) hc
    | other _ h' =>
      cases hs
      rw [ih h']

theorem length_le (hlength : new.length ≤ old.length) (h : Replaces old new s t) :
    t.length ≤ s.length := by
  induction h with
  | nil => exact Nat.le_refl 0
  | occurrence _ ih =>
    rw [List.length_append, List.length_append]
    omega
  | other _ _ ih => exact Nat.succ_le_succ ih

/-- A text in which something is replaced by less does not stay the same. -/
theorem eq_self_iff (hlength : new.length < old.length) (h : Replaces old new s t) :
    t = s ↔ ¬ old <:+: s := by
  constructor
  · rintro rfl hold
    have hless : ∀ {s t}, Replaces old new s t → old <:+: s → t.length < s.length := by
      intro s t h
      induction h with
      | nil =>
        intro hold
        rw [List.eq_nil_of_infix_nil hold] at hlength
        exact absurd hlength (Nat.not_lt_zero _)
      | occurrence h _ =>
        intro _
        have hrest := h.length_le (Nat.le_of_lt hlength)
        rw [List.length_append, List.length_append]
        omega
      | other hc _ ih =>
        intro hold
        exact Nat.succ_lt_succ (ih ((List.infix_cons_iff.1 hold).resolve_left hc))
    exact absurd (hless h hold) (Nat.lt_irrefl _)
  · intro hold
    induction h with
    | nil => rfl
    | occurrence _ _ => exact absurd (List.prefix_append _ _).isInfix hold
    | other _ _ ih => rw [ih fun hs => hold (List.infix_cons hs)]

end Text.Replaces

open Text

namespace Identifier

private theorem replaces_unescapeQuotes (s : Text) :
    Replaces ['\\', '"'] ['"'] s (unescapeQuotes s) := by
  fun_induction unescapeQuotes s with
  | case1 => exact .nil
  | case2 r ih => exact .occurrence ih
  | case3 c r hc ih =>
    refine .other ?_ ih
    rintro ⟨t, ht⟩
    cases ht
    exact hc t rfl rfl

end Identifier

open Identifier

@[simp] theorem read_quotedAttribute (value : Text) :
    SelectorList.read false ("[a=" ++ quoted value ++ "]") =
      .ok [[(.descendant, [.hasAttribute "a" (some (.equal, unescapeQuotes value))])]] := by
  have hname : ("a" : Text).all isWritable := by decide
  have hstart : ("a" : Text).head?.all (!Text.isSpace ·) := by decide
  have hspells := spells_attribute (List.cons_ne_nil 'a' []) (List.all_eq_true.1 hname)
    (by simpa using hstart) (some (.equal, value))
  have hwritten := Written.last hspells (hspells.last (getLast?_attributeNativeText _))
  have hread := hwritten.read
  rwa [List.flatten_cons, List.flatten_nil, List.append_nil] at hread

/-- A quoted value is read without the backslashes of its escaped double quotes, so it is kept exactly
if it has none. -/
theorem quoted_value_read_back (value : Text) :
    ∃ kept, (∀ other, Replaces ['\\', '"'] ['"'] value other ↔ other = kept) ∧
      SelectorList.read false ("[a=" ++ quoted value ++ "]") =
        .ok [[(.descendant, [.hasAttribute "a" (some (.equal, kept))])]] ∧
      (kept = value ↔ ¬ ['\\', '"'] <:+: value) := by
  have hkept := replaces_unescapeQuotes value
  refine ⟨_, fun other => ⟨fun h => ?_, ?_⟩, read_quotedAttribute value, hkept.eq_self_iff (by decide)⟩
  · exact hkept.unique (List.cons_ne_nil _ _) h
  · rintro rfl
    exact hkept

end CssLocator
