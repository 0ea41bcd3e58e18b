import CssLocator.Proofs.CompiledPlans
import CssLocator.Proofs.ReadConditions
import CssLocator.Proofs.ReadSelectors
import CssLocator.Proofs.Texts

/-!
# Reading written compounds

The conditions of a compound, written one after the other, are read as a list of one complex
selector with this compound alone. A step's native locator is such a text.
-/

namespace CssLocator

open Identifier

variable {u : Text} {us : List Text} {x : SimpleSelector} {xs : Compound}

/-- The texts of the conditions of a compound, one after the other. -/
inductive Written : List Text → Compound → Prop
  | last {u : Text} {x : SimpleSelector} (h : Spells u x) (hlast : SpellsLast u x) : Written [u] [x]
  | cons {u v : Text} {us : List Text} {x : SimpleSelector} {xs : Compound} (h : Spells u x)
      (hv : ∀ c ∈ v.head?, startsCondition c) (hrest : Written (v :: us) xs) :
      Written (u :: v :: us) (x :: xs)

theorem splitOuterCommas_of_unsplit (h : Unsplit .outside u .outside) :
    splitOuterCommas .outside u = [u] := by
  have hwhole := h []
  rwa [List.append_nil, splitOuterCommas, Text.foldr_extendHead, List.append_nil] at hwhole

@[simp] theorem readCompoundTail_nil : readCompoundTail [] = .ok ([], []) := by
  unfold readCompoundTail
  rfl

theorem readCompoundTail_cons {c : Char} {s rest rest' : Text} (hends : endsCompound c = false)
    (htype : startsType c = false) (hx : readSimple (c :: s) = .ok (x, rest))
    (hxs : readCompoundTail rest = .ok (xs, rest')) :
    readCompoundTail (c :: s) = .ok (x :: xs, rest') := by
  unfold readCompoundTail
  rw [if_neg (by simp [hends]), if_neg (by simp [htype])]
  split
  · rename_i h
    rw [hx] at h
    cases h
  · rename_i h
    rw [hx] at h
    cases h
    rw [hxs]

theorem readCompound_cons {s rest rest' : Text} (hx : readSimple s = .ok (x, rest))
    (hxs : readCompoundTail rest = .ok (xs, rest')) : readCompound s = .ok (x :: xs, rest') := by
  rw [readCompound, hx]
  dsimp only
  rw [hxs]

/-- After a compound the chain ends, or goes on behind a combinator. -/
theorem readChain_cons {k : Combinator} {c : Char} {s r : Text} (hc : combinatorOf? c = none)
    (hcompound : readCompound (c :: s) = .ok (xs, r)) :
    (Text.skipSpace r = [] → readChain k (c :: s) = .ok [(k, xs)]) ∧
      ∀ d r', Text.skipSpace r = d :: r' →
        (∀ k', combinatorOf? d = some k' →
          readChain k (c :: s) = (readChain k' (Text.skipSpace r')).map ((k, xs) :: ·)) ∧
        (combinatorOf? d = none →
          readChain k (c :: s) = (readChain .descendant (d :: r')).map ((k, xs) :: ·)) := by
  rw [readChain, if_neg (by simp [hc])]
  split
  · rename_i hread
    rw [hcompound] at hread
    cases hread
  · rename_i hread
    rw [hcompound] at hread
    cases hread
    split
    · rename_i hskip
      exact ⟨fun _ => rfl, fun d r' h => by rw [hskip] at h; cases h⟩
    · rename_i hskip
      refine ⟨fun h => ?_, fun d r' h => ?_⟩
      · rw [hskip] at h
        cases h
      · rw [hskip] at h
        cases h
        exact ⟨fun k' hk => by simp only [hk], fun hnone => by simp only [hnone]⟩

theorem trim_eq_trimEnd (h : ∀ c ∈ u.head?, Text.isSpace c = false) : Text.trim u = trimEnd u := by
  show trimEnd (Text.skipSpace u) = _
  rw [skipSpace_of_head h]

/-- A text is a list of one compound if no comma splits it and nothing but the compound stands in it. -/
theorem read_of_readCompound {relative : Bool} {c : Char} {s : Text}
    (hsplit : Unsplit .outside u .outside) (htrim : Text.trim u = c :: s)
    (hcombinator : combinatorOf? c = none) (hcompound : readCompound (c :: s) = .ok (xs, [])) :
    SelectorList.read relative u = .ok [[(.descendant, xs)]] := by
  have hchain := (readChain_cons (k := .descendant) hcombinator hcompound).1 rfl
  have hcomplex : readComplex relative u = .ok [(.descendant, xs)] := by
    rw [readComplex, htrim]
    dsimp only
    rw [hcombinator]
    exact hchain
  rw [SelectorList.read, htrim, splitOuterCommas_of_unsplit hsplit]
  simp [Loop.map, hcomplex, bind, Except.bind, pure, Except.pure, Except.mapError]

namespace Written

private theorem spells_head (h : Written (u :: us) xs) : ∃ x, Spells u x := by
  cases h with
  | last h => exact ⟨_, h⟩
  | cons h => exact ⟨_, h⟩

theorem unsplit (h : Written us xs) : Unsplit .outside us.flatten .outside := by
  induction h with
  | last h _ => simpa using h.unsplit
  | cons h _ _ ih => exact h.unsplit.append ih

/-- Without trailing white space the text begins as it did before. -/
theorem trimEnd_eq_cons (h : Written (u :: us) xs) :
    ∃ c r s, u = c :: r ∧ trimEnd (u :: us).flatten = c :: s ∧ Text.isSpace c = false ∧
      combinatorOf? c = none := by
  obtain ⟨x, hx⟩ := h.spells_head
  obtain ⟨c, r, rfl⟩ := List.exists_cons_of_ne_nil hx.ne_nil
  obtain ⟨hspace, hcombinator⟩ := hx.head c rfl
  exact ⟨c, r, _, rfl, trimEnd_cons hspace (r ++ us.flatten), hspace, hcombinator⟩

theorem readSimple (h : Written us xs) :
    ∃ x ys rest, xs = x :: ys ∧ CssLocator.readSimple (trimEnd us.flatten) = .ok (x, rest) ∧
      readCompoundTail rest = .ok (ys, []) := by
  induction h with
  | @last u x _ hlast =>
    refine ⟨x, [], [], rfl, ?_, readCompoundTail_nil⟩
    rw [List.flatten_cons, List.flatten_nil, List.append_nil]
    exact hlast
  | @cons u v us x xs h hv hrest ih =>
    obtain ⟨y, ys, rest, rfl, hy, hys⟩ := ih
    obtain ⟨c, r, s, rfl, htrim, -⟩ := hrest.trimEnd_eq_cons
    have hc : startsCondition c := hv c rfl
    rw [htrim] at hy
    have hne : trimEnd ((c :: r) :: us).flatten ≠ [] := by
      rw [htrim]
      exact List.cons_ne_nil c s
    have hwhole : trimEnd (u ++ ((c :: r) :: us).flatten) = u ++ c :: s := by
      rw [trimEnd_append hne, htrim]
    refine ⟨x, y :: ys, c :: s, rfl, ?_, readCompoundTail_cons
      (not_endsCompound_of_startsCondition hc) (not_startsType_of_startsCondition hc) hy hys⟩
    rw [List.flatten_cons, hwhole]
    exact h.read (c :: s) (Continues.endsSimple (by simpa [Continues] using hc))

theorem readCompound (h : Written us xs) :
    CssLocator.readCompound (trimEnd us.flatten) = .ok (xs, []) := by
  obtain ⟨x, ys, rest, rfl, hx, hys⟩ := h.readSimple
  exact readCompound_cons hx hys

theorem read (h : Written us xs) :
    SelectorList.read false us.flatten = .ok [[(.descendant, xs)]] := by
  obtain ⟨u, us, rfl⟩ : ∃ u us', us = u :: us' := by
    cases h with
    | last => exact ⟨_, _, rfl⟩
    | cons => exact ⟨_, _, rfl⟩
  have hcompound := h.readCompound
  obtain ⟨c, r, s, rfl, htrim, hspace, hcombinator⟩ := h.trimEnd_eq_cons
  rw [htrim] at hcompound
  refine read_of_readCompound h.unsplit ?_ hcombinator hcompound
  rw [← htrim]
  exact trim_eq_trimEnd (by simpa using hspace)

end Written

/-- The text that a part contributes to a native locator. -/
def StepPart.written? : StepPart → Option Text
  | tag name => some (escape name)
  | condition text _ _ => some text
  | _ => none

private theorem flatMap_nativeText {parts : List StepPart} (h : ∀ p ∈ parts, p.tag? = none) :
    parts.flatMap (·.nativeText) = (parts.filterMap (·.written?)).flatten := by
  induction parts with
  | nil => rfl
  | cons p parts ih =>
    have ih := ih fun q hq => h q (List.mem_cons_of_mem p hq)
    have hp := h p List.mem_cons_self
    rw [List.flatMap_cons, ih]
    cases p with
    | tag name => cases hp
    | _ => rfl

private theorem nativeExpression_of_no_tag {parts : List StepPart} (htag : ∀ p ∈ parts, p.tag? = none)
    (hne : ∀ p ∈ parts, p.written? ≠ some []) :
    nativeExpression parts =
      if parts.filterMap (·.written?) = [] then ['*'] else (parts.filterMap (·.written?)).flatten := by
  have hnone : parts.findSome? (·.tag?) = none := by simpa [List.findSome?_eq_none_iff] using htag
  rw [nativeExpression, hnone, flatMap_nativeText htag]
  cases hwritten : parts.filterMap (·.written?) with
  | nil => rfl
  | cons u us =>
    have hu : u ≠ [] := by
      rintro rfl
      obtain ⟨p, hp, hnil⟩ := List.mem_filterMap.1 (hwritten ▸ List.mem_cons_self)
      exact hne p hp hnil
    simp [hu]

/-- A type comes first; without anything that can be written there is an asterisk. -/
theorem nativeExpression_eq {parts : List StepPart} (htag : ∀ p ∈ parts.tail, p.tag? = none)
    (hne : ∀ p ∈ parts, p.written? ≠ some []) :
    nativeExpression parts =
      if parts.filterMap (·.written?) = [] then ['*'] else (parts.filterMap (·.written?)).flatten := by
  cases parts with
  | nil => rfl
  | cons p ps =>
    rw [List.tail_cons] at htag
    cases hp : p.tag? with
    | none => exact nativeExpression_of_no_tag (List.forall_mem_cons.2 ⟨hp, htag⟩) hne
    | some name =>
      cases p with
      | tag name' =>
        cases hp
        have hcons : (StepPart.tag name :: ps).filterMap (·.written?) =
            escape name :: ps.filterMap (·.written?) := List.filterMap_cons_some rfl
        rw [hcons, if_neg (List.cons_ne_nil _ _), List.flatten_cons, ← flatMap_nativeText htag]
        rfl
      | nothing => cases hp
      | condition => cases hp
      | filter => cases hp

end CssLocator
