import CssLocator.NativeMatching
import CssLocator.Proofs.DoubleIntegers
import CssLocator.Proofs.PathConditions
import CssLocator.Proofs.WordTexts

/-!
# Compared values

The operators that compare attributes, and the positions that pseudo-classes select, mean the same in
both query languages: for operands that are not degenerate, values whose white space both languages
know, and numbers that doubles count exactly.

An argument selects the positions `a * n + b` for `n ≥ 0`. It does so in each of its forms: as it is
read, as it is written out again, and as a condition on positions in an expression.
-/

namespace CssLocator

open XPath

/-- Whether an operand means the same in both languages: one that must not be empty is not, and a word
is a word. -/
def AttributeOperator.isComparable (o : AttributeOperator) (wanted : Text) : Bool :=
  match o with
  | equal | dash => true
  | word => !wanted.isEmpty && wanted.all fun c => !Text.isSpace c
  | start | finish | anywhere => !wanted.isEmpty

/-- Whether the white space of a value is ASCII white space other than the vertical tab. -/
def Text.hasCommonSpace (value : Text) : Bool := value.all fun c => !isSpace c || isAsciiSpace c

private theorem Text.hasCommonSpace_iff {value : Text} :
    value.hasCommonSpace ↔ ∀ c ∈ value, isSpace c → isAsciiSpace c := by
  rw [hasCommonSpace, List.all_eq_true]
  apply forall₂_congr
  intro c _
  cases isSpace c <;> simp

@[simp] theorem after?_eq_some {u s rest : Text} : Text.after? u s = some rest ↔ s = u ++ rest := by
  induction u generalizing s with
  | nil => simp [Text.after?, eq_comm]
  | cons a u ih =>
    cases s with
    | nil => simp [Text.after?]
    | cons b s =>
      unfold Text.after?
      split
      · rename_i hab
        rw [ih, hab]
        simp
      · rename_i hab
        simp [Ne.symm hab]

@[simp] theorem any_after?_hyphen (wanted value : Text) :
    ((Text.after? wanted value).any fun rest => rest.head? == some '-') =
      (wanted ++ "-").isPrefixOf value := by
  rw [Bool.eq_iff_iff, Option.any_eq_true, List.isPrefixOf_iff_prefix]
  constructor
  · rintro ⟨rest, hrest, hhead⟩
    obtain ⟨rest', rfl⟩ := List.head?_eq_some_iff.1 (eq_of_beq hhead)
    exact ⟨rest', by rw [after?_eq_some.1 hrest]; simp⟩
  · rintro ⟨rest, hrest⟩
    refine ⟨'-' :: rest, after?_eq_some.2 ?_, rfl⟩
    rw [← hrest, List.append_assoc]
    rfl

private theorem filterMap_from (s : Text) (k : Nat) (a : Int) :
    ((s.zipIdx k).filterMap fun (c, i) => if a ≤ (i : Int) then some c else none) =
      s.drop (a - k).toNat := by
  induction s generalizing k with
  | nil => simp
  | cons c s ih =>
    rw [List.zipIdx_cons]
    by_cases ha : a ≤ k
    · have hnone : (a - k).toNat = 0 := by omega
      have hnext : (a - (k + 1 : Nat)).toNat = 0 := by omega
      simp only [List.filterMap_cons, if_pos ha]
      rw [ih, hnone, hnext, List.drop_zero, List.drop_zero]
    · have hsome : (a - k).toNat = (a - (k + 1 : Nat)).toNat + 1 := by omega
      rw [List.filterMap_cons_none (by simpa using ha), ih, hsome, List.drop_succ_cons]

/-- Positions are counted from one, and none is too great for an exact double. -/
theorem substring_ofInt {s : Text} (hs : s.length < 2 ^ 52) (a : Int) :
    XPath.substring s (.ofInt a) (.infinite false) = s.drop (a - 1).toNat := by
  have hdrop := filterMap_from s 1 a
  rw [Nat.cast_one] at hdrop
  rw [← hdrop]
  apply List.filterMap_congr
  rintro ⟨c, i⟩ hmem
  have hi : i < 1 + s.length := (List.mem_zipIdx hmem).2.1
  have hless : ∀ b : Int, (Double.ofInt b).less (.infinite false) = true := fun _ => rfl
  dsimp only
  rw [Double.ofNat_eq (by omega), Double.atMost_ofInt, hless, Bool.and_true]
  simp only [decide_eq_true_eq]

/-- What is left of a value from where an operand would begin that ends it. -/
theorem substring_suffix {value wanted : Text} (hvalue : value.length < 2 ^ 52)
    (hwanted : wanted.length ≤ value.length) :
    XPath.substring value (roundHalfUp (Double.ofNat value.length - .ofNat wanted.length + .ofNat 1))
        (.infinite false) =
      value.drop (value.length - wanted.length) := by
  rw [Double.ofNat_eq (by omega), Double.ofNat_eq (by omega), Double.ofNat_eq (by omega),
    Double.sub_ofInt (by omega), Double.add_ofInt (by omega), Double.roundHalfUp_ofInt (by omega),
    substring_ofInt hvalue]
  congr 1
  omega

private theorem length_substring_le (s : Text) (a b : Double) :
    (XPath.substring s a b).length ≤ s.length := by
  have hle := List.length_filterMap_le (fun (c, i) =>
    if a.atMost (.ofNat i) && (Double.ofNat i).less b then some c else none) (s.zipIdx 1)
  rwa [List.length_zipIdx] at hle

private theorem drop_eq_iff_suffix {value wanted : Text} :
    value.drop (value.length - wanted.length) = wanted ↔ wanted <:+ value := by
  constructor
  · intro h
    exact h ▸ List.drop_suffix _ _
  · intro h
    exact (List.suffix_iff_eq_drop.1 h).symm

/-- When an operator means the same in both languages for the value of an attribute, if there is one.
An operand that must not be empty is not, and words in a row are found if and only if the operand is
one of the words between ASCII white space. -/
def AttributeOperator.Agrees (found : Option Text) (wanted : Text) : AttributeOperator → Prop
  | equal | dash => True
  | word =>
    Text.IsRun wanted (Text.words Text.isSpace (found.getD [])) ↔
      wanted ∈ Text.words Text.isAsciiSpace (found.getD [])
  | start | finish | anywhere => wanted ≠ []

theorem pathHolds_word_iff {found : Option Text} {wanted : Text} :
    AttributeOperator.word.pathHolds found wanted ↔
      Text.IsRun wanted (Text.words Text.isSpace (found.getD [])) :=
  Text.occursIn_run fun _ hv => Text.not_blank_of_mem_words hv

private theorem pathHolds_finish (text : Text) {wanted : Text} (hlength : text.length < 2 ^ 52) :
    AttributeOperator.finish.pathHolds (some text) wanted = wanted.isSuffixOf text := by
  rw [AttributeOperator.pathHolds, Bool.eq_iff_iff, beq_iff_eq, List.isSuffixOf_iff_suffix]
  dsimp only [Option.getD]
  by_cases hshort : wanted.length ≤ text.length
  · rw [substring_suffix hlength hshort, drop_eq_iff_suffix]
  · -- A longer operand is not even a piece of the value.
    constructor
    · intro heq
      have hle := length_substring_le text (roundHalfUp
        (Double.ofNat text.length - .ofNat wanted.length + .ofNat 1)) (.infinite false)
      rw [heq] at hle
      exact absurd hle hshort
    · intro hsuffix
      exact absurd hsuffix.length_le hshort

/-- Without a check for empty operands a comparison that succeeds for them differs from the one with
the check, and only for them. A missing attribute has an empty text. -/
theorem any_nonempty_iff (compare : Text → Text → Bool) (hempty : ∀ text, compare [] text = true)
    (hmissing : ∀ wanted, wanted ≠ [] → compare wanted [] = false) {found : Option Text}
    {wanted : Text} :
    (compare wanted (found.getD []) =
      found.any fun value => !wanted.isEmpty && compare wanted value) ↔ wanted ≠ [] := by
  by_cases hne : wanted = []
  · subst hne
    rw [hempty]
    cases found <;> simp
  · have hnonempty : wanted.isEmpty = false := by simpa using hne
    cases found with
    | none => simp [hmissing wanted hne, hne]
    | some value => simp [hnonempty, hne]

/-- Exactly when attributes compare alike in both languages. -/
theorem AttributeOperator.pathHolds_eq_iff {o : AttributeOperator} {found : Option Text}
    {wanted : Text} (hlength : ∀ value ∈ found, value.length < 2 ^ 52) :
    o.pathHolds found wanted = found.any (o.holds · wanted) ↔ o.Agrees found wanted := by
  cases o with
  | equal => cases found <;> exact ⟨fun _ => trivial, fun _ => rfl⟩
  | word =>
    have hwords : found.any (word.holds · wanted) ↔
        wanted ∈ Text.words Text.isAsciiSpace (found.getD []) := by
      cases found with
      | none => exact ⟨nofun, nofun⟩
      | some value => exact List.contains_iff_mem
    rw [Bool.eq_iff_iff, pathHolds_word_iff, hwords]
    rfl
  | dash =>
    refine ⟨fun _ => trivial, fun _ => ?_⟩
    cases found with
    | none =>
      show (false || (wanted ++ "-").isPrefixOf []) = false
      cases wanted <;> rfl
    | some value =>
      show (some value == some wanted || (wanted ++ "-").isPrefixOf value) = _
      rw [← any_after?_hyphen]
      rfl
  | start =>
    refine any_nonempty_iff List.isPrefixOf (fun text => rfl) fun wanted hne => ?_
    cases wanted with
    | nil => exact absurd rfl hne
    | cons c wanted => rfl
  | finish =>
    have hsuffix : finish.pathHolds found wanted = wanted.isSuffixOf (found.getD []) := by
      cases found with
      | none => exact pathHolds_finish [] (by decide)
      | some value => exact pathHolds_finish value (hlength value rfl)
    rw [hsuffix]
    refine any_nonempty_iff List.isSuffixOf (fun text => ?_) fun wanted hne => ?_
    · exact List.isSuffixOf_iff_suffix.2 List.nil_suffix
    · rw [Bool.eq_false_iff]
      intro hmem
      exact hne (List.suffix_nil.1 (List.isSuffixOf_iff_suffix.1 hmem))
  | anywhere =>
    refine any_nonempty_iff Text.occursIn (fun text => ?_) fun wanted hne => ?_
    · exact Text.occursIn_iff.2 List.nil_infix
    · simpa [Text.occursIn] using hne

/-- Attributes compare alike in both languages. -/
theorem AttributeOperator.pathHolds_eq {o : AttributeOperator} {found : Option Text} {wanted : Text}
    (hwanted : o.isComparable wanted) (hspace : ∀ value ∈ found, Text.hasCommonSpace value)
    (hlength : ∀ value ∈ found, value.length < 2 ^ 52) :
    o.pathHolds found wanted = found.any (o.holds · wanted) := by
  rw [pathHolds_eq_iff hlength]
  have hnonempty : (!wanted.isEmpty) = true → wanted ≠ [] := by simp
  cases o with
  | equal => trivial
  | dash => trivial
  | word =>
    rw [isComparable, Bool.and_eq_true, List.all_eq_true] at hwanted
    have hblank : ' ' ∉ wanted := by
      intro hmem
      cases hwanted.2 ' ' hmem
    have hcommon : ∀ c ∈ found.getD [], Text.isSpace c → Text.isAsciiSpace c := by
      cases found with
      | none => exact nofun
      | some value => exact Text.hasCommonSpace_iff.1 (hspace value rfl)
    rw [Agrees, Text.isRun_iff_mem (hnonempty hwanted.1) hblank, Text.words_isSpace hcommon]
  | _ => exact hnonempty hwanted

private theorem integer_eq {i : Int} (h : i.natAbs ≤ 2 ^ 53) : integer i = .ofInt i := by
  unfold integer
  rw [Double.ofNat_eq h]
  split
  · rename_i hneg
    have habs : ((i.natAbs : Int) : Rat) = -(i : Rat) := by
      rw [← Int.cast_neg]
      congr 1
      omega
    show Double.neg (.finite _) = _
    rw [habs]
    have hne : -(i : Rat) ≠ 0 := neg_ne_zero.2 (Int.cast_ne_zero.2 (by omega))
    rw [Double.neg, if_neg hne, neg_neg]
    rfl
  · congr 1
    omega

private theorem AnPlusB.bounds_of_readable {r : AnPlusB} (h : r.Readable) :
    (r.step.getD 0).natAbs ≤ 2 ^ 31 ∧ (r.offset.getD 0).natAbs ≤ 2 ^ 31 := by
  have hfits : ∀ {i : Int}, fits i → i.natAbs ≤ 2 ^ 31 := by
    intro i hi
    unfold fits at hi
    simp only [Bool.and_eq_true, decide_eq_true_eq] at hi
    have hlimit : Nat.pow 2 31 = 2147483648 := rfl
    omega
  cases h with
  | offset b hb => exact ⟨by simp, hfits hb⟩
  | step a ha => exact ⟨hfits ha, by simp⟩
  | both a b ha _ hb => exact ⟨hfits ha, hfits hb⟩

/-- Both languages select the same positions. -/
theorem AnPlusB.pathSelects_eq {r : AnPlusB} (h : r.Readable) {i : Int}
    (hi : i.natAbs + 2 ^ 31 ≤ 2 ^ 53) : r.pathSelects (.ofInt i) = r.selects i := by
  obtain ⟨hstep, hoffset⟩ := bounds_of_readable h
  unfold pathSelects selects
  dsimp only
  rw [integer_eq (by omega), integer_eq (by omega)]
  split
  · exact Double.equals_ofInt
  · rename_i hne
    rw [Double.sub_ofInt (by omega), Double.ofNat_eq (by omega), Nat.cast_zero,
      Double.isZero_rem hne, Double.atMost_ofInt]

theorem AnPlusB.pathSelects_fromStart {r : AnPlusB} (h : r.Readable) {k : Nat}
    (hk : k + 2 ^ 31 ≤ 2 ^ 53) : r.pathSelects (.ofNat k) = r.selects k := by
  rw [Double.ofNat_eq (by omega), pathSelects_eq h (by omega)]

theorem AnPlusB.pathSelects_fromEnd {r : AnPlusB} (h : r.Readable) {k n : Nat} (hk : 0 < k)
    (hkn : k ≤ n) (hn : n + 2 ^ 31 ≤ 2 ^ 53) :
    r.pathSelects (.ofNat n - .ofNat k + .ofNat 1) = r.selects (n - k + 1) := by
  rw [Double.ofNat_eq (by omega), Double.ofNat_eq (by omega), Double.ofNat_eq (by omega),
    Double.sub_ofInt (by omega), Double.add_ofInt (by omega), pathSelects_eq h (by omega)]
  rfl

namespace AnPlusB

variable {r : AnPlusB}

private theorem step_nonneg (h : r.Readable) : 0 ≤ r.step.getD 0 := by
  cases h with
  | offset => exact Int.le_refl 0
  | step _ _ hpos => exact hpos
  | both _ _ _ hpos => exact hpos

/-- The remainder is taken towards zero, but only positions from the offset on are tested with it. -/
theorem selects_iff (hstep : 0 ≤ r.step.getD 0) (position : Int) :
    r.selects position ↔ ∃ n : Nat, r.step.getD 0 * n + r.offset.getD 0 = position := by
  rw [selects]
  generalize r.step.getD 0 = a at hstep ⊢
  generalize r.offset.getD 0 = b
  by_cases ha : a = 0
  · simp [ha, eq_comm]
  · rw [if_neg ha, Bool.and_eq_true, decide_eq_true_eq, decide_eq_true_eq]
    constructor
    · rintro ⟨hmod, hle⟩
      obtain ⟨n, hn⟩ := Int.dvd_of_tmod_eq_zero hmod
      have hnonneg : 0 ≤ n := Int.nonneg_of_mul_nonneg_right (by omega) (by omega : 0 < a)
      exact ⟨n.toNat, by rw [Int.toNat_of_nonneg hnonneg]; omega⟩
    · rintro ⟨n, rfl⟩
      have hnonneg : 0 ≤ a * n := Int.mul_nonneg hstep (Int.natCast_nonneg n)
      rw [Int.add_sub_cancel]
      exact ⟨Int.mul_tmod_right a n, by omega⟩

private theorem parse_pathText_fromStart (r : AnPlusB) :
    XPath.parse (r.pathText "position()") = .ok (XPath.positionExpr XPath.fromStart r) :=
  (XPath.spelled_structural .nthChild r).parse

private theorem parse_pathText_fromEnd (r : AnPlusB) :
    XPath.parse (r.pathText "(last() - position() + 1)") = .ok (XPath.positionExpr XPath.fromEnd r) :=
  (XPath.spelled_structural .nthLastChild r).parse

/-- The readings of an accepted argument agree: the positions it selects are those that its step and
offset describe, its spelling as a selector is read as the same argument, and its conditions on the
position from the start and from the end hold for the positions that are selected. -/
theorem readings_agree {pseudo argument : Text} (h : ofArgument pseudo argument = .ok r) (name : Text)
    {position size : Nat} (hposition : 1 ≤ position) (hle : position ≤ size) (hsize : size < 2 ^ 52) :
    (r.selects position ↔ ∃ n : Nat, r.step.getD 0 * n + r.offset.getD 0 = position) ∧
    (∃ text, r.nativeText name = ":" ++ name ++ "(" ++ text ++ ")" ∧ ofArgument name text = .ok r) ∧
    (∃ e, XPath.parse (r.pathText "position()") = .ok e ∧
      ∀ d order node, XPath.eval d order e ⟨node, position, size⟩ = .ok (.boolean (r.selects position))) ∧
    ∃ e, XPath.parse (r.pathText "(last() - position() + 1)") = .ok e ∧
      ∀ d order node, XPath.eval d order e ⟨node, position, size⟩ =
        .ok (.boolean (r.selects (size - position + 1))) := by
  have hreadable := readable_of_ofArgument h
  refine ⟨selects_iff (step_nonneg hreadable) position, ⟨r.text, rfl, ofArgument_text hreadable name⟩,
    ⟨_, parse_pathText_fromStart r, fun d order node => ?_⟩,
    ⟨_, parse_pathText_fromEnd r, fun d order node => ?_⟩⟩
  · rw [← pathSelects_fromStart hreadable (by omega)]
    exact XPath.hasValue_start.position r
  · rw [← pathSelects_fromEnd hreadable hposition hle (by omega)]
    exact XPath.hasValue_end.position r

theorem readings_agree_stepOffset :
    ofArgument "nth-child" " 3n -2" = .ok ⟨some 3, some (-2)⟩ ∧
    (∃ e, XPath.parse (pathText "position()" ⟨some 3, some (-2)⟩) = .ok e ∧
      ∀ d order node, XPath.eval d order e ⟨node, 4, 8⟩ = .ok (.boolean true)) ∧
    ∃ e, XPath.parse (pathText "(last() - position() + 1)" ⟨some 3, some (-2)⟩) = .ok e ∧
      ∀ d order node, XPath.eval d order e ⟨node, 4, 8⟩ = .ok (.boolean false) := by
  have hread : ofArgument "nth-child" " 3n -2" = .ok ⟨some 3, some (-2)⟩ := by decide
  obtain ⟨-, -, hstart, hend⟩ := readings_agree hread "nth-child" (by decide : 1 ≤ 4)
    (by decide : 4 ≤ 8) (by decide)
  exact ⟨hread, hstart, hend⟩

end AnPlusB

end CssLocator
