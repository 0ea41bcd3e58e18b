import CssLocator.Proofs.ArgumentGrammar
import CssLocator.Proofs.TextPatterns

/-!
# Arguments by patterns

The an+b notation is also described by patterns: three of them tell the shape of an argument, a fourth
one takes it apart, and only then the digits are read as numbers. Digits of other scripts may pass the
patterns, but they write no numbers; so what is read is the same.
-/

namespace CssLocator

/-- A class of digits that has no other ASCII characters than the ASCII digits, and no white space. -/
structure IsDigitClass (digit : Char → Bool) : Prop where
  ascii : ∀ c, Text.isAscii c → digit c = c.isDigit
  visible : ∀ c, digit c → Text.isSpace c = false

/-- The ASCII and the Arabic-Indic digits. -/
theorem isDigitClass_arabicIndic :
    IsDigitClass fun c => c.isDigit || (0x660 ≤ c.toNat && c.toNat ≤ 0x669) where
  ascii c hc := by
    have hlt : c.toNat < 128 := of_decide_eq_true hc
    have hother : decide (0x660 ≤ c.toNat) = false := decide_eq_false (by omega)
    rw [hother, Bool.false_and, Bool.or_false]
  visible c hc := by
    rcases (Bool.or_eq_true _ _).mp hc with hc | hc
    · exact Identifier.isSpace_of_isDigit hc
    · simp only [Bool.and_eq_true, decide_eq_true_eq] at hc
      simp [Text.isSpace]
      omega

namespace AnPlusB

def isSign (c : Char) : Bool := c == '+' || c == '-'

/-- The number that a text writes after an optional sign, in range. -/
def int? (s : Text) : Option Int := if s.head?.any isSign then signed? s else unsigned? s

/-- The number of a matched text, its white space and a plus sign at its front being dropped. -/
def matched? (s : Text) : Option Int :=
  let compact := s.filter (!Text.isSpace ·)
  int? ((Text.after? "+" compact).getD compact)

section Patterns

variable (digit : Char → Bool)

def digitsPattern : Pattern := .next (.one digit) (.many digit)

def offsetPattern : Pattern := .next (.optional (.one isSign)) (digitsPattern digit)

def stepPattern : Pattern := .next (digitsPattern digit) (.one (· == 'n'))

/-- The sign of the offset is not required here. -/
def bothPattern : Pattern :=
  .next (digitsPattern digit) <| .next (.one (· == 'n')) <|
    .next (.many Text.isSpace) (offsetPattern digit)

/-- What may follow the letter. Here the sign is required. -/
def signedPattern : Pattern :=
  .next (.many Text.isSpace) <| .group <| .next (.one isSign) <|
    .next (.many Text.isSpace) (digitsPattern digit)

/-- Its groups are the digits of the step and the offset with its sign. -/
def partsPattern : Pattern :=
  .next (.group (digitsPattern digit)) <| .next (.one (· == 'n')) <| .optional (signedPattern digit)

/-- The argument whose step and offset have been taken out. -/
def ofParts? : List (Option Text) → Option AnPlusB
  | [some step, some offset] =>
    (matched? step).bind fun a => (matched? offset).map fun b => ⟨some a, some b⟩
  | _ => none

/-- Reads a trimmed argument by its shape. -/
def readByPatterns? (s : Text) : Option AnPlusB :=
  if (offsetPattern digit).matchesWhole s then (matched? s).map fun b => ⟨none, some b⟩
  else if (stepPattern digit).matchesWhole s then (matched? s.dropLast).map fun a => ⟨some a, none⟩
  else if (bothPattern digit).matchesWhole s then
    (((partsPattern digit).find? s).map (·.groups)).bind ofParts?
  else none

end Patterns

variable {digit : Char → Bool} {s t w : Text} {c : Char}

@[simp] theorem describes_digits : (digitsPattern digit).Describes s ↔ s ≠ [] ∧ ∀ c ∈ s, digit c := by
  constructor
  · rintro ⟨u, v, rfl, ⟨c, hc, rfl⟩, hv⟩
    exact ⟨by simp, List.forall_mem_cons.2 ⟨hc, hv⟩⟩
  · rintro ⟨hne, hall⟩
    obtain ⟨c, r, rfl⟩ := List.exists_cons_of_ne_nil hne
    obtain ⟨hc, hr⟩ := List.forall_mem_cons.1 hall
    exact ⟨[c], r, rfl, ⟨c, hc, rfl⟩, hr⟩

@[simp] theorem describes_offset : (offsetPattern digit).Describes s ↔
    (digitsPattern digit).Describes s ∨
      ∃ c t, s = c :: t ∧ isSign c ∧ (digitsPattern digit).Describes t := by
  constructor
  · rintro ⟨u, t, rfl, ⟨c, hc, rfl⟩ | rfl, ht⟩
    · exact .inr ⟨c, t, rfl, hc, ht⟩
    · exact .inl ht
  · rintro (h | ⟨c, t, rfl, hc, ht⟩)
    · exact ⟨[], s, rfl, .inr rfl, h⟩
    · exact ⟨[c], t, rfl, .inl ⟨c, hc, rfl⟩, ht⟩

@[simp] theorem describes_step : (stepPattern digit).Describes s ↔
    ∃ u, s = u ++ ['n'] ∧ (digitsPattern digit).Describes u := by
  constructor
  · rintro ⟨u, v, rfl, hu, c, hc, rfl⟩
    obtain rfl : c = 'n' := by simpa using hc
    exact ⟨u, rfl, hu⟩
  · rintro ⟨u, rfl, hu⟩
    exact ⟨u, ['n'], rfl, hu, 'n', by simp, rfl⟩

@[simp] theorem describes_both : (bothPattern digit).Describes s ↔
    ∃ u w t, s = u ++ 'n' :: (w ++ t) ∧ (digitsPattern digit).Describes u ∧
      (∀ c ∈ w, Text.isSpace c) ∧ (offsetPattern digit).Describes t := by
  constructor
  · rintro ⟨u, _, rfl, hu, _, _, rfl, ⟨c, hc, rfl⟩, w, t, rfl, hw, ht⟩
    obtain rfl : c = 'n' := by simpa using hc
    exact ⟨u, w, t, rfl, hu, hw, ht⟩
  · rintro ⟨u, w, t, rfl, hu, hw, ht⟩
    exact ⟨u, _, rfl, hu, ['n'], _, rfl, ⟨'n', by simp, rfl⟩, w, t, rfl, hw, ht⟩

private theorem prefers_digits (hs : (digitsPattern digit).Describes s)
    (ht : ∀ c ∈ t.head?, digit c = false) : (digitsPattern digit).Prefers (s ++ t) ⟨s, [], t⟩ := by
  obtain ⟨_, v, rfl, ⟨c, hc, rfl⟩, hv⟩ := hs
  exact (Pattern.prefers_one hc (v ++ t)).next (Pattern.prefers_many hv ht)

private theorem eq_of_isSign (hc : isSign c) : c = '+' ∨ c = '-' := by simpa [isSign] using hc

private theorem isSpace_of_isSign (hc : isSign c) : Text.isSpace c = false := by
  rcases eq_of_isSign hc with rfl | rfl <;> decide

section DigitClass

variable (hdigit : IsDigitClass digit)

include hdigit

private theorem not_digit_of_isSign (hc : isSign c) : ¬digit c := by
  have hascii : Text.isAscii c ∧ c.isDigit = false := by
    rcases eq_of_isSign hc with rfl | rfl <;> decide
  rw [hdigit.ascii c hascii.1, hascii.2]
  exact Bool.false_ne_true

private theorem not_digit_letter : digit 'n' = false := by
  rw [hdigit.ascii _ (by decide)]
  decide

private theorem filter_visible (hs : ∀ c ∈ s, digit c) : s.filter (!Text.isSpace ·) = s := by
  rw [List.filter_eq_self]
  intro c hc
  rw [hdigit.visible c (hs c hc)]
  rfl

private theorem int?_digits (hs : ∀ c ∈ s, digit c) : int? s = unsigned? s := by
  refine if_neg fun hsign => ?_
  obtain ⟨c, hc, hsign⟩ := (Option.any_eq_true _ _).1 hsign
  exact not_digit_of_isSign hdigit hsign (hs c (List.mem_of_mem_head? hc))

private theorem matched?_digits (hs : ∀ c ∈ s, digit c) : matched? s = unsigned? s := by
  have hafter : Text.after? "+" s = none := by
    cases s with
    | nil => rfl
    | cons d s =>
      refine if_neg ?_
      rintro rfl
      exact not_digit_of_isSign hdigit (by decide) (hs '+' List.mem_cons_self)
  rw [matched?, filter_visible hdigit hs, hafter]
  exact int?_digits hdigit hs

private theorem matched?_signed (hc : isSign c) (hs : ∀ d ∈ s, digit d) :
    matched? (c :: s) = signed? (c :: s) := by
  have hfilter : (c :: s).filter (!Text.isSpace ·) = c :: s := by
    rw [List.filter_cons_of_pos (by simp [isSpace_of_isSign hc]), filter_visible hdigit hs]
  rw [matched?, hfilter]
  rcases eq_of_isSign hc with rfl | rfl
  · show int? s = _
    rw [int?_digits hdigit hs, unsigned?, signed?]
    by_cases hdigits : s ≠ [] ∧ s.all Char.isDigit
    · rw [if_pos hdigits]
      simp [hdigits]
    · rw [if_neg hdigits, if_neg fun h => hdigits ⟨h.1, h.2.1⟩]
  · rfl

/-- After the step and its letter comes the rest of the pattern. -/
theorem groups_of_prefers {x : Pattern.Found} (hs : (digitsPattern digit).Describes s)
    (hrest : (Pattern.optional (signedPattern digit)).Prefers t x) :
    ((partsPattern digit).find? (s ++ 'n' :: t)).map (·.groups) = some (some s :: x.groups) := by
  have hend : ∀ c ∈ ('n' :: t).head?, digit c = false := by
    intro c hc
    cases hc
    exact not_digit_letter hdigit
  have hletter := (Pattern.prefers_one (p := (· == 'n')) (c := 'n') rfl t).next hrest
  have hfind : (partsPattern digit).find? _ = some _ :=
    ((prefers_digits hs hend).group.next hletter).find?
  rw [hfind]
  rfl

private theorem groups_signed (hs : (digitsPattern digit).Describes s) (hw : ∀ c ∈ w, Text.isSpace c)
    (hc : isSign c) (ht : (digitsPattern digit).Describes t) :
    ((partsPattern digit).find? (s ++ 'n' :: (w ++ c :: t))).map (·.groups) =
      some [some s, some (c :: t)] := by
  have hspace : ∀ d ∈ (c :: t).head?, Text.isSpace d = false := by
    intro d hd
    cases hd
    exact isSpace_of_isSign hc
  have hvisible : ∀ d ∈ t.head?, Text.isSpace d = false := fun d hd =>
    hdigit.visible d ((describes_digits.1 ht).2 d (List.mem_of_mem_head? hd))
  have hnumber := prefers_digits ht (t := []) nofun
  rw [List.append_nil] at hnumber
  have hoffset := ((Pattern.prefers_one hc t).next
    ((Pattern.prefers_many (u := []) nofun hvisible).next hnumber)).group
  exact groups_of_prefers hdigit hs ((Pattern.prefers_many hw hspace).next hoffset).optional

/-- Without a sign behind the letter there is no way to match an offset. -/
theorem groups_unsigned (hs : (digitsPattern digit).Describes s) (hw : ∀ c ∈ w, Text.isSpace c)
    (ht : (digitsPattern digit).Describes t) :
    ((partsPattern digit).find? (s ++ 'n' :: (w ++ t))).map (·.groups) = some [some s, none] := by
  have hnone : (signedPattern digit).ways (w ++ t) = [] := by
    rw [List.eq_nil_iff_forall_not_mem]
    intro x hx
    obtain ⟨hsplit, u, v, hu, -, _, v', hv, ⟨c, hsign, rfl⟩, -⟩ := Pattern.of_mem_ways hx
    have hmem : c ∈ w ++ t := by
      rw [hsplit, hu, hv]
      simp
    rcases List.mem_append.1 hmem with hmem | hmem
    · have hspace := hw c hmem
      rw [isSpace_of_isSign hsign] at hspace
      cases hspace
    · exact not_digit_of_isSign hdigit hsign ((describes_digits.1 ht).2 c hmem)
  exact groups_of_prefers hdigit hs (Pattern.prefers_nothing hnone)

private theorem not_describes_offset (hs : 'n' ∈ s) : ¬(offsetPattern digit).Describes s := by
  have hdigits : ∀ t, (digitsPattern digit).Describes t → 'n' ∉ t := by
    intro t ht hmem
    have hletter := (describes_digits.1 ht).2 'n' hmem
    rw [not_digit_letter hdigit] at hletter
    cases hletter
  intro h
  rcases describes_offset.1 h with h | ⟨c, t, rfl, hc, ht⟩
  · exact hdigits s h hs
  · rcases List.mem_cons.1 hs with rfl | hmem
    · exact absurd hc (by decide)
    · exact hdigits t ht hmem

private theorem not_describes_step (ht : (offsetPattern digit).Describes t) (u : Text) :
    ¬(stepPattern digit).Describes (u ++ t) := by
  intro h
  obtain ⟨v, hv, -⟩ := describes_step.1 h
  rcases List.eq_nil_or_concat t with rfl | ⟨t, c, rfl⟩
  · rcases describes_offset.1 ht with h | ⟨_, _, h, -⟩
    · exact (describes_digits.1 h).1 rfl
    · cases h
  · rw [List.concat_eq_append] at ht hv
    rw [← List.append_assoc] at hv
    cases List.append_inj_right' hv rfl
    exact not_describes_offset hdigit (by simp) ht

private theorem readByPatterns?_digits (hs : (digitsPattern digit).Describes s) :
    readByPatterns? digit s = (unsigned? s).map fun b => ⟨none, some b⟩ := by
  rw [readByPatterns?, if_pos (Pattern.matchesWhole_iff.2 (describes_offset.2 (.inl hs))),
    matched?_digits hdigit (describes_digits.1 hs).2]

private theorem readByPatterns?_signed (hc : isSign c) (hs : (digitsPattern digit).Describes s) :
    readByPatterns? digit (c :: s) = (signed? (c :: s)).map fun b => ⟨none, some b⟩ := by
  have hoffset := describes_offset.2 (.inr ⟨c, s, rfl, hc, hs⟩)
  rw [readByPatterns?, if_pos (Pattern.matchesWhole_iff.2 hoffset),
    matched?_signed hdigit hc (describes_digits.1 hs).2]

private theorem readByPatterns?_step (hs : (digitsPattern digit).Describes s) :
    readByPatterns? digit (s ++ ['n']) = (unsigned? s).map fun a => ⟨some a, none⟩ := by
  have hoffset := not_describes_offset hdigit (s := s ++ ['n']) (by simp)
  have hstep := describes_step.2 ⟨s, rfl, hs⟩
  rw [readByPatterns?, if_neg (mt Pattern.matchesWhole_iff.1 hoffset),
    if_pos (Pattern.matchesWhole_iff.2 hstep), List.dropLast_concat,
    matched?_digits hdigit (describes_digits.1 hs).2]

/-- A text of the third shape is read by its parts. -/
theorem readByPatterns?_both (hs : (digitsPattern digit).Describes s)
    (hw : ∀ c ∈ w, Text.isSpace c) (ht : (offsetPattern digit).Describes t) :
    readByPatterns? digit (s ++ 'n' :: (w ++ t)) =
      (((partsPattern digit).find? (s ++ 'n' :: (w ++ t))).map (·.groups)).bind ofParts? := by
  have hoffset := not_describes_offset hdigit (s := s ++ 'n' :: (w ++ t)) (by simp)
  have hstep := not_describes_step hdigit ht (s ++ 'n' :: w)
  rw [List.append_assoc, List.cons_append] at hstep
  have hboth := describes_both.2 ⟨s, w, t, rfl, hs, hw, ht⟩
  rw [readByPatterns?, if_neg (mt Pattern.matchesWhole_iff.1 hoffset),
    if_neg (mt Pattern.matchesWhole_iff.1 hstep), if_pos (Pattern.matchesWhole_iff.2 hboth)]

private theorem readByPatterns?_stepSigned (hs : (digitsPattern digit).Describes s)
    (hw : ∀ c ∈ w, Text.isSpace c) (hc : isSign c) (ht : (digitsPattern digit).Describes t) :
    readByPatterns? digit (s ++ 'n' :: (w ++ c :: t)) = (unsigned? s).bind fun a =>
      (signed? (c :: t)).map fun b => ⟨some a, some b⟩ := by
  rw [readByPatterns?_both hdigit hs hw (describes_offset.2 (.inr ⟨c, t, rfl, hc, ht⟩)),
    groups_signed hdigit hs hw hc ht, Option.bind_some, ofParts?,
    matched?_digits hdigit (describes_digits.1 hs).2,
    matched?_signed hdigit hc (describes_digits.1 ht).2]

/-- The third shape lets an offset without a sign pass, but no part of the text is then taken as one. -/
theorem readByPatterns?_stepUnsigned (hs : (digitsPattern digit).Describes s)
    (hw : ∀ c ∈ w, Text.isSpace c) (ht : (digitsPattern digit).Describes t) :
    readByPatterns? digit (s ++ 'n' :: (w ++ t)) = none := by
  rw [readByPatterns?_both hdigit hs hw (describes_offset.2 (.inl ht)),
    groups_unsigned hdigit hs hw ht]
  rfl

private theorem describes_of_numeral {n : Nat} (h : Numeral s n) :
    (digitsPattern digit).Describes s := by
  refine describes_digits.2 ⟨(numeral_iff.1 h).1, fun c hc => ?_⟩
  have hc := h.isDigit c hc
  rwa [hdigit.ascii c (Identifier.isAscii_of_isDigit hc)]

private theorem digits_of_signedNumeral {i : Int} (h : SignedNumeral s i) :
    ∃ c t, s = c :: t ∧ isSign c ∧ (digitsPattern digit).Describes t := by
  cases h with
  | plus h => exact ⟨'+', _, rfl, rfl, describes_of_numeral hdigit h⟩
  | minus h => exact ⟨'-', _, rfl, rfl, describes_of_numeral hdigit h⟩

private theorem spelling_of_readByPatterns? {r : AnPlusB} (h : readByPatterns? digit s = some r) :
    Spelling s r := by
  by_cases hoffset : (offsetPattern digit).Describes s
  · rcases describes_offset.1 hoffset with hs | ⟨c, t, rfl, hc, ht⟩
    · rw [readByPatterns?_digits hdigit hs] at h
      obtain ⟨b, hb, rfl⟩ := Option.map_eq_some_iff.1 h
      obtain ⟨n, hn, hrange, rfl⟩ := unsigned?_eq_some_iff.1 hb
      exact .number hn hrange
    · rw [readByPatterns?_signed hdigit hc ht] at h
      obtain ⟨b, hb, rfl⟩ := Option.map_eq_some_iff.1 h
      obtain ⟨hsigned, hrange⟩ := signed?_eq_some_iff.1 hb
      exact .signed hsigned hrange
  by_cases hstep : (stepPattern digit).Describes s
  · obtain ⟨s, rfl, hs⟩ := describes_step.1 hstep
    rw [readByPatterns?_step hdigit hs] at h
    obtain ⟨a, ha, rfl⟩ := Option.map_eq_some_iff.1 h
    obtain ⟨n, hn, hrange, rfl⟩ := unsigned?_eq_some_iff.1 ha
    exact .step hn hrange
  by_cases hboth : (bothPattern digit).Describes s
  · obtain ⟨s, w, t, rfl, hs, hw, ht⟩ := describes_both.1 hboth
    rcases describes_offset.1 ht with ht | ⟨c, t, rfl, hc, ht⟩
    · rw [readByPatterns?_stepUnsigned hdigit hs hw ht] at h
      cases h
    · rw [readByPatterns?_stepSigned hdigit hs hw hc ht] at h
      obtain ⟨a, ha, h⟩ := Option.bind_eq_some_iff.1 h
      obtain ⟨b, hb, rfl⟩ := Option.map_eq_some_iff.1 h
      obtain ⟨n, hn, hrange, rfl⟩ := unsigned?_eq_some_iff.1 ha
      obtain ⟨hsigned, hrange'⟩ := signed?_eq_some_iff.1 hb
      exact .both hn hrange hw hsigned hrange'
  · rw [readByPatterns?, if_neg (mt Pattern.matchesWhole_iff.1 hoffset),
      if_neg (mt Pattern.matchesWhole_iff.1 hstep), if_neg (mt Pattern.matchesWhole_iff.1 hboth)] at h
    cases h

private theorem readByPatterns?_of_spelling {r : AnPlusB} (h : Spelling s r) :
    readByPatterns? digit s = some r := by
  cases h with
  | @number s n h hn =>
    rw [readByPatterns?_digits hdigit (describes_of_numeral hdigit h),
      unsigned?_eq_some_iff.2 ⟨n, h, hn, rfl⟩]
    rfl
  | @signed s b h hb =>
    obtain ⟨c, t, rfl, hc, ht⟩ := digits_of_signedNumeral hdigit h
    rw [readByPatterns?_signed hdigit hc ht, signed?_eq_some_iff.2 ⟨h, hb⟩]
    rfl
  | @step s a h ha =>
    rw [readByPatterns?_step hdigit (describes_of_numeral hdigit h),
      unsigned?_eq_some_iff.2 ⟨a, h, ha, rfl⟩]
    rfl
  | @both s w t a b h ha hw ht hb =>
    obtain ⟨c, t, rfl, hc, hdigits⟩ := digits_of_signedNumeral hdigit ht
    rw [readByPatterns?_stepSigned hdigit (describes_of_numeral hdigit h) hw hc hdigits,
      unsigned?_eq_some_iff.2 ⟨a, h, ha, rfl⟩, signed?_eq_some_iff.2 ⟨ht, hb⟩]
    rfl

/-- The patterns read what the reader reads. -/
theorem readByPatterns?_eq (s : Text) : readByPatterns? digit s = read? s :=
  Option.ext fun _ => ⟨fun h => read?_of_spelling (spelling_of_readByPatterns? hdigit h),
    fun h => readByPatterns?_of_spelling hdigit (spelling_of_read? h)⟩

end DigitClass

/-- Exactly the texts that write an argument between white space are accepted, each as the argument it
writes; any other text is refused with the pseudo-class and the whole text. The patterns agree,
whatever digits of other scripts they let pass. -/
theorem argument_read_exactly (hdigit : IsDigitClass digit) (pseudo argument : Text) :
    (∀ r, ofArgument pseudo argument = .ok r ↔ Writes argument r) ∧
    (ofArgument pseudo argument = .error (.argument pseudo argument .notAnPlusB) ↔
      ∀ r, ¬Writes argument r) ∧
    readByPatterns? digit (Text.trim argument) = read? (Text.trim argument) :=
  ⟨fun _ => ofArgument_eq_ok_iff, ofArgument_eq_error_iff, readByPatterns?_eq hdigit _⟩

theorem argument_read_exactly_padded :
    ofArgument "nth-child" " 2n -1" = .ok ⟨some 2, some (-1)⟩ ∧
    readByPatterns? (fun c => c.isDigit || (0x660 ≤ c.toNat && c.toNat ≤ 0x669))
      (Text.trim " ٢n-1") = none := by
  constructor
  · have hstep : Numeral ['2'] 2 := .digit rfl
    have hoffset : SignedNumeral ['-', '1'] (-1) := .minus (.digit rfl)
    have hblank : ∀ c ∈ [' '], Text.isSpace c := List.forall_mem_singleton.2 (by decide)
    have hspelling : Spelling "2n -1" ⟨some 2, some (-1)⟩ :=
      .both hstep ⟨by decide, by decide⟩ hblank hoffset ⟨by decide, by decide⟩
    exact ((argument_read_exactly isDigitClass_arabicIndic _ _).1 _).2
      ⟨[' '], "2n -1", [], rfl, hblank, nofun, hspelling⟩
  · exact (argument_read_exactly isDigitClass_arabicIndic "nth-child" " ٢n-1").2.2.trans (by decide)

example : ofArgument "nth-child" "2n1" = .error (.argument "nth-child" "2n1" .notAnPlusB) := by
  decide

end AnPlusB

end CssLocator
