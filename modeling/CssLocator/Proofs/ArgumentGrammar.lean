import CssLocator.AnPlusB
import CssLocator.Proofs.IdentifierTexts
import CssLocator.Proofs.Texts
import Mathlib.Data.List.Induction

/-!
# The grammar of an+b arguments

Which texts write which arguments, as a grammar that does not mention how they are read. Exactly these
texts are read, each as the argument it writes. The notation of an argument is one of them.
-/

namespace CssLocator

/-- The digits of a number, the last one counting the ones. -/
inductive Numeral : Text → Nat → Prop
  | digit {c : Char} (hc : c.isDigit) : Numeral [c] (c.toNat - '0'.toNat)
  | snoc {s : Text} {n : Nat} {c : Char} (h : Numeral s n) (hc : c.isDigit) :
      Numeral (s ++ [c]) (10 * n + (c.toNat - '0'.toNat))

/-- A number after its sign. -/
inductive SignedNumeral : Text → Int → Prop
  | plus {s : Text} {n : Nat} (h : Numeral s n) : SignedNumeral ('+' :: s) n
  | minus {s : Text} {n : Nat} (h : Numeral s n) : SignedNumeral ('-' :: s) (-n)

variable {s : Text} {n : Nat} {i : Int}

private theorem digitsValue_concat (s : Text) (c : Char) :
    Text.digitsValue (s ++ [c]) = 10 * Text.digitsValue s + (c.toNat - '0'.toNat) := by
  rw [Text.digitsValue, List.foldl_append]
  rfl

theorem numeral_iff : Numeral s n ↔ s ≠ [] ∧ s.all Char.isDigit ∧ Text.digitsValue s = n := by
  constructor
  · intro h
    induction h with
    | digit hc => simp [hc, Text.digitsValue]
    | snoc _ hc ih =>
      obtain ⟨-, hall, hvalue⟩ := ih
      refine ⟨by simp, by simp [hall, hc], ?_⟩
      rw [digitsValue_concat, hvalue]
  · rintro ⟨hne, hall, rfl⟩
    induction s using List.reverseRecOn with
    | nil => exact absurd rfl hne
    | append_singleton s c ih =>
      rw [List.all_append, Bool.and_eq_true, List.all_cons, List.all_nil, Bool.and_true] at hall
      rw [digitsValue_concat]
      by_cases hs : s = []
      · subst hs
        simpa [Text.digitsValue] using Numeral.digit hall.2
      · exact .snoc (ih hs hall.1) hall.2

private theorem numeral_ofNat (n : Nat) : Numeral (Text.ofNat n) n :=
  numeral_iff.2 ⟨ofNat_ne_nil n, all_isDigit_ofNat n, digitsValue_ofNat n⟩

private theorem numeral_ofInt (n : Nat) : Numeral (Text.ofInt n) n := by
  rw [ofInt_of_nonneg (Int.natCast_nonneg n), Int.toNat_natCast]
  exact numeral_ofNat n

/-- A number with its sign, written out. -/
theorem signedNumeral_ofInt (i : Int) :
    SignedNumeral (if i < 0 then Text.ofInt i else '+' :: Text.ofInt i) i := by
  split
  · rename_i hneg
    have hminus := SignedNumeral.minus (numeral_ofNat (-i).toNat)
    rwa [← ofInt_of_neg hneg, show -((-i).toNat : Int) = i by omega] at hminus
  · rename_i hpos
    have hplus := SignedNumeral.plus (numeral_ofNat i.toNat)
    rwa [← ofInt_of_nonneg (by omega), show (i.toNat : Int) = i by omega] at hplus

theorem Numeral.isDigit (h : Numeral s n) : ∀ c ∈ s, c.isDigit :=
  List.all_eq_true.1 (numeral_iff.1 h).2.1

theorem Numeral.visible (h : Numeral s n) : ∀ c ∈ s, Text.isSpace c = false :=
  fun c hc => Identifier.isSpace_of_isDigit (h.isDigit c hc)

theorem SignedNumeral.visible (h : SignedNumeral s i) : ∀ c ∈ s, Text.isSpace c = false := by
  cases h with
  | plus h => exact List.forall_mem_cons.2 ⟨rfl, h.visible⟩
  | minus h => exact List.forall_mem_cons.2 ⟨rfl, h.visible⟩

private theorem SignedNumeral.exists_sign (h : SignedNumeral s i) :
    ∃ c r, s = c :: r ∧ (c = '+' ∨ c = '-') := by
  cases h with
  | plus => exact ⟨'+', _, rfl, .inl rfl⟩
  | minus => exact ⟨'-', _, rfl, .inr rfl⟩

namespace AnPlusB

/-- The integers that are read: from `-2^31` to `2^31 - 1`. -/
def InRange (i : Int) : Prop := -2147483648 ≤ i ∧ i ≤ 2147483647

/-- The texts that write an argument. -/
inductive Spelling : Text → AnPlusB → Prop
  | number {s : Text} {n : Nat} (h : Numeral s n) (hn : InRange n) : Spelling s ⟨none, some n⟩
  | signed {s : Text} {b : Int} (h : SignedNumeral s b) (hb : InRange b) : Spelling s ⟨none, some b⟩
  | step {s : Text} {a : Nat} (h : Numeral s a) (ha : InRange a) : Spelling (s ++ ['n']) ⟨some a, none⟩
  | both {s w t : Text} {a : Nat} {b : Int} (h : Numeral s a) (ha : InRange a)
      (hw : ∀ c ∈ w, Text.isSpace c) (ht : SignedNumeral t b) (hb : InRange b) :
      Spelling (s ++ 'n' :: (w ++ t)) ⟨some a, some b⟩

private theorem fits_iff : fits i ↔ InRange i := by
  have hlimit : ((Nat.pow 2 31 : Nat) : Int) = 2147483648 := rfl
  rw [fits, hlimit, Bool.and_eq_true, decide_eq_true_eq, decide_eq_true_eq, InRange]
  omega

theorem unsigned?_eq_some_iff : unsigned? s = some i ↔ ∃ n : Nat, Numeral s n ∧ InRange n ∧ i = n := by
  unfold unsigned?
  constructor
  · intro h
    split at h
    · rename_i hs
      exact ⟨_, numeral_iff.2 ⟨hs.1, hs.2.1, rfl⟩, fits_iff.1 hs.2.2, (Option.some.inj h).symm⟩
    · cases h
  · rintro ⟨n, hnumeral, hrange, rfl⟩
    obtain ⟨hne, hall, hvalue⟩ := numeral_iff.1 hnumeral
    rw [hvalue, if_pos ⟨hne, hall, fits_iff.2 hrange⟩]

theorem signed?_eq_some_iff : signed? s = some i ↔ SignedNumeral s i ∧ InRange i := by
  constructor
  · intro h
    unfold signed? at h
    split at h
    · cases h
    · split at h
      · rename_i digits hdigits
        have hnumeral := numeral_iff.2 ⟨hdigits.1, hdigits.2, rfl⟩
        dsimp only at h
        split at h
        · rename_i hplus
          cases h
          rw [hplus.1]
          exact ⟨.plus hnumeral, fits_iff.1 hplus.2⟩
        · split at h
          · rename_i hminus
            cases h
            rw [hminus.1]
            exact ⟨.minus hnumeral, fits_iff.1 hminus.2⟩
          · cases h
      · cases h
  · rintro ⟨h, hrange⟩
    cases h with
    | plus h =>
      obtain ⟨hne, hall, hvalue⟩ := numeral_iff.1 h
      rw [signed?, if_pos ⟨hne, hall⟩]
      simp [hvalue, fits_iff.2 hrange]
    | minus h =>
      obtain ⟨hne, hall, hvalue⟩ := numeral_iff.1 h
      rw [signed?, if_pos ⟨hne, hall⟩]
      simp [hvalue, fits_iff.2 hrange]

/-- The texts that write an argument between white space. -/
def Writes (argument : Text) (r : AnPlusB) : Prop :=
  ∃ u s v, argument = u ++ (s ++ v) ∧ (∀ c ∈ u, Text.isSpace c) ∧ (∀ c ∈ v, Text.isSpace c) ∧
    Spelling s r

variable {r : AnPlusB}

theorem spelling_of_read? (h : read? s = some r) : Spelling s r := by
  have hsplit := List.takeWhile_append_dropWhile (p := Char.isDigit) (l := s)
  unfold read? at h
  dsimp only at h
  generalize s.takeWhile Char.isDigit = digits at h hsplit
  generalize s.dropWhile Char.isDigit = rest at h hsplit
  subst hsplit
  split at h
  · obtain ⟨b, hb, rfl⟩ := Option.map_eq_some_iff.1 h
    obtain ⟨n, hn, hrange, rfl⟩ := unsigned?_eq_some_iff.1 hb
    rw [List.append_nil]
    exact .number hn hrange
  · obtain ⟨a, ha, rfl⟩ := Option.map_eq_some_iff.1 h
    obtain ⟨n, hn, hrange, rfl⟩ := unsigned?_eq_some_iff.1 ha
    exact .step hn hrange
  · rename_i rest _
    split at h
    · rename_i a b ha hb
      cases h
      obtain ⟨n, hn, hrange, rfl⟩ := unsigned?_eq_some_iff.1 ha
      obtain ⟨hsigned, hrange'⟩ := signed?_eq_some_iff.1 hb
      rw [← List.takeWhile_append_dropWhile (p := Text.isSpace) (l := rest)]
      exact .both hn hrange (fun c hc => List.mem_takeWhile_imp hc) hsigned hrange'
    · cases h
  · split at h
    · rename_i hempty
      obtain ⟨b, hb, rfl⟩ := Option.map_eq_some_iff.1 h
      obtain ⟨hsigned, hrange⟩ := signed?_eq_some_iff.1 hb
      rw [List.isEmpty_iff.1 hempty, List.nil_append]
      exact .signed hsigned hrange
    · cases h

theorem read?_of_spelling (h : Spelling s r) : read? s = some r := by
  cases h with
  | @number s n h hn =>
    obtain ⟨htake, hdrop⟩ := takeWhile_append_of_head h.isDigit (v := []) (by simp)
    rw [List.append_nil] at htake hdrop
    have hread := unsigned?_eq_some_iff.2 ⟨n, h, hn, rfl⟩
    simp [read?, htake, hdrop, hread]
  | @signed s b h hb =>
    obtain ⟨c, rest, rfl, hc⟩ := h.exists_sign
    have hdigit : c.isDigit = false := by rcases hc with rfl | rfl <;> decide
    have hn : c ≠ 'n' := by rcases hc with rfl | rfl <;> decide
    have hread := signed?_eq_some_iff.2 ⟨h, hb⟩
    simp [read?, hdigit, hn, hread]
  | @step s a h ha =>
    obtain ⟨htake, hdrop⟩ := takeWhile_append_of_head h.isDigit (v := ['n']) (by simp)
    have hread := unsigned?_eq_some_iff.2 ⟨a, h, ha, rfl⟩
    simp [read?, htake, hdrop, hread]
  | @both s w t a b h ha hw ht hb =>
    obtain ⟨htake, hdrop⟩ :=
      takeWhile_append_of_head h.isDigit (v := 'n' :: (w ++ t)) (by simp)
    have hread := unsigned?_eq_some_iff.2 ⟨a, h, ha, rfl⟩
    have hread' := signed?_eq_some_iff.2 ⟨ht, hb⟩
    obtain ⟨c, rest, rfl, hc⟩ := ht.exists_sign
    have hskip : Text.skipSpace (w ++ c :: rest) = c :: rest := by
      have hspace : Text.isSpace c = false := by rcases hc with rfl | rfl <;> decide
      rw [Text.skipSpace, List.dropWhile_append_of_pos hw, List.dropWhile_cons_of_neg (by simp [hspace])]
    simp [read?, htake, hdrop, hread, hskip, hread']

/-- Exactly the texts that write an argument are read. -/
theorem read?_eq_some_iff : read? s = some r ↔ Spelling s r :=
  ⟨spelling_of_read?, read?_of_spelling⟩

private theorem Spelling.visible_ends (h : Spelling s r) :
    (∃ c t, s = c :: t ∧ Text.isSpace c = false) ∧ ∀ c ∈ s.getLast?, Text.isSpace c = false := by
  have hall {s : Text} (hne : s ≠ []) (h : ∀ c ∈ s, Text.isSpace c = false) :
      (∃ c t, s = c :: t ∧ Text.isSpace c = false) ∧ ∀ c ∈ s.getLast?, Text.isSpace c = false := by
    obtain ⟨c, t, rfl⟩ := List.exists_cons_of_ne_nil hne
    exact ⟨⟨c, t, rfl, h c List.mem_cons_self⟩, fun d hd => h d (List.mem_of_getLast? hd)⟩
  cases h with
  | number h => exact hall (numeral_iff.1 h).1 h.visible
  | signed h =>
    obtain ⟨c, t, rfl, -⟩ := h.exists_sign
    exact hall (List.cons_ne_nil c t) h.visible
  | step h =>
    refine hall (by simp) fun c hc => ?_
    rcases List.mem_append.1 hc with hc | hc
    · exact h.visible c hc
    · rw [List.mem_singleton.1 hc]
      decide
  | @both s w t a b h _ _ ht =>
    obtain ⟨d, s, rfl⟩ := List.exists_cons_of_ne_nil (numeral_iff.1 h).1
    refine ⟨⟨d, _, rfl, h.visible d List.mem_cons_self⟩, fun e he => ?_⟩
    obtain ⟨c, t, rfl, -⟩ := ht.exists_sign
    have hsplit : d :: s ++ 'n' :: (w ++ c :: t) = (d :: s ++ 'n' :: w) ++ c :: t := by simp
    rw [hsplit, List.getLast?_append, List.getLast?_cons, Option.some_or, ← List.getLast?_cons] at he
    exact ht.visible e (List.mem_of_getLast? he)

private theorem spelling_trim_iff {argument : Text} :
    Spelling (Text.trim argument) r ↔ Writes argument r := by
  constructor
  · intro h
    obtain ⟨v, hv, hspace⟩ := Identifier.exists_trimEnd (Text.skipSpace argument)
    refine ⟨argument.takeWhile Text.isSpace, _, v, ?_, fun c => List.mem_takeWhile_imp, hspace, h⟩
    exact (List.takeWhile_append_dropWhile.symm).trans (congrArg _ hv)
  · rintro ⟨u, s, v, rfl, hu, hv, h⟩
    obtain ⟨⟨c, t, hct, hc⟩, hlast⟩ := h.visible_ends
    have hend : Identifier.trimEnd (s ++ v) = s := by
      rw [Identifier.trimEnd_append_space hv, Identifier.trimEnd_eq_self hlast]
    have hskip : Text.skipSpace (u ++ (s ++ v)) = s ++ v := by
      refine (takeWhile_append_of_head hu fun d hd => ?_).2
      rw [hct] at hd
      cases hd
      exact hc
    have htrim : Text.trim (u ++ (s ++ v)) = s := (congrArg Identifier.trimEnd hskip).trans hend
    rwa [htrim]

theorem ofArgument_eq_ok_iff {pseudo argument : Text} :
    ofArgument pseudo argument = .ok r ↔ Writes argument r := by
  rw [← spelling_trim_iff, ← read?_eq_some_iff, ofArgument]
  cases read? (Text.trim argument) <;> simp

/-- A text that writes no argument is refused with the pseudo-class and the whole text. -/
theorem ofArgument_eq_error_iff {pseudo argument : Text} :
    ofArgument pseudo argument = .error (.argument pseudo argument .notAnPlusB) ↔
      ∀ r, ¬Writes argument r := by
  simp only [← spelling_trim_iff, ← read?_eq_some_iff, ofArgument]
  cases read? (Text.trim argument) <;> simp

/-- The arguments that some text writes. -/
inductive Readable : AnPlusB → Prop
  | offset (b : Int) (hb : fits b) : Readable ⟨none, some b⟩
  | step (a : Int) (ha : fits a) (hpos : 0 ≤ a) : Readable ⟨some a, none⟩
  | both (a b : Int) (ha : fits a) (hpos : 0 ≤ a) (hb : fits b) : Readable ⟨some a, some b⟩

theorem Spelling.readable (h : Spelling s r) : r.Readable := by
  cases h with
  | number _ hn => exact .offset _ (fits_iff.2 hn)
  | signed _ hb => exact .offset _ (fits_iff.2 hb)
  | step _ ha => exact .step _ (fits_iff.2 ha) (Int.natCast_nonneg _)
  | both _ ha _ _ hb => exact .both _ _ (fits_iff.2 ha) (Int.natCast_nonneg _) (fits_iff.2 hb)

theorem readable_of_ofArgument {pseudo argument : Text} (h : ofArgument pseudo argument = .ok r) :
    r.Readable := by
  obtain ⟨_, _, _, _, _, _, hspelling⟩ := ofArgument_eq_ok_iff.1 h
  exact hspelling.readable

private theorem spelling_text (h : r.Readable) : Spelling r.text r := by
  cases h with
  | offset b hb =>
    rcases Int.lt_or_le b 0 with hneg | hpos
    · have hsigned := signedNumeral_ofInt b
      rw [if_pos hneg] at hsigned
      exact .signed hsigned (fits_iff.1 hb)
    · obtain ⟨n, rfl⟩ := Int.eq_ofNat_of_zero_le hpos
      exact .number (numeral_ofInt n) (fits_iff.1 hb)
  | step a ha hpos =>
    obtain ⟨n, rfl⟩ := Int.eq_ofNat_of_zero_le hpos
    exact .step (numeral_ofInt n) (fits_iff.1 ha)
  | both a b ha hpos hb =>
    obtain ⟨n, rfl⟩ := Int.eq_ofNat_of_zero_le hpos
    have hboth := Spelling.both (numeral_ofInt n) (fits_iff.1 ha) (w := []) nofun
      (signedNumeral_ofInt b) (fits_iff.1 hb)
    simpa [text] using hboth

/-- The notation of an argument is read as the argument. -/
theorem ofArgument_text (h : r.Readable) (pseudo : Text) : ofArgument pseudo r.text = .ok r :=
  ofArgument_eq_ok_iff.2 ⟨[], r.text, [], by simp, nofun, nofun, spelling_text h⟩

end AnPlusB

end CssLocator
