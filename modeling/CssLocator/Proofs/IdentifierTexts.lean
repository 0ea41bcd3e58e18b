import CssLocator.Proofs.Texts
import Mathlib.Data.List.TakeWhile

/-!
# Written names and values are read back

A name whose characters can stand in a name, colons included, is read back from its escaped form,
and every value is read back from its quoted form up to double quotes that were escaped already.
-/

namespace CssLocator.Identifier

/-- Characters that survive the writing of a name. -/
def isWritable (c : Char) : Bool := isContinue c || c == ':'

theorem isContinue_ne_backslash {c : Char} (h : isContinue c) : c ≠ '\\' := by
  rintro rfl
  revert h
  decide

theorem isContinue_of_isDigit {c : Char} (h : c.isDigit) : isContinue c := by simp [isContinue, h]

private theorem isHexDigit_of_isDigit {c : Char} (h : c.isDigit) : Text.isHexDigit c := by
  simp [Text.isHexDigit, h]

theorem isDigit_iff_toNat {c : Char} : c.isDigit ↔ 48 ≤ c.toNat ∧ c.toNat ≤ 57 := by
  simp [Char.isDigit, UInt32.le_iff_toNat_le]

theorem isAscii_of_isDigit {c : Char} (h : c.isDigit) : Text.isAscii c := by
  have hc := (isDigit_iff_toNat.1 h).2
  simpa [Text.isAscii] using by omega

theorem isUpper_iff_toNat {c : Char} : c.isUpper ↔ 65 ≤ c.toNat ∧ c.toNat ≤ 90 := by
  show decide (65 ≤ c.val ∧ c.val ≤ 90) = true ↔ _
  rw [decide_eq_true_eq, UInt32.le_iff_toNat_le, UInt32.le_iff_toNat_le]
  rfl

private theorem isLower_iff_toNat {c : Char} : c.isLower ↔ 97 ≤ c.toNat ∧ c.toNat ≤ 122 := by
  show (decide (97 ≤ c.val) && decide (c.val ≤ 122)) = true ↔ _
  rw [Bool.and_eq_true, decide_eq_true_eq, decide_eq_true_eq, UInt32.le_iff_toNat_le,
    UInt32.le_iff_toNat_le]
  rfl

theorem isAlpha_iff_toNat {c : Char} :
    c.isAlpha ↔ (65 ≤ c.toNat ∧ c.toNat ≤ 90) ∨ 97 ≤ c.toNat ∧ c.toNat ≤ 122 := by
  show (c.isUpper || c.isLower) = true ↔ _
  rw [Bool.or_eq_true, isUpper_iff_toNat, isLower_iff_toNat]

theorem not_isStart_of_isDigit {c : Char} (h : c.isDigit) : isStart c = false := by
  obtain ⟨hlow, hhigh⟩ := isDigit_iff_toNat.1 h
  have hunder : c ≠ '_' := by
    rintro rfl
    revert h
    decide
  have halpha : c.isAlpha = false := by
    rw [Bool.eq_false_iff, Ne, isAlpha_iff_toNat]
    omega
  simp [isStart, halpha, hunder, Text.isAscii]
  omega

theorem isSpace_of_lt {c : Char} (hlow : 0x20 < c.toNat) (hhigh : c.toNat < 0x85) :
    Text.isSpace c = false := by
  have hne : ∀ n, (n < 0x21 ∨ 0x84 < n) → (c.toNat == n) = false := by
    intro n hn
    simpa using by omega
  have hle : ∀ n, 0x84 < n → decide (n ≤ c.toNat) = false := by
    intro n hn
    simpa using by omega
  have hcontrol : decide (c.toNat ≤ 0xD) = false := by simpa using by omega
  simp [Text.isSpace, hne, hle, hcontrol]

theorem isSpace_of_isDigit {c : Char} (h : c.isDigit) : Text.isSpace c = false := by
  have hc := isDigit_iff_toNat.1 h
  exact isSpace_of_lt (by omega) (by omega)

theorem isSpace_of_isAlpha {c : Char} (h : c.isAlpha) : Text.isSpace c = false := by
  have hc := isAlpha_iff_toNat.1 h
  exact isSpace_of_lt (by omega) (by omega)

theorem readEscape_of_not_hex {c : Char} (r : Text) (h : Text.isHexDigit c = false) :
    readEscape (c :: r) = (c, r) := by
  simp [readEscape, h]

theorem ofHex_of_value {digits : Text} {c : Char} (hvalue : Text.hexValue digits = c.toNat)
    (hzero : c.toNat ≠ 0) : ofHex digits = c := by
  have hvalid : c.toNat.isValidChar := c.valid
  unfold ofHex
  rw [hvalue, if_pos ⟨hzero, hvalid⟩]
  exact Char.ofNat_toNat c

@[simp] theorem ofHex_digit {c : Char} (h : c.isDigit) : ofHex ['3', c] = c := by
  have hc := isDigit_iff_toNat.1 h
  refine ofHex_of_value ?_ (by omega)
  have hthree : Text.hexDigitValue '3' = 3 := by decide
  have hdigit : Text.hexDigitValue c = c.toNat - 48 := by simp [Text.hexDigitValue, h]
  simp only [Text.hexValue, List.foldl_cons, List.foldl_nil, hthree, hdigit]
  omega

/-- The escape of a digit ends with a blank, which belongs to it. -/
@[simp] theorem readEscape_digit {c : Char} (h : c.isDigit) (r : Text) :
    readEscape ('3' :: c :: ' ' :: r) = (c, r) := by
  have hthree : Text.isHexDigit '3' := by decide
  have hblank : Text.isHexDigit ' ' = false := by decide
  have hspace : Text.isSpace ' ' := by decide
  simp [readEscape, hthree, hblank, hspace, isHexDigit_of_isDigit h, h]

/-- At the end of the text the blank may be missing. -/
@[simp] theorem readEscape_last_digit {c : Char} (h : c.isDigit) : readEscape ['3', c] = (c, []) := by
  have hthree : Text.isHexDigit '3' := by decide
  simp [readEscape, hthree, isHexDigit_of_isDigit h, h]

theorem readWhile_cons {p : Char → Bool} {c : Char} (r : Text) (hc : p c) (hne : c ≠ '\\') :
    readWhile p (c :: r) = (c :: (readWhile p r).1, (readWhile p r).2) := by
  rw [readWhile, if_neg hne, if_pos hc]

theorem readWhile_backslash {p : Char → Bool} {c : Char} {s r : Text} (h : readEscape s = (c, r)) :
    readWhile p ('\\' :: s) = (c :: (readWhile p r).1, (readWhile p r).2) := by
  rw [readWhile, if_pos rfl, h]

private theorem readWhile_of_head {p : Char → Bool} {r : Text}
    (h : ∀ c ∈ r.head?, p c = false ∧ c ≠ '\\') : readWhile p r = ([], r) := by
  cases r with
  | nil => rw [readWhile]
  | cons c r =>
    obtain ⟨hc, hne⟩ := h c rfl
    rw [readWhile, if_neg hne, if_neg (by simp [hc])]

/-- The characters of a name after the first one, as they are written. -/
def escapeTail (s : Text) : Text := s.flatMap fun d => if d = ':' then "\\:" else [d]

private theorem readWhile_escapeTail {s : Text} (hs : ∀ c ∈ s, isWritable c) (r : Text) :
    readWhile isContinue (escapeTail s ++ r) =
      (s ++ (readWhile isContinue r).1, (readWhile isContinue r).2) := by
  induction s with
  | nil => rfl
  | cons c s ih =>
    have ih := ih fun x hx => hs x (List.mem_cons_of_mem c hx)
    by_cases hc : c = ':'
    · subst hc
      have hcolon := readEscape_of_not_hex (escapeTail s ++ r) (c := ':') (by decide)
      show readWhile isContinue ('\\' :: ':' :: (escapeTail s ++ r)) = _
      rw [readWhile_backslash hcolon, ih]
      rfl
    · have hcontinue : isContinue c := by simpa [isWritable, hc] using hs c List.mem_cons_self
      have htail : escapeTail (c :: s) = c :: escapeTail s := by simp [escapeTail, hc]
      rw [htail, List.cons_append, readWhile_cons _ hcontinue (isContinue_ne_backslash hcontinue), ih]
      rfl

private theorem escape_digit {c : Char} (s : Text) (h : c.isDigit) :
    escape (c :: s) = '\\' :: '3' :: c :: ' ' :: escapeTail s := by
  simp [escape, h, escapeTail]

/-- A hyphen is written as it is, or after a backslash. -/
theorem escape_hyphen (s : Text) :
    escape ('-' :: s) = '-' :: escapeTail s ∨ escape ('-' :: s) = '\\' :: '-' :: escapeTail s := by
  have h : '-'.isDigit = false := by decide
  cases s with
  | nil => exact .inr (by simp [escape, h, escapeTail])
  | cons d s =>
    by_cases hd : (d.isDigit || d == '-') = true
    · exact .inr (by simp [escape, h, hd, escapeTail])
    · exact .inl (by simp [escape, h, hd, escapeTail])

/-- The first character of a name is written as its code, behind a backslash or as it is. -/
theorem escape_cons_cases (c : Char) (s : Text) :
    (c.isDigit ∧ escape (c :: s) = '\\' :: '3' :: c :: ' ' :: escapeTail s) ∨
    ((c = ':' ∨ c = '-') ∧ escape (c :: s) = '\\' :: c :: escapeTail s) ∨
    (c.isDigit = false ∧ c ≠ ':' ∧ escape (c :: s) = c :: escapeTail s) := by
  cases hdigit : c.isDigit with
  | true => exact .inl ⟨rfl, escape_digit s hdigit⟩
  | false =>
    by_cases hcolon : c = ':'
    · exact .inr (.inl ⟨.inl hcolon, by simp [escape, hcolon, escapeTail]⟩)
    · by_cases hhyphen : c = '-'
      · subst hhyphen
        rcases escape_hyphen s with hs | hs
        · exact .inr (.inr ⟨rfl, hcolon, hs⟩)
        · exact .inr (.inl ⟨.inr rfl, hs⟩)
      · exact .inr (.inr ⟨rfl, hcolon, by simp [escape, hdigit, hcolon, hhyphen, escapeTail]⟩)

theorem readEscape_colon_or_hyphen {c : Char} (r : Text) (h : c = ':' ∨ c = '-') :
    readEscape (c :: r) = (c, r) :=
  readEscape_of_not_hex r (by rcases h with rfl | rfl <;> decide)

private theorem readWhile_escape {s : Text} (hs : ∀ c ∈ s, isWritable c) (r : Text) :
    readWhile isContinue (escape s ++ r) =
      (s ++ (readWhile isContinue r).1, (readWhile isContinue r).2) := by
  cases s with
  | nil => rfl
  | cons c s =>
    have htail := readWhile_escapeTail (fun x hx => hs x (List.mem_cons_of_mem c hx)) r
    rcases escape_cons_cases c s with ⟨hdigit, hescape⟩ | ⟨hc, hescape⟩ | ⟨-, hcolon, hescape⟩
    · rw [hescape]
      simp only [List.cons_append]
      rw [readWhile_backslash (readEscape_digit hdigit _), htail]
    · rw [hescape]
      simp only [List.cons_append]
      rw [readWhile_backslash (readEscape_colon_or_hyphen _ hc), htail]
    · have hcontinue : isContinue c := by simpa [isWritable, hcolon] using hs c List.mem_cons_self
      rw [hescape, List.cons_append,
        readWhile_cons _ hcontinue (isContinue_ne_backslash hcontinue), htail]
      rfl

theorem read?_of_readWhile {s name r : Text} (hne : name ≠ [])
    (h : readWhile isContinue s = (name, r)) : read? s = some (name, r) := by
  obtain ⟨c, name, rfl⟩ := List.exists_cons_of_ne_nil hne
  simp [read?, h]

/-- What cannot continue a name. -/
def EndsName (r : Text) : Prop := ∀ c ∈ r.head?, isContinue c = false ∧ c ≠ '\\'

/-- An escaped name is read back. -/
theorem read?_escape {name r : Text} (hne : name ≠ []) (hname : ∀ c ∈ name, isWritable c)
    (hr : EndsName r) : read? (escape name ++ r) = some (name, r) := by
  refine read?_of_readWhile hne ?_
  rw [readWhile_escape hname, readWhile_of_head hr, List.append_nil]

/-- The text without the white space at its end. -/
def trimEnd (s : Text) : Text := (s.reverse.dropWhile Text.isSpace).reverse

theorem trimEnd_eq_self {s : Text} (h : ∀ c ∈ s.getLast?, Text.isSpace c = false) :
    trimEnd s = s := by
  rcases List.eq_nil_or_concat s with rfl | ⟨s, c, rfl⟩
  · rfl
  · have hc : Text.isSpace c = false := h c (by simp)
    simp [trimEnd, hc]

theorem trimEnd_append_space {w : Text} (hw : ∀ c ∈ w, Text.isSpace c) (s : Text) :
    trimEnd (s ++ w) = trimEnd s := by
  have hspace : ∀ c ∈ w.reverse, Text.isSpace c := fun c hc => hw c (List.mem_reverse.1 hc)
  rw [trimEnd, List.reverse_append, List.dropWhile_append_of_pos hspace, trimEnd]

/-- What is cut off at the end is white space. -/
theorem exists_trimEnd (s : Text) : ∃ w, s = trimEnd s ++ w ∧ ∀ c ∈ w, Text.isSpace c := by
  refine ⟨(s.reverse.takeWhile Text.isSpace).reverse, ?_, fun c hc => ?_⟩
  · rw [trimEnd, ← List.reverse_append, List.takeWhile_append_dropWhile, List.reverse_reverse]
  · exact List.mem_takeWhile_imp (List.mem_reverse.1 hc)

theorem trimEnd_append {s t : Text} (h : trimEnd t ≠ []) : trimEnd (s ++ t) = s ++ trimEnd t := by
  have hne : t.reverse.dropWhile Text.isSpace ≠ [] := fun hnil => h (by simp [trimEnd, hnil])
  simp [trimEnd, List.dropWhile_append, hne]

theorem trimEnd_cons {c : Char} (hc : Text.isSpace c = false) (s : Text) :
    trimEnd (c :: s) = c :: trimEnd s := by
  by_cases hs : trimEnd s = []
  · have hdrop : s.reverse.dropWhile Text.isSpace = [] := by simpa [trimEnd] using hs
    rw [hs]
    simp [trimEnd, List.dropWhile_append, hdrop, hc]
  · exact trimEnd_append (s := [c]) hs

theorem trimEnd_prefix (s : Text) : trimEnd s <+: s := by
  rw [← List.reverse_suffix, trimEnd, List.reverse_reverse]
  exact List.dropWhile_suffix _

theorem head?_trimEnd {s : Text} (h : trimEnd s ≠ []) : (trimEnd s).head? = s.head? := by
  obtain ⟨t, ht⟩ := trimEnd_prefix s
  obtain ⟨c, r, hcr⟩ := List.exists_cons_of_ne_nil h
  rw [hcr] at ht ⊢
  rw [← ht]
  rfl

theorem trimEnd_ne_nil {c : Char} {s : Text} (hc : c ∈ s) (hspace : Text.isSpace c = false) :
    trimEnd s ≠ [] := by
  intro hnil
  have hdrop : s.reverse.dropWhile Text.isSpace = [] := by simpa [trimEnd] using hnil
  rw [List.dropWhile_eq_nil_iff.1 hdrop c (List.mem_reverse.2 hc)] at hspace
  cases hspace

theorem getLast?_trimEnd (s : Text) : ∀ c ∈ (trimEnd s).getLast?, Text.isSpace c = false := by
  intro c hc
  rw [trimEnd, List.getLast?_reverse] at hc
  have hhead := List.head?_dropWhile_not Text.isSpace s.reverse
  rw [Option.mem_def.1 hc] at hhead
  exact hhead

/-- The first character stays, or nothing does. -/
theorem trimEnd_cons_cases (c : Char) (s : Text) :
    trimEnd (c :: s) = c :: trimEnd s ∨ trimEnd (c :: s) = [] ∧ trimEnd s = [] := by
  by_cases hs : trimEnd s = []
  · cases hc : Text.isSpace c with
    | false => exact .inl (trimEnd_cons hc s)
    | true =>
      obtain ⟨w, hw, hspace⟩ := exists_trimEnd s
      rw [hs, List.nil_append] at hw
      have hall := trimEnd_append_space (List.forall_mem_cons.2 ⟨hc, hspace⟩) []
      rw [← hw] at hall
      exact .inr ⟨hall, hs⟩
  · exact .inl (trimEnd_append (s := [c]) hs)

@[simp] theorem getLast?_escapeTail (s : Text) : (escapeTail s).getLast? = s.getLast? := by
  rcases List.eq_nil_or_concat s with rfl | ⟨s, c, rfl⟩
  · rfl
  · by_cases hc : c = ':'
    · subst hc
      simp [escapeTail, List.flatMap_append]
    · simp [escapeTail, List.flatMap_append, hc]

@[simp] theorem getLast?_cons_escapeTail (c : Char) (s : Text) :
    (c :: escapeTail s).getLast? = (c :: s).getLast? := by
  rw [List.getLast?_cons, List.getLast?_cons, getLast?_escapeTail]

/-- A written name ends as the name does, unless the name is a single digit. -/
theorem getLast?_escape {c : Char} {s : Text} (h : c.isDigit = false ∨ s ≠ []) :
    (escape (c :: s)).getLast? = (c :: s).getLast? := by
  have hback : ∀ x y : Char, ∀ t : Text, (x :: y :: t).getLast? = (y :: t).getLast? := by
    intro x y t
    rw [List.getLast?_cons_cons]
  rcases escape_cons_cases c s with ⟨hdigit, hescape⟩ | ⟨-, hescape⟩ | ⟨-, -, hescape⟩
  · obtain ⟨d, s, rfl⟩ := List.exists_cons_of_ne_nil (h.resolve_left (by simp [hdigit]))
    rw [hescape, hback, hback, hback, getLast?_cons_escapeTail, hback, hback]
  · rw [hescape, hback, getLast?_cons_escapeTail]
  · rw [hescape, getLast?_cons_escapeTail]

/-- A name at the end of a text is read back, although the text loses white space there: only the
blank after a single digit gets lost. -/
theorem read?_trimEnd_escape {name : Text} (hne : name ≠ []) (hname : ∀ c ∈ name, isWritable c)
    (hlast : ∀ c ∈ name.getLast?, Text.isSpace c = false) :
    read? (trimEnd (escape name)) = some (name, []) := by
  obtain ⟨c, s, rfl⟩ := List.exists_cons_of_ne_nil hne
  by_cases hdigit : c.isDigit = false ∨ s ≠ []
  · have htrim : trimEnd (escape (c :: s)) = escape (c :: s) ++ [] := by
      rw [List.append_nil]
      refine trimEnd_eq_self ?_
      rw [getLast?_escape hdigit]
      exact hlast
    rw [htrim]
    exact read?_escape hne hname (by simp [EndsName])
  · rw [not_or, Bool.not_eq_false, Decidable.not_not] at hdigit
    obtain ⟨hdigit, rfl⟩ := hdigit
    have hspace : Text.isSpace c = false := hlast c rfl
    have htrim : trimEnd (escape [c]) = ['\\', '3', c] := by
      have hblank : Text.isSpace ' ' := by decide
      simp [escape_digit [] hdigit, escapeTail, trimEnd, hblank, hspace]
    rw [htrim]
    refine read?_of_readWhile hne ?_
    rw [readWhile_backslash (readEscape_last_digit hdigit), readWhile_of_head (by simp)]

/-- What stands between the quotes of a written value. -/
def quotedBody (s : Text) : Text := s.flatMap fun c => if c = '\\' ∨ c = '"' then ['\\', c] else [c]

theorem quoted_eq (value : Text) : quoted value = '"' :: (quotedBody (unescapeQuotes value) ++ ['"']) :=
  rfl

@[simp] theorem readQuoted?_quotedBody (s r : Text) :
    readQuoted? '"' (quotedBody s ++ '"' :: r) = some (s, r) := by
  induction s with
  | nil => simp [quotedBody, readQuoted?]
  | cons c s ih =>
    by_cases hc : c = '\\' ∨ c = '"'
    · have hbody : quotedBody (c :: s) = '\\' :: c :: quotedBody s := by simp [quotedBody, hc]
      have hhex : Text.isHexDigit c = false := by rcases hc with rfl | rfl <;> decide
      rw [hbody, List.cons_append, List.cons_append, readQuoted?, if_pos rfl, readEscape_of_not_hex _ hhex]
      simp [ih]
    · have hbody : quotedBody (c :: s) = c :: quotedBody s := by simp [quotedBody, hc]
      rw [not_or] at hc
      rw [hbody, List.cons_append, readQuoted?, if_neg hc.1, if_neg hc.2, ih]
      rfl

/-- A value is left alone by the writing if no double quote in it follows a backslash. -/
theorem unescapeQuotes_eq_self {s : Text} (h : ¬ ['\\', '"'] <:+: s) : unescapeQuotes s = s := by
  fun_induction unescapeQuotes s with
  | case1 => rfl
  | case2 r ih => exact absurd (List.prefix_append ['\\', '"'] r).isInfix h
  | case3 c r hc ih => rw [ih fun hr => h (hr.trans (List.suffix_cons c r).isInfix)]

end CssLocator.Identifier
