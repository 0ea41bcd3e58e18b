import CssLocator.Proofs.ExpressionTokens
import CssLocator.XPathParsing
import Mathlib.Data.List.Basic
import Mathlib.Tactic.Common

/-!
# Slices of tokens

Cutting a text into tokens goes on turn by turn, and every turn takes a white-space character or the
characters of one token from the front of the text. So the slices of the tokens and the white space
between them are the text. What a token is depends on its slice and on the first character or two
after white space, but not on the amount of white space: with other blanks between the slices the
tokens stay the same. Where no turn is possible, a character stands that no token begins with, or a
quote that is not closed.
-/

namespace CssLocator.XPath

variable {o : Bool} {c : Char} {s s' r rest : Text} {t : Token} {ts : List Token}

/-- Digits with at most one point among them. -/
inductive Numeral : Text → Prop
  | whole {digits : Text} (h : ∀ d ∈ digits, d.isDigit) (hne : digits ≠ []) : Numeral digits
  | pointed {digits decimals : Text} (h : ∀ d ∈ digits, d.isDigit) (h' : ∀ d ∈ decimals, d.isDigit)
      (hne : digits ++ decimals ≠ []) : Numeral (digits ++ '.' :: decimals)

/-- The slice of a token, the token, and what follows it. Numbers and names go on as far as they
can. -/
inductive Slice (o : Bool) : Text → Token → Text → Prop
  | number {s rest : Text} (h : Numeral s)
      (hends : ∀ d ∈ rest.head?, d.isDigit = false ∧ (d = '.' → '.' ∈ s)) :
      Slice o s (.number (.ofDecimal s)) rest
  | name {c : Char} {s rest : Text} (hc : isNameStart c) (hs : ∀ d ∈ s, isNameChar d)
      (hends : ∀ d ∈ rest.head?, isNameChar d = false) :
      Slice o (c :: s) (ofName o (c :: s) rest) rest
  | literal {quote : Char} {value rest : Text} (hquote : quote = '"' ∨ quote = '\'') (hvalue : quote ∉ value) :
      Slice o (quote :: (value ++ [quote])) (.literal value) rest
  | pair {c d : Char} {t : Token} {rest : Text} (h : pair? c [d] = some (t, [])) :
      Slice o [c, d] t rest
  | single {c : Char} {t : Token} {rest : Text} (h : single? o c = some t)
      (hpair : pair? c rest = none) (hnumber : startsNumber c rest = false) : Slice o [c] t rest

/-- No token begins with the character, given what follows it. -/
structure Offends (c : Char) (r : Text) : Prop where
  notSpace : Text.isSpace c = false
  notName : isNameStart c = false
  notDigit : c.isDigit = false
  notMark : c ∉ ("\"'/.@,()[]|+-*=<>" : Text)
  notColons : c = ':' → r.head? ≠ some ':'
  notUnequal : c = '!' → r.head? ≠ some '='

/-- The longest front of a text with characters of a class, and what follows it. -/
theorem exists_takeWhile_split (p : Char → Bool) (u : Text) :
    ∃ v w, u.takeWhile p = v ∧ u.dropWhile p = w ∧ u = v ++ w ∧ (∀ d ∈ v, p d) ∧
      ∀ d ∈ w.head?, p d = false := by
  refine ⟨_, _, rfl, rfl, List.takeWhile_append_dropWhile.symm, fun d => List.mem_takeWhile_imp, ?_⟩
  intro d hd
  have hhead := List.head?_dropWhile_not p u
  rwa [hd] at hhead

private theorem exists_numeral_of_startsNumber (h : startsNumber c r) :
    ∃ s rest, splitNumber (c :: r) = (s, rest) ∧ c :: r = s ++ rest ∧ Numeral s ∧
      ∀ d ∈ rest.head?, d.isDigit = false ∧ (d = '.' → '.' ∈ s) := by
  obtain ⟨digits, rest, htake, hdrop, hsplit, hdigits, hends⟩ :=
    exists_takeWhile_split Char.isDigit (c :: r)
  unfold splitNumber
  rw [htake, hdrop]
  cases rest with
  | nil =>
    refine ⟨digits, [], rfl, hsplit, .whole hdigits ?_, by simp⟩
    rintro rfl
    simp at hsplit
  | cons d rest =>
    by_cases hd : d = '.'
    · subst hd
      obtain ⟨decimals, rest', htake', hdrop', rfl, hdecimals, hends'⟩ :=
        exists_takeWhile_split Char.isDigit rest
      refine ⟨digits ++ '.' :: decimals, rest', ?_, by simpa using hsplit, .pointed hdigits hdecimals ?_,
        fun d hd => ⟨hends' d hd, fun _ => by simp⟩⟩
      · simp only [htake', hdrop']
      · -- Without digits on both sides of it, the point would be no number.
        intro hnone
        obtain ⟨rfl, rfl⟩ := List.append_eq_nil_iff.1 hnone
        obtain ⟨rfl, rfl⟩ := List.cons.inj hsplit
        cases r with
        | nil => simp [startsNumber] at h
        | cons d r => simp [startsNumber, hends' d rfl] at h
    · refine ⟨digits, d :: rest, ?_, hsplit, .whole hdigits ?_, ?_⟩
      · split
        · rename_i heq
          exact absurd (List.cons.inj heq).1 hd
        · rfl
      · rintro rfl
        obtain ⟨rfl, rfl⟩ := List.cons.inj hsplit
        simp [startsNumber, hd, hends c rfl] at h
      · intro x hx
        obtain rfl : d = x := Option.some.inj hx
        exact ⟨hends d rfl, fun heq => absurd heq hd⟩

/-- A numeral is read as a number if no longer one stands there. -/
theorem splitNumber_append (h : Numeral s)
    (hends : ∀ d ∈ rest.head?, d.isDigit = false ∧ (d = '.' → '.' ∈ s)) :
    splitNumber (s ++ rest) = (s, rest) ∧ ∃ c s', s = c :: s' ∧ startsNumber c (s' ++ rest) := by
  cases h with
  | whole hdigits hne =>
    have hdot : ∀ d ∈ rest.head?, d ≠ '.' := fun d hd heq => by
      have := hdigits '.' ((hends d hd).2 heq)
      revert this
      decide
    obtain ⟨c, s', rfl⟩ := List.exists_cons_of_ne_nil hne
    obtain ⟨htake, hdrop⟩ := takeWhile_append_of_head hdigits fun d hd => (hends d hd).1
    refine ⟨?_, c, s', rfl, by simp [startsNumber, hdigits c List.mem_cons_self]⟩
    rw [splitNumber, htake, hdrop]
    split
    · exact absurd rfl (hdot '.' rfl)
    · rfl
  | @pointed digits decimals hdigits hdecimals hne =>
    have hpoint : ∀ d ∈ ('.' :: (decimals ++ rest)).head?, d.isDigit = false := by
      rintro d ⟨⟩
      decide
    obtain ⟨htake, hdrop⟩ := takeWhile_append_of_head hdigits hpoint
    obtain ⟨htake', hdrop'⟩ := takeWhile_append_of_head hdecimals fun d hd => (hends d hd).1
    refine ⟨?_, ?_⟩
    · rw [List.append_assoc, List.cons_append, splitNumber, htake, hdrop]
      simp only [htake', hdrop']
    · cases digits with
      | cons c digits =>
        exact ⟨c, _, rfl, by simp [startsNumber, hdigits c List.mem_cons_self]⟩
      | nil =>
        obtain ⟨d, decimals, rfl⟩ := List.exists_cons_of_ne_nil (l := decimals) (by simpa using hne)
        exact ⟨'.', _, rfl, by simp [startsNumber, hdecimals d List.mem_cons_self]⟩

theorem Numeral.ne_nil (h : Numeral s) : s ≠ [] := by
  cases h with
  | whole _ hne => exact hne
  | pointed => simp

@[simp] theorem cut?_eq_none_iff : Text.cut? c r = none ↔ c ∉ r := by
  induction r with
  | nil => simp [Text.cut?]
  | cons d r ih =>
    rw [Text.cut?, List.mem_cons, not_or]
    by_cases hd : d = c
    · simp [hd]
    · simp [hd, ih, Ne.symm hd]

private theorem exists_of_pair? (h : pair? c r = some (t, rest)) :
    ∃ d, r = d :: rest ∧ pair? c [d] = some (t, []) := by
  unfold pair? at h
  split at h <;> cases h <;> exact ⟨_, rfl, rfl⟩

private theorem pair?_cons {d : Char} (h : pair? c [d] = some (t, [])) (rest : Text) :
    pair? c (d :: rest) = some (t, rest) := by
  unfold pair? at h
  split at h <;> simp_all [pair?]

@[simp] theorem single?_eq_none_iff : single? o c = none ↔ c ∉ ("/.@,()[]|+-*=<>" : Text) := by
  unfold single?
  split <;> simp_all

private theorem scan_quote (hquote : c = '"' ∨ c = '\'') :
    scan o c r = match Text.cut? c r with
      | none => .error .openLiteral
      | some (value, rest) => .ok (.literal value, rest) := by
  have hnumber : ¬ startsNumber c r = true := by rcases hquote with rfl | rfl <;> simp [startsNumber]
  have hname : ¬ isNameStart c = true := by rcases hquote with rfl | rfl <;> decide
  exact (if_neg hnumber).trans ((if_neg hname).trans (if_pos hquote))

/-- A mark begins no name and no literal. -/
theorem scan_mark (hmark : c ∈ ("/.@,()[]|+-*=<>:!" : Text)) (hnumber : startsNumber c r = false) :
    scan o c r = match pair? c r with
      | some found => .ok found
      | none =>
        match single? o c with
        | some t => .ok (t, r)
        | none => .error .unexpected := by
  have hother : ("/.@,()[]|+-*=<>:!" : Text).all fun d => !isNameStart d && d != '"' && d != '\'' := by
    decide
  obtain ⟨hname, hquote⟩ : ¬ isNameStart c = true ∧ ¬ (c = '"' ∨ c = '\'') := by
    simpa [and_assoc] using List.all_eq_true.1 hother c hmark
  have hstarts : ¬ startsNumber c r = true := by simp [hnumber]
  exact (if_neg hstarts).trans ((if_neg hname).trans (if_neg hquote))

/-- Every slice is cut off. -/
theorem Slice.scan (h : Slice o (c :: s) t rest) : XPath.scan o c (s ++ rest) = .ok (t, rest) := by
  generalize hs : c :: s = slice at h
  cases h with
  | number hnumeral hends =>
    obtain ⟨hsplit, d, s', rfl, hstarts⟩ := splitNumber_append hnumeral hends
    obtain ⟨rfl, rfl⟩ := List.cons.inj hs
    rw [XPath.scan, if_pos hstarts, ← List.cons_append, hsplit]
  | name hc hs' hends =>
    obtain ⟨rfl, rfl⟩ := List.cons.inj hs
    exact scan_name hc hs' hends
  | literal hquote hvalue =>
    obtain ⟨rfl, rfl⟩ := List.cons.inj hs
    rw [scan_quote hquote, List.append_assoc, List.singleton_append, cut?_append hvalue]
  | @pair _ d _ _ hpair =>
    obtain ⟨rfl, rfl⟩ := List.cons.inj hs
    have hmark : c ∈ ("/.@,()[]|+-*=<>:!" : Text) ∧ startsNumber c (d :: rest) = false := by
      unfold pair? at hpair
      split at hpair <;> simp_all [startsNumber]
    rw [List.singleton_append, scan_mark hmark.1 hmark.2, pair?_cons hpair]
  | single hsingle hpair hnumber =>
    obtain ⟨rfl, rfl⟩ := List.cons.inj hs
    have hmark : c ∈ ("/.@,()[]|+-*=<>:!" : Text) := by
      by_contra hnot
      have hnone := single?_eq_none_iff (o := o).2 fun hmem => hnot (List.mem_append_left [':', '!'] hmem)
      cases hsingle.symm.trans hnone
    rw [List.nil_append, scan_mark hmark hnumber, hpair, hsingle]

/-- Why no token is cut off where one should begin. -/
def Refused : LexicalFault → Char → Text → Prop
  | .unexpected, c, r => Offends c r
  | .openLiteral, c, r => (c = '"' ∨ c = '\'') ∧ c ∉ r

theorem Offends.scan (h : Offends c r) : XPath.scan o c r = .error .unexpected := by
  have hmark := h.notMark
  have hnumber : ¬ startsNumber c r = true := by
    have hdot : c ≠ '.' := by
      rintro rfl
      exact hmark (by decide)
    simp [startsNumber, h.notDigit, hdot]
  have hquote : ¬ (c = '"' ∨ c = '\'') := by rintro (rfl | rfl) <;> exact hmark (by decide)
  have hpair : pair? c r = none := by
    obtain ⟨-, -, -, -, hcolons, hunequal⟩ := h
    unfold pair?
    split <;> simp_all
  have hsingle : single? o c = none :=
    single?_eq_none_iff.2 fun hmem => hmark (List.mem_append_right ['"', '\''] hmem)
  rw [XPath.scan, if_neg hnumber, if_neg (by simp [h.notName]), if_neg hquote, hpair, hsingle]

theorem Refused.scan {fault : LexicalFault} (h : Refused fault c r) :
    XPath.scan o c r = .error fault := by
  cases fault with
  | unexpected => exact Offends.scan h
  | openLiteral => rw [scan_quote h.1, cut?_eq_none_iff.2 h.2]

/-- At every character that is no white space a token begins, or it is refused. -/
theorem slice_or_refused (o : Bool) (hspace : Text.isSpace c = false) (r : Text) :
    (∃ s t rest, r = s ++ rest ∧ Slice o (c :: s) t rest) ∨ ∃ fault, Refused fault c r := by
  by_cases hnumber : startsNumber c r = true
  · obtain ⟨s, rest, -, htext, hnumeral, hends⟩ := exists_numeral_of_startsNumber hnumber
    obtain ⟨d, s, rfl⟩ := List.exists_cons_of_ne_nil hnumeral.ne_nil
    obtain ⟨rfl, rfl⟩ := List.cons.inj htext
    exact .inl ⟨s, _, rest, rfl, .number hnumeral hends⟩
  by_cases hname : isNameStart c = true
  · obtain ⟨s, rest, -, -, rfl, hs, hends⟩ := exists_takeWhile_split isNameChar r
    exact .inl ⟨s, _, rest, rfl, .name hname hs hends⟩
  by_cases hquote : c = '"' ∨ c = '\''
  · by_cases hclosed : c ∈ r
    · obtain ⟨value, rest, rfl, hvalue⟩ := List.eq_append_cons_of_mem hclosed
      exact .inl ⟨value ++ [c], _, rest, by simp, .literal hquote hvalue⟩
    · exact .inr ⟨.openLiteral, hquote, hclosed⟩
  cases hpair : pair? c r with
  | some found =>
    obtain ⟨t, rest⟩ := found
    obtain ⟨d, rfl, hd⟩ := exists_of_pair? hpair
    exact .inl ⟨[d], _, _, rfl, .pair hd⟩
  | none =>
    cases hsingle : single? o c with
    | some t => exact .inl ⟨[], t, r, rfl, .single hsingle hpair (by simpa using hnumber)⟩
    | none =>
      simp only [startsNumber, Bool.or_eq_true, not_or, Bool.not_eq_true] at hnumber
      refine .inr ⟨.unexpected, hspace, by simpa using hname, hnumber.1, ?_, ?_, ?_⟩
      · have hmark := single?_eq_none_iff.1 hsingle
        simp_all
      · rintro rfl hr
        obtain ⟨r, rfl⟩ := List.head?_eq_some_iff.1 hr
        cases hpair
      · rintro rfl hr
        obtain ⟨r, rfl⟩ := List.head?_eq_some_iff.1 hr
        cases hpair

/-- What is cut off is a slice, and it stands at the front. -/
theorem scan_eq_ok_iff (hspace : Text.isSpace c = false) :
    scan o c r = .ok (t, rest) ↔ ∃ s, r = s ++ rest ∧ Slice o (c :: s) t rest := by
  constructor
  · intro h
    obtain ⟨s, t', rest', rfl, hslice⟩ | ⟨fault, hrefused⟩ := slice_or_refused o hspace r
    · cases h.symm.trans hslice.scan
      exact ⟨s, rfl, hslice⟩
    · cases h.symm.trans hrefused.scan
  · rintro ⟨s, rfl, h⟩
    exact h.scan

private theorem scan_eq_error_iff {fault : LexicalFault} (hspace : Text.isSpace c = false) :
    scan o c r = .error fault ↔ Refused fault c r := by
  refine ⟨fun h => ?_, Refused.scan⟩
  obtain ⟨s, t, rest, rfl, hslice⟩ | ⟨fault', hrefused⟩ := slice_or_refused o hspace r
  · cases h.symm.trans hslice.scan
  · cases h.symm.trans hrefused.scan
    exact hrefused

/-- What one turn takes from a text. -/
inductive Piece where
  | blank (c : Char)
  | lexeme (slice : Text) (token : Token)

namespace Piece

def text : Piece → Text
  | blank c => [c]
  | lexeme slice _ => slice

def slice? : Piece → Option Text
  | blank _ => none
  | lexeme slice _ => some slice

def token? : Piece → Option Token
  | blank _ => none
  | lexeme _ token => some token

/-- Whether an operand is expected after the piece. White space does not change that. -/
def opensOperand (o : Bool) : Piece → Bool
  | blank _ => o
  | lexeme _ token => token.opensOperand

end Piece

/-- One turn of the reader: a piece is taken from the front of the text, and the rest is left. -/
inductive Turn (o : Bool) : Text → Piece → Text → Prop
  | blank {c : Char} {r : Text} (h : Text.isSpace c) : Turn o (c :: r) (.blank c) r
  | lexeme {c : Char} {s rest : Text} {t : Token} (hspace : Text.isSpace c = false)
      (h : scan o c (s ++ rest) = .ok (t, rest)) :
      Turn o (c :: (s ++ rest)) (.lexeme (c :: s) t) rest

/-- Turns one after the other: the pieces, and what is left in the end. -/
inductive Turns : Bool → Text → List Piece → Text → Prop
  | done {o : Bool} {s : Text} : Turns o s [] s
  | turn {o : Bool} {s r rest : Text} {p : Piece} {ps : List Piece} (h : Turn o s p r)
      (hs : Turns (p.opensOperand o) r ps rest) : Turns o s (p :: ps) rest

variable {p : Piece} {ps : List Piece}

private theorem Turn.advances (h : Turn o s p rest) : p.text ≠ [] ∧ s = p.text ++ rest := by
  cases h with
  | blank => exact ⟨List.cons_ne_nil _ _, rfl⟩
  | lexeme => exact ⟨List.cons_ne_nil _ _, rfl⟩

private theorem Turns.text_eq (h : Turns o s ps rest) : s = ps.flatMap Piece.text ++ rest := by
  induction h with
  | done => rfl
  | turn h _ ih => rw [h.advances.2, ih, List.flatMap_cons, List.append_assoc]

theorem Turns.length_le (h : Turns o s ps rest) : ps.length ≤ (ps.flatMap Piece.text).length := by
  induction h with
  | done => exact Nat.le_refl 0
  | turn h _ ih =>
    have := List.length_pos_of_ne_nil h.advances.1
    simp only [List.length_cons, List.flatMap_cons, List.length_append]
    omega

private theorem Turns.isSpace_of_blank (h : Turns o s ps rest) (hc : .blank c ∈ ps) :
    Text.isSpace c := by
  induction h with
  | done => cases hc
  | turn h _ ih =>
    rcases List.mem_cons.1 hc with rfl | hc
    · cases h
      assumption
    · exact ih hc

/-- The pieces that were taken contribute their tokens. -/
theorem Turns.tokensFrom_eq (h : Turns o s ps rest) :
    ∃ o', tokensFrom o s = (tokensFrom o' rest).map (ps.filterMap Piece.token? ++ ·) := by
  induction h with
  | @done o s =>
    refine ⟨o, ?_⟩
    cases tokensFrom o s <;> rfl
  | turn h _ ih =>
    obtain ⟨o', ih⟩ := ih
    refine ⟨o', ?_⟩
    cases h with
    | blank hspace => exact (tokensFrom_space hspace).trans ih
    | lexeme hspace hscan =>
      rw [tokensFrom_cons hspace hscan]
      refine (congrArg _ ih).trans ?_
      cases tokensFrom o' _ <;> rfl

/-- Turns are taken up to the end, or up to a character at which no token is cut off. -/
theorem exists_turns (o : Bool) (s : Text) :
    (∃ ps, Turns o s ps []) ∨
      ∃ ps c r fault, Turns o s ps (c :: r) ∧ Text.isSpace c = false ∧ Refused fault c r := by
  induction o, s using tokensFrom.induct with
  | case1 o => exact .inl ⟨[], .done⟩
  | case2 o c r hspace ih =>
    refine ih.imp ?_ ?_
    · rintro ⟨ps, hps⟩
      exact ⟨_, .turn (.blank hspace) hps⟩
    · rintro ⟨ps, d, r', fault, hps, hd⟩
      exact ⟨_, d, r', fault, .turn (.blank hspace) hps, hd⟩
  | case3 o c r hspace fault hscan =>
    have hspace : Text.isSpace c = false := by simpa using hspace
    exact .inr ⟨[], c, r, fault, .done, hspace, (scan_eq_error_iff hspace).1 hscan⟩
  | case4 o c r hspace t rest hscan ih =>
    have hspace : Text.isSpace c = false := by simpa using hspace
    obtain ⟨s, rfl, -⟩ := (scan_eq_ok_iff hspace).1 hscan
    refine ih.imp ?_ ?_
    · rintro ⟨ps, hps⟩
      exact ⟨_, .turn (.lexeme hspace hscan) hps⟩
    · rintro ⟨ps, d, r', fault, hps, hd⟩
      exact ⟨_, d, r', fault, .turn (.lexeme hspace hscan) hps, hd⟩

@[simp] theorem tokensFrom_nil (o : Bool) : tokensFrom o [] = .ok [] := by
  unfold tokensFrom
  rfl

private theorem tokensFrom_refused {fault : LexicalFault} (hspace : Text.isSpace c = false)
    (h : Refused fault c r) : tokensFrom o (c :: r) = .error ⟨fault, c :: r⟩ := by
  rw [tokensFrom.eq_def]
  dsimp only
  rw [if_neg (by simp [hspace])]
  split
  · rename_i hscan
    cases hscan.symm.trans h.scan
    rfl
  · rename_i hscan
    cases hscan.symm.trans h.scan

private theorem tokens_eq_ok_iff :
    tokens s = .ok ts ↔ ∃ ps, Turns true s ps [] ∧ ps.filterMap Piece.token? = ts := by
  have hend : ∀ {ps}, Turns true s ps [] → tokens s = .ok (ps.filterMap Piece.token?) := by
    intro ps hps
    obtain ⟨o', heq⟩ := hps.tokensFrom_eq
    rw [tokens, heq, tokensFrom_nil]
    simp [Except.map]
  constructor
  · intro h
    obtain ⟨ps, hps⟩ | ⟨ps, c, r, fault, hps, hspace, hrefused⟩ := exists_turns true s
    · exact ⟨ps, hps, Except.ok.inj ((hend hps).symm.trans h)⟩
    · obtain ⟨o', heq⟩ := hps.tokensFrom_eq
      rw [tokens, heq, tokensFrom_refused hspace hrefused] at h
      cases h
  · rintro ⟨ps, hps, rfl⟩
    exact hend hps

private theorem tokens_eq_error_iff {e : LexicalError} :
    tokens s = .error e ↔ ∃ ps c r, Turns true s ps (c :: r) ∧ e.rest = c :: r ∧
      Text.isSpace c = false ∧ Refused e.fault c r := by
  have hstop : ∀ {ps c r fault}, Turns true s ps (c :: r) → Text.isSpace c = false →
      Refused fault c r → tokens s = .error ⟨fault, c :: r⟩ := by
    intro ps c r fault hps hspace hrefused
    obtain ⟨o', heq⟩ := hps.tokensFrom_eq
    rw [tokens, heq, tokensFrom_refused hspace hrefused]
    rfl
  constructor
  · intro h
    obtain ⟨ps, hps⟩ | ⟨ps, c, r, fault, hps, hspace, hrefused⟩ := exists_turns true s
    · cases h.symm.trans (tokens_eq_ok_iff.2 ⟨ps, hps, rfl⟩)
    · cases h.symm.trans (hstop hps hspace hrefused)
      exact ⟨ps, c, r, hps, rfl, hspace, hrefused⟩
  · rintro ⟨ps, c, r, hps, hrest, hspace, hrefused⟩
    rw [hstop hps hspace hrefused, ← hrest]

/-- Texts one after the other, with white space of ASCII between neighbours. -/
inductive Spaced : List Text → Text → Prop
  | nil : Spaced [] []
  | cons {w gap s : Text} {ws : List Text} (h : Spaced ws s)
      (hgap : ∀ c ∈ gap, Text.isSpace c ∧ Text.isAscii c) (hsep : ws ≠ [] → gap ≠ []) :
      Spaced (w :: ws) (w ++ gap ++ s)

private theorem tokensFrom_spaces {gap : Text} (h : ∀ c ∈ gap, Text.isSpace c) :
    tokensFrom o (gap ++ r) = tokensFrom o r := by
  induction gap with
  | nil => rfl
  | cons c gap ih =>
    rw [List.cons_append, tokensFrom_space (h c List.mem_cons_self)]
    exact ih fun d hd => h d (List.mem_cons_of_mem c hd)

/-- A name before one of the two texts is what it is before the other one. -/
def SameRole (r r' : Text) : Prop := ∀ name, roleOfName name r = roleOfName name r'

/-- White space of ASCII neither continues a number or a name nor completes a pair. -/
theorem blank_ends (hspace : Text.isSpace c) (hascii : Text.isAscii c) :
    isNameChar c = false ∧ c ∉ ['/', ':', '=', '.'] := by
  have hcode : c.toNat ∈ [9, 10, 11, 12, 13, 32] := by
    simp only [Text.isAscii, decide_eq_true_eq] at hascii
    simp only [Text.isSpace, Bool.or_eq_true, Bool.and_eq_true, decide_eq_true_eq, beq_iff_eq] at hspace
    simp only [List.mem_cons, List.not_mem_nil, or_false]
    omega
  have hblanks : ∀ n ∈ [9, 10, 11, 12, 13, 32],
      isNameChar (Char.ofNat n) = false ∧ Char.ofNat n ∉ ['/', ':', '=', '.'] := by decide
  have hc := hblanks c.toNat hcode
  rwa [Char.ofNat_toNat] at hc

theorem sameRole_append {gap : Text} (h : ∀ c ∈ gap, Text.isSpace c) (r : Text) :
    SameRole (gap ++ r) r := by
  intro name
  unfold roleOfName Text.skipSpace
  rw [List.dropWhile_append_of_pos h]

private theorem roleOfName_of_ne (hspace : Text.isSpace c = false)
    (hparen : c ≠ '(') (hcolon : c ≠ ':') (name r : Text) : roleOfName name (c :: r) = .name name := by
  simp [roleOfName, Text.skipSpace, hspace, hparen, hcolon]

/-- A colon is no token without another one. -/
theorem eq_of_scan_colon (h : scan o ':' r = .ok (t, rest)) : r = ':' :: rest := by
  rw [scan_mark (by decide) (by simp [startsNumber])] at h
  cases hpair : pair? ':' r with
  | none =>
    rw [hpair] at h
    cases h
  | some found =>
    rw [hpair] at h
    cases h
    obtain ⟨d, rfl, hd⟩ := exists_of_pair? hpair
    unfold pair? at hd
    split at hd <;> simp_all

/-- What follows the slice has no influence on a name before it. -/
theorem Slice.sameRole (h : Slice o (c :: s) t rest) (hspace : Text.isSpace c = false) (r : Text) :
    SameRole (c :: (s ++ rest)) (c :: (s ++ r)) := by
  intro name
  by_cases hparen : c = '('
  · subst hparen
    rfl
  by_cases hcolon : c = ':'
  · subst hcolon
    have hs : s ++ rest = [':'] ++ rest := eq_of_scan_colon h.scan
    rw [List.append_cancel_right hs]
    rfl
  · rw [roleOfName_of_ne hspace hparen hcolon, roleOfName_of_ne hspace hparen hcolon]

/-- Whether two characters are not a pair is told by the second one alone. -/
theorem pair?_eq_none_of_head (h : pair? c rest = none) (hhead : r.head? = rest.head?) :
    pair? c r = none := by
  cases hpair : pair? c r with
  | none => rfl
  | some found =>
    obtain ⟨t, later⟩ := found
    obtain ⟨d, rfl, hd⟩ := exists_of_pair? hpair
    obtain ⟨rest, rfl⟩ := List.head?_eq_some_iff.1 hhead.symm
    cases h.symm.trans (pair?_cons hd rest)

private theorem pair?_eq_none_of_not_mark (h : ∀ d ∈ r.head?, d ∉ ['/', ':', '=', '.']) :
    pair? c r = none := by
  cases r with
  | nil =>
    unfold pair?
    split <;> simp_all
  | cons d r =>
    have hd := h d rfl
    unfold pair?
    split <;> simp_all

/-- A slice stays one before a text that begins in the same way, or with a character that continues
no slice, if a name keeps its role. -/
theorem Slice.followed (h : Slice o s t rest) (hrole : SameRole rest r)
    (hhead : r.head? = rest.head? ∨
      ∀ c ∈ r.head?, isNameChar c = false ∧ c ∉ ['/', ':', '=', '.']) : Slice o s t r := by
  have hnumeral : (∀ c ∈ r.head?, isNameChar c = false ∧ c ∉ ['/', ':', '=', '.']) →
      ∀ c ∈ r.head?, c.isDigit = false ∧ c ≠ '.' := fun hends c hc =>
    isDigit_of_not_isNameChar (hends c hc).1
  cases h with
  | number h hends =>
    refine .number h fun c hc => ?_
    rcases hhead with hhead | hhead
    · exact hends c (hhead ▸ hc)
    · obtain ⟨hdigit, hdot⟩ := hnumeral hhead c hc
      exact ⟨hdigit, fun heq => absurd heq hdot⟩
  | @name c s _ hc hs hends =>
    have hname : ofName o (c :: s) rest = ofName o (c :: s) r := by
      unfold ofName
      rw [hrole]
    rw [hname]
    refine .name hc hs fun d hd => ?_
    rcases hhead with hhead | hhead
    · exact hends d (hhead ▸ hd)
    · exact (hhead d hd).1
  | literal hquote hvalue => exact .literal hquote hvalue
  | pair hpair => exact .pair hpair
  | @single c _ _ hsingle hpair hnumber =>
    rcases hhead with hhead | hhead
    · refine .single hsingle (pair?_eq_none_of_head hpair hhead) ?_
      rwa [startsNumber, hhead]
    · refine .single hsingle (pair?_eq_none_of_not_mark fun d hd => (hhead d hd).2) ?_
      have hdigit : r.head?.any Char.isDigit = false := by
        rw [Option.any_eq_false_iff_get]
        exact fun hsome => by simpa using (hnumeral hhead _ (Option.get_mem hsome)).1
      simp only [startsNumber, Bool.or_eq_false_iff] at hnumber ⊢
      exact ⟨hnumber.1, by simp [hdigit]⟩

/-- A slice stays one before white space that is followed by the same role. -/
theorem Slice.respaced (h : Slice o s t rest) (hrole : SameRole rest r)
    (hends : ∀ c ∈ r.head?, Text.isSpace c ∧ Text.isAscii c) : Slice o s t r :=
  h.followed hrole (.inr fun c hc => blank_ends (hends c hc).1 (hends c hc).2)

/-- After a slice there is white space or nothing. -/
theorem Spaced.ends {gap : Text} {ws : List Text} (h : Spaced ws s)
    (hgap : ∀ c ∈ gap, Text.isSpace c ∧ Text.isAscii c) (hsep : ws ≠ [] → gap ≠ []) :
    ∀ c ∈ (gap ++ s).head?, Text.isSpace c ∧ Text.isAscii c := by
  cases gap with
  | cons d gap =>
    intro c hc
    cases hc
    exact hgap d List.mem_cons_self
  | nil =>
    cases h with
    | nil => simp
    | cons => exact absurd rfl (hsep (List.cons_ne_nil _ _))

/-- The slices of a text that is cut up to its end give the same tokens with other white space between
them, and a name before the text keeps its role. -/
theorem Turns.respaced (h : Turns o s ps []) (hs : Spaced (ps.filterMap Piece.slice?) s') :
    tokensFrom o s' = .ok (ps.filterMap Piece.token?) ∧ SameRole s s' := by
  generalize hrest : ([] : Text) = rest at h
  induction h generalizing s' with
  | done =>
    subst hrest
    cases hs
    exact ⟨tokensFrom_nil _, fun _ => rfl⟩
  | @turn o s r rest p ps h _ ih =>
    cases h with
    | @blank c r hspace =>
      obtain ⟨htokens, hrole⟩ := ih hs hrest
      have hblank : SameRole (c :: r) r := sameRole_append (List.forall_mem_singleton.2 hspace) r
      exact ⟨htokens, fun name => (hblank name).trans (hrole name)⟩
    | @lexeme c w r t hspace hscan =>
      cases hs with
      | @cons _ gap s'' _ hs hgap hsep =>
        obtain ⟨htokens, hrole⟩ := ih hs hrest
        obtain ⟨w', hw, hslice⟩ := (scan_eq_ok_iff hspace).1 hscan
        obtain rfl := List.append_cancel_right hw
        have hgaps : SameRole r (gap ++ s'') := fun name =>
          (hrole name).trans (sameRole_append (fun d hd => (hgap d hd).1) s'' name).symm
        have hspaced := hslice.respaced hgaps (hs.ends hgap hsep)
        constructor
        · have hrest : tokensFrom t.opensOperand (gap ++ s'') = .ok (ps.filterMap Piece.token?) :=
            (tokensFrom_spaces fun d hd => (hgap d hd).1).trans htokens
          rw [List.append_assoc, List.cons_append, tokensFrom_cons hspace hspaced.scan, hrest]
          rfl
        · rw [List.append_assoc]
          exact hslice.sameRole hspace (gap ++ s'')

/-- The error for a fault at a character. -/
def LexicalFault.errorAt (c : Char) (offset : Nat) : LexicalFault → Error
  | unexpected => .unexpectedCharacter c offset
  | openLiteral => .openLiteral offset

theorem Refused.notSpace {fault : LexicalFault} (h : Refused fault c r) : Text.isSpace c = false := by
  cases fault with
  | unexpected => exact Offends.notSpace h
  | openLiteral => rcases h.1 with rfl | rfl <;> decide

/-- The place of a fault is where the characters begin that were not taken. -/
@[simp] theorem toError_append (before : Text) (fault : LexicalFault) :
    LexicalError.toError (before ++ c :: r) ⟨fault, c :: r⟩ = fault.errorAt c before.length := by
  have hoffset : (before ++ c :: r).length - (c :: r).length = before.length := by simp
  unfold LexicalError.toError
  dsimp only
  rw [hoffset]
  cases fault <;> rfl

private theorem mapError_eq_error_iff {e : Error} :
    (tokens s).mapError (·.toError s) = .error e ↔ ∃ ps c r fault, Turns true s ps (c :: r) ∧
      Refused fault c r ∧ e = fault.errorAt c (ps.flatMap Piece.text).length := by
  have herror : ∀ {ps c r fault}, Turns true s ps (c :: r) →
      LexicalError.toError s ⟨fault, c :: r⟩ = fault.errorAt c (ps.flatMap Piece.text).length := by
    intro ps c r fault hps
    conv_lhs => rw [hps.text_eq]
    exact toError_append _ fault
  constructor
  · intro h
    cases htokens : tokens s with
    | ok ts =>
      rw [htokens] at h
      cases h
    | error fault =>
      obtain ⟨ps, c, r, hps, hrest, -, hrefused⟩ := tokens_eq_error_iff.1 htokens
      rw [htokens] at h
      cases h
      obtain ⟨fault, rest⟩ := fault
      obtain rfl : rest = c :: r := hrest
      exact ⟨ps, c, r, fault, hps, hrefused, herror hps⟩
  · rintro ⟨ps, c, r, fault, hps, hrefused, rfl⟩
    have htokens : tokens s = .error ⟨fault, c :: r⟩ :=
      tokens_eq_error_iff.2 ⟨ps, c, r, hps, rfl, hrefused.notSpace, hrefused⟩
    rw [htokens]
    exact congrArg Except.error (herror hps)

/-- At every character that is no white space the reader takes a slice that begins with it, or refuses
it for a reason. So there are no more turns than characters, the pieces that were taken and the rest
are the text, and a text has tokens if and only if it is taken up to its end. Then the tokens are the
same with any white space of ASCII between their slices. Otherwise the reported place is the place in
the text of the character that is refused. -/
theorem slices_make_up_text (s : Text) :
    (∀ o c r, Text.isSpace c = false →
      (∃ u t rest, r = u ++ rest ∧ Slice o (c :: u) t rest ∧ scan o c r = .ok (t, rest)) ∨
        ∃ fault, Refused fault c r ∧ scan o c r = .error fault) ∧
      (∀ ps rest, Turns true s ps rest →
        s = ps.flatMap Piece.text ++ rest ∧ ps.length ≤ s.length ∧
          ∀ c, .blank c ∈ ps → Text.isSpace c) ∧
      (∀ ts, tokens s = .ok ts ↔ ∃ ps, Turns true s ps [] ∧ ps.filterMap Piece.token? = ts) ∧
      (∀ ps, Turns true s ps [] → ∀ s', Spaced (ps.filterMap Piece.slice?) s' → tokens s' = tokens s) ∧
      ∀ e, (tokens s).mapError (·.toError s) = .error e ↔
        ∃ ps c r fault, Turns true s ps (c :: r) ∧ s[(ps.flatMap Piece.text).length]? = some c ∧
          Refused fault c r ∧ e = fault.errorAt c (ps.flatMap Piece.text).length := by
  refine ⟨?_, ?_, fun ts => tokens_eq_ok_iff, ?_, ?_⟩
  · intro o c r hspace
    obtain ⟨u, t, rest, rfl, hslice⟩ | ⟨fault, hrefused⟩ := slice_or_refused o hspace r
    · exact .inl ⟨u, t, rest, rfl, hslice, hslice.scan⟩
    · exact .inr ⟨fault, hrefused, hrefused.scan⟩
  · intro ps rest hps
    refine ⟨hps.text_eq, hps.length_le.trans ?_, fun c => hps.isSpace_of_blank⟩
    conv_rhs => rw [hps.text_eq, List.length_append]
    exact Nat.le_add_right _ _
  · intro ps hps s' hs
    exact (hps.respaced hs).1.trans (tokens_eq_ok_iff.2 ⟨ps, hps, rfl⟩).symm
  · intro e
    have hplace : ∀ {ps c r}, Turns true s ps (c :: r) →
        s[(ps.flatMap Piece.text).length]? = some c := by
      intro ps c r hps
      conv_lhs => rw [hps.text_eq]
      simp
    rw [mapError_eq_error_iff]
    constructor
    · rintro ⟨ps, c, r, fault, hps, hrefused, rfl⟩
      exact ⟨ps, c, r, fault, hps, hplace hps, hrefused, rfl⟩
    · rintro ⟨ps, c, r, fault, hps, -, hrefused, rfl⟩
      exact ⟨ps, c, r, fault, hps, hrefused, rfl⟩

/-- An axis, an asterisk after an operand and a number without white space between them. -/
theorem slices_make_up_text_respaced :
    tokens "a::b*.5" = .ok [.axis "a", .doubleColon, .name "b", .operator .multiply,
        .number (.ofDecimal ".5")] ∧
      tokens "a ::\tb *\n .5" = tokens "a::b*.5" := by
  have haxis : Turn true "a::b*.5" (.lexeme "a" (.axis "a")) "::b*.5" :=
    @Turn.lexeme true 'a' "" "::b*.5" (.axis "a") (by decide) rfl
  have hcolons : Turn false "::b*.5" (.lexeme "::" .doubleColon) "b*.5" :=
    @Turn.lexeme false ':' ":" "b*.5" .doubleColon (by decide) rfl
  have hname : Turn true "b*.5" (.lexeme "b" (.name "b")) "*.5" :=
    @Turn.lexeme true 'b' "" "*.5" (.name "b") (by decide) rfl
  have htimes : Turn false "*.5" (.lexeme "*" (.operator .multiply)) ".5" :=
    @Turn.lexeme false '*' "" ".5" (.operator .multiply) (by decide) rfl
  have hnumber : Turn true ".5" (.lexeme ".5" (.number (.ofDecimal ".5"))) "" :=
    @Turn.lexeme true '.' "5" "" (.number (.ofDecimal ".5")) (by decide) rfl
  have hps := Turns.turn haxis (.turn hcolons (.turn hname (.turn htimes (.turn hnumber .done))))
  have hgap : ∀ {gap : Text}, (gap.all fun c => Text.isSpace c && Text.isAscii c) →
      ∀ c ∈ gap, Text.isSpace c ∧ Text.isAscii c := fun h c hc => by
    simpa using List.all_eq_true.1 h c hc
  have hfive : Spaced [".5"] ".5" := @Spaced.cons ".5" "" "" _ .nil (hgap (by decide)) (by decide)
  have hfour : Spaced ["*", ".5"] "*\n .5" :=
    @Spaced.cons "*" "\n " ".5" _ hfive (hgap (by decide)) (by decide)
  have hthree : Spaced ["b", "*", ".5"] "b *\n .5" :=
    @Spaced.cons "b" " " "*\n .5" _ hfour (hgap (by decide)) (by decide)
  have htwo : Spaced ["::", "b", "*", ".5"] "::\tb *\n .5" :=
    @Spaced.cons "::" "\t" "b *\n .5" _ hthree (hgap (by decide)) (by decide)
  have hspaced : Spaced ["a", "::", "b", "*", ".5"] "a ::\tb *\n .5" :=
    @Spaced.cons "a" " " "::\tb *\n .5" _ htwo (hgap (by decide)) (by decide)
  obtain ⟨-, -, htokens, hrespaced, -⟩ := slices_make_up_text "a::b*.5"
  exact ⟨(htokens _).2 ⟨_, hps, rfl⟩, hrespaced _ hps _ hspaced⟩

end CssLocator.XPath
