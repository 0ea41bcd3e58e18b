import CssLocator.Proofs.ReadCompounds

/-!
# Names with every character escaped

Every character can be escaped: by a backslash, or, if it is a hexadecimal digit or ends a line, by a
backslash and six hexadecimal digits for its code point. A name of such escapes is read back behind the
mark of ids, except for white space at its end: the text is trimmed before escapes are read, and the
backslash that is left over stands for no character.
-/

namespace CssLocator

open Identifier

variable {c : Char} {name r s t u digits : Text}

namespace Identifier

/-- Characters that are escaped by their code points: hexadecimal digits and ends of lines. -/
def needsCode (c : Char) : Bool := Text.isHexDigit c || c == '\n' || c == '\r' || c == '\x0c'

/-- The text is the character behind a backslash, as it is or as six hexadecimal digits. -/
inductive Escapes (c : Char) : Text → Prop
  | itself (hc : needsCode c = false) : Escapes c ['\\', c]
  | code {digits : Text} (hc : needsCode c) (hlength : digits.length = 6)
      (hdigits : ∀ d ∈ digits, Text.isHexDigit d) (hvalue : Text.hexValue digits = c.toNat) :
      Escapes c ('\\' :: digits)

/-- The text is the name with every character escaped. -/
inductive EscapedName : Text → Text → Prop
  | nil : EscapedName [] []
  | cons {c : Char} {name u s : Text} (hc : Escapes c u) (h : EscapedName name s) :
      EscapedName (c :: name) (u ++ s)

private theorem isHexDigit_iff_toNat : Text.isHexDigit c ↔
    (48 ≤ c.toNat ∧ c.toNat ≤ 57) ∨ (97 ≤ c.toNat ∧ c.toNat ≤ 102) ∨ 65 ≤ c.toNat ∧ c.toNat ≤ 70 := by
  have hle : ∀ a b : Char, a ≤ b ↔ a.toNat ≤ b.toNat := fun a b => UInt32.le_iff_toNat_le
  simp only [Text.isHexDigit, Bool.or_eq_true, Bool.and_eq_true, decide_eq_true_eq, isDigit_iff_toNat,
    hle, or_assoc]
  rfl

private theorem isContinue_of_isHexDigit (h : Text.isHexDigit c) : isContinue c := by
  rcases isHexDigit_iff_toNat.1 h with h | h
  · exact isContinue_of_isDigit (isDigit_iff_toNat.2 h)
  · have halpha : c.isAlpha := isAlpha_iff_toNat.2 (by omega)
    simp [isContinue, isStart, halpha]

private theorem isSpace_of_isHexDigit (h : Text.isHexDigit c) : Text.isSpace c = false := by
  have hc := isHexDigit_iff_toNat.1 h
  exact isSpace_of_lt (by omega) (by omega)

private theorem toNat_of_needsCode (h : needsCode c) : c.toNat ≠ 0 ∧ c.toNat < 103 := by
  simp only [needsCode, Bool.or_eq_true, beq_iff_eq] at h
  rcases h with ((h | rfl) | rfl) | rfl
  · have hc := isHexDigit_iff_toNat.1 h
    omega
  all_goals decide

/-- Every character has an escape. -/
theorem exists_escapes (c : Char) : ∃ u, Escapes c u := by
  have hsix : ∀ n < 103, ((Nat.toDigits 16 n).leftpad 6 '0').length = 6 ∧
      ((Nat.toDigits 16 n).leftpad 6 '0').all Text.isHexDigit ∧
      Text.hexValue ((Nat.toDigits 16 n).leftpad 6 '0') = n := by decide +kernel
  cases hc : needsCode c with
  | false => exact ⟨_, .itself hc⟩
  | true =>
    obtain ⟨hlength, hdigits, hvalue⟩ := hsix c.toNat (toNat_of_needsCode hc).2
    exact ⟨_, .code hc hlength (List.all_eq_true.1 hdigits) hvalue⟩

private theorem exists_escapedName (name : Text) : ∃ s, EscapedName name s := by
  induction name with
  | nil => exact ⟨[], .nil⟩
  | cons c name ih =>
    obtain ⟨u, hu⟩ := exists_escapes c
    obtain ⟨s, hs⟩ := ih
    exact ⟨u ++ s, .cons hu hs⟩

/-- No seventh digit belongs to an escape, but white space does. -/
theorem readEscape_six_digits (hlength : digits.length = 6) (hdigits : ∀ d ∈ digits, Text.isHexDigit d)
    (hr : ∀ d ∈ r.head?, Text.isSpace d = false) : readEscape (digits ++ r) = (ofHex digits, r) := by
  obtain ⟨d, ds, rfl⟩ := List.exists_cons_of_length_eq_add_one hlength
  obtain ⟨hd, hds⟩ := List.forall_mem_cons.1 hdigits
  have hfive : ds.length = 5 := Nat.succ.inj hlength
  have htake : ((ds ++ r).take 5).takeWhile Text.isHexDigit = ds := by
    rw [List.take_left' hfive, List.takeWhile_eq_self_iff.2 hds]
  rw [List.cons_append, readEscape, if_pos hd]
  dsimp only
  rw [htake, List.drop_left]
  cases r with
  | nil => rfl
  | cons c r => simp [hr c rfl]

private theorem Escapes.exists_readEscape (h : Escapes c u)
    (hr : ∀ d ∈ r.head?, Text.isSpace d = false) :
    ∃ v, u = '\\' :: v ∧ readEscape (v ++ r) = (c, r) := by
  cases h with
  | itself hc =>
    have hhex : Text.isHexDigit c = false := by
      simp only [needsCode, Bool.or_eq_false_iff] at hc
      exact hc.1.1.1
    exact ⟨[c], rfl, readEscape_of_not_hex r hhex⟩
  | @code digits hc hlength hdigits hvalue =>
    refine ⟨digits, rfl, ?_⟩
    rw [readEscape_six_digits hlength hdigits hr, ofHex_of_value hvalue (toNat_of_needsCode hc).1]

namespace EscapedName

theorem head?_append (h : EscapedName name s) (hr : ∀ d ∈ r.head?, Text.isSpace d = false) :
    ∀ d ∈ (s ++ r).head?, Text.isSpace d = false := by
  cases h with
  | nil => exact hr
  | cons hc _ =>
    cases hc <;>
    · rintro d ⟨⟩
      decide

/-- An escape is only read beyond its end if white space stands there. -/
theorem readWhile (h : EscapedName name s) (hr : ∀ d ∈ r.head?, Text.isSpace d = false) :
    Identifier.readWhile isContinue (s ++ r) =
      (name ++ (Identifier.readWhile isContinue r).1, (Identifier.readWhile isContinue r).2) := by
  induction h with
  | nil => rfl
  | cons hc h ih =>
    obtain ⟨v, rfl, hread⟩ := hc.exists_readEscape (h.head?_append hr)
    rw [List.append_assoc, List.cons_append, readWhile_backslash hread, ih]
    rfl

private theorem exists_last (h : EscapedName (name ++ [c]) s) :
    ∃ t u, s = t ++ u ∧ EscapedName name t ∧ Escapes c u := by
  induction name generalizing s with
  | nil =>
    cases h with
    | @cons _ _ u _ hc h =>
      cases h
      exact ⟨[], u, List.append_nil u, .nil, hc⟩
  | cons d name ih =>
    cases h with
    | @cons _ _ v _ hd h =>
      obtain ⟨t, u, rfl, ht, hu⟩ := ih h
      exact ⟨v ++ t, u, (List.append_assoc v t u).symm, .cons hd ht, hu⟩

end EscapedName

end Identifier

theorem Identifier.Escapes.unsplit (h : Escapes c u) : Unsplit .outside u .outside := by
  cases h with
  | itself => exact unsplit_escaped _ c
  | @code digits _ hlength hdigits _ =>
    obtain ⟨d, ds, rfl⟩ := List.exists_cons_of_length_eq_add_one hlength
    refine (unsplit_escaped _ d).append (unsplit_of_neutral rfl fun x hx => ?_)
    exact isNeutral_of_isContinue (isContinue_of_isHexDigit (hdigits x (List.mem_cons_of_mem d hx)))

theorem Identifier.EscapedName.unsplit (h : EscapedName name s) : Unsplit .outside s .outside := by
  induction h with
  | nil => exact .nil _
  | cons hc _ ih => exact hc.unsplit.append ih

private theorem read_id_of_readWhile (hsplit : Unsplit .outside s .outside) (hne : name ≠ [])
    (hread : readWhile isContinue (trimEnd s) = (name, [])) :
    SelectorList.read false ('#' :: s) = .ok [[(.descendant, [.id name])]] := by
  have hmark : Unsplit .outside ['#'] .outside := unsplit_neutral rfl (by decide)
  have htrim : Text.trim ('#' :: s) = '#' :: trimEnd s := by
    rw [trim_eq_trimEnd (by simp; decide), trimEnd_cons (by decide)]
  refine read_of_readCompound (hmark.cons hsplit) htrim rfl ?_
  exact readCompound_cons (Marks.id.readSimple (read?_of_readWhile hne hread)) readCompoundTail_nil

/-- Whether the last character is written as it is and trimmed away decides what is read. If the last
escape ends visibly, the whole name is read; else its backslash stays without its character. -/
theorem read_escapedName (h : EscapedName (name ++ [c]) s) :
    SelectorList.read false ('#' :: s) = .ok [[(.descendant,
      [.id (name ++ [if Text.isSpace c && !needsCode c then replacement else c])])]] := by
  refine read_id_of_readWhile h.unsplit (List.append_ne_nil_of_right_ne_nil _ (List.cons_ne_nil _ _)) ?_
  obtain ⟨t, u, rfl, ht, hu⟩ := h.exists_last
  have hkept : (∀ d ∈ u.getLast?, Text.isSpace d = false) →
      readWhile isContinue (trimEnd (t ++ u)) = (name ++ [c], []) := by
    intro hlast
    have hvisible : ∀ d ∈ (t ++ u).getLast?, Text.isSpace d = false := by
      obtain ⟨v, rfl, -⟩ := hu.exists_readEscape (r := []) nofun
      rwa [List.getLast?_append_of_ne_nil _ (List.cons_ne_nil _ _)]
    have hread := h.readWhile (r := []) nofun
    rw [trimEnd_eq_self hvisible]
    simpa [readWhile] using hread
  cases hu with
  | itself hc =>
    cases hspace : Text.isSpace c with
    | false => simpa using hkept (by simpa using hspace)
    | true =>
      have htrim : trimEnd (t ++ ['\\', c]) = t ++ ['\\'] := by
        have hblank : ∀ d ∈ [c], Text.isSpace d := by simpa using hspace
        rw [show t ++ ['\\', c] = t ++ ['\\'] ++ [c] by simp, trimEnd_append_space hblank]
        exact trimEnd_eq_self (by simp; decide)
      have hread := ht.readWhile (r := ['\\']) (by simp; decide)
      rw [htrim, hread, hc, readWhile_backslash (show readEscape [] = (replacement, []) from rfl)]
      simp [readWhile]
  | code hc _ hdigits =>
    have hcode : (if Text.isSpace c && !needsCode c then replacement else c) = c := by simp [hc]
    rw [hcode]
    refine hkept fun d hd => ?_
    rcases List.mem_cons.1 (List.mem_of_mem_getLast? hd) with rfl | hd
    · decide
    · exact isSpace_of_isHexDigit (hdigits d hd)

/-- A name of escapes behind the mark of ids is read back exactly if its last character is no white space
that is written as it is. Such a last character is replaced. -/
theorem escaped_ids_read_back (hne : name ≠ []) :
    (∃ s, EscapedName name s) ∧ ∀ s, EscapedName name s →
      (SelectorList.read false ('#' :: s) = .ok [[(.descendant, [.id name])]] ↔
        ∀ c ∈ name.getLast?, Text.isSpace c → needsCode c) ∧
      ∀ c ∈ name.getLast?, Text.isSpace c → needsCode c = false →
        SelectorList.read false ('#' :: s) =
          .ok [[(.descendant, [.id (name.dropLast ++ [replacement])])]] := by
  refine ⟨exists_escapedName name, fun s hs => ?_⟩
  obtain ⟨name, c, rfl⟩ := (List.eq_nil_or_concat name).resolve_left hne
  rw [List.concat_eq_append] at hs ⊢
  have hread := read_escapedName hs
  have hreplaced : Text.isSpace replacement = false := by decide
  simp only [List.getLast?_concat, Option.mem_some_iff, forall_eq', List.dropLast_concat]
  rw [hread]
  cases hspace : Text.isSpace c with
  | false => simp
  | true =>
    have hne : replacement ≠ c := by
      rintro rfl
      simp [hspace] at hreplaced
    cases hcode : needsCode c with
    | true => simp
    | false => simpa using hne

/-- The line feed at the end is written by its code and stays, the blank is not and gets lost. -/
theorem escaped_ids_read_back_lines :
    SelectorList.read false "#\\ \\,\\000041\\00000a" = .ok [[(.descendant, [.id " ,A\n"])]] ∧
      SelectorList.read false "#\\,\\ " = .ok [[(.descendant, [.id ",\uFFFD"])]] := by
  have hletter : Escapes 'A' "\\000041" := .code rfl rfl (List.all_eq_true.1 rfl) rfl
  have hline : Escapes '\n' "\\00000a" := .code rfl rfl (List.all_eq_true.1 rfl) rfl
  have hcomma : Escapes ',' "\\," := .itself (by decide)
  have hblank : Escapes ' ' "\\ " := .itself (by decide)
  have hkept : EscapedName " ,A\n" "\\ \\,\\000041\\00000a" :=
    .cons hblank (.cons hcomma (.cons hletter (.cons hline .nil)))
  have hlost : EscapedName ", " "\\,\\ " := .cons hcomma (.cons hblank .nil)
  constructor
  · exact (((escaped_ids_read_back (List.cons_ne_nil _ _)).2 _ hkept).1).2 (by simp; decide)
  · exact ((escaped_ids_read_back (List.cons_ne_nil _ _)).2 _ hlost).2 ' ' rfl (by decide) (by decide)

/-- Not every name of escapes is read back: a single blank is not. -/
theorem escaped_ids_misread :
    ¬ ∀ name s : Text, name ≠ [] → '\x00' ∉ name → EscapedName name s →
      SelectorList.read false ('#' :: s) = .ok [[(.descendant, [.id name])]] := by
  intro h
  have hread := h [' '] ['\\', ' '] (List.cons_ne_nil _ _) (by decide) (.cons (.itself (by decide)) .nil)
  revert hread
  decide +kernel

end CssLocator
