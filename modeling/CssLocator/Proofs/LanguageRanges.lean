import CssLocator.Proofs.ComparedValues
import CssLocator.Proofs.EncodedTexts
import CssLocator.Proofs.NavigatedElements

/-!
# Language ranges

Which languages the code of a `:lang()` stands for, and which elements its filter lets pass. An encoded
language may be cut behind as many bytes as the code has: this never cuts a character, and comes to the
same as comparing characters.
-/

namespace CssLocator

open Plan

variable {language code : Text}

/-- The language, without the white space around it, is the one of the code up to letter case, or begins
with it and goes on with a hyphen. -/
def InRange (code language : Text) : Prop :=
  Text.sameLetters (Text.trim language) code ∨
    ∃ u rest, Text.trim language = u ++ '-' :: rest ∧ Text.sameLetters u code

@[simp] theorem toLower_eq_hyphen {c : Char} : c.toLower = '-' ↔ c = '-' := by
  rw [← Char.toNat_inj, ← Char.toNat_inj, toNat_toLower]
  have hhyphen : ('-' : Char).toNat = 45 := rfl
  split <;> omega

private theorem languageMatches_iff : languageMatches language code ↔ InRange code language := by
  unfold languageMatches InRange
  rw [Bool.or_eq_true, Option.any_eq_true]
  simp only [after?_eq_some, beq_iff_eq]
  refine or_congr beq_iff_eq.symm ⟨?_, ?_⟩
  · rintro ⟨rest, hsplit, hhead⟩
    obtain ⟨rest, rfl⟩ := List.head?_eq_some_iff.1 hhead
    obtain ⟨u, v, hsplit, hu, hv⟩ := List.map_eq_append_iff.1 hsplit
    obtain ⟨c, v, rfl, hc, -⟩ := List.map_eq_cons_iff.1 hv
    rw [toLower_eq_hyphen.1 hc] at hsplit
    exact ⟨u, v, hsplit, beq_iff_eq.2 hu⟩
  · rintro ⟨u, rest, hsplit, hu⟩
    refine ⟨'-' :: Text.lower rest, ?_, rfl⟩
    rw [hsplit, ← eq_of_beq hu]
    exact List.map_append

/-- The bytes before and behind a place, which has to be a boundary. -/
def cutBytes? (b : List UInt8) (n : Nat) : Option (List UInt8 × List UInt8) :=
  if Text.isBoundary b n then some (b.take n, b.drop n) else none

/-- Whether the bytes begin with the wanted ones, up to letter case, and go on with a hyphen. There is no
answer if a character would be cut. -/
def goesOn? (found wanted : List UInt8) : Option Bool :=
  if wanted.length < found.length && Text.isBoundary found wanted.length then do
    let (front, _) ← cutBytes? found wanted.length
    if Text.sameLetterBytes front wanted then
      let (_, rest) ← cutBytes? found wanted.length
      pure (rest.head? == some 45)
    else pure false
  else some false

/-- Whether a language is the one of a code, or a variant of it after a hyphen, as the bytes of both
tell. -/
def bytesMatch? (language code : Text) : Option Bool :=
  let found := (Text.trim language).bytes
  if Text.sameLetterBytes found code.bytes then some true else goesOn? found code.bytes

@[simp] theorem cutBytes?_bytes (u v : Text) :
    cutBytes? (u ++ v : Text).bytes u.bytes.length = some (u.bytes, v.bytes) := by
  rw [cutBytes?, if_pos (Text.isBoundary_length_bytes u v), Text.bytes_append, List.take_left,
    List.drop_left]

/-- No character is cut: a text that goes on with a hyphen has a boundary there, and at a boundary it is
cut into two texts. -/
theorem exists_goesOn?_eq (s code : Text) : ∃ b, goesOn? s.bytes code.bytes = some b ∧
    (b ↔ ∃ u rest, s = u ++ '-' :: rest ∧ Text.sameLetters u code) := by
  unfold goesOn?
  split
  · rename_i hplace
    rw [Bool.and_eq_true] at hplace
    obtain ⟨u, v, rfl, hlength⟩ := Text.exists_split_of_isBoundary hplace.2
    have hcut : ∀ {w rest : Text}, u ++ v = w ++ '-' :: rest → Text.sameLetters w code →
        u = w ∧ v = '-' :: rest := fun heq hw =>
      Text.append_inj_of_length_bytes heq (hlength.trans (Text.length_bytes_of_sameLetters hw).symm)
    rw [← hlength, cutBytes?_bytes, Option.bind_eq_bind, Option.bind_some]
    dsimp only
    rw [Text.sameLetterBytes_eq]
    split
    · rename_i hu
      refine ⟨_, rfl, ?_⟩
      rw [beq_iff_eq, Text.head?_bytes_eq_hyphen, List.head?_eq_some_iff]
      constructor
      · rintro ⟨rest, rfl⟩
        exact ⟨u, rest, rfl, hu⟩
      · rintro ⟨w, rest, heq, hw⟩
        exact ⟨rest, (hcut heq hw).2⟩
    · rename_i hu
      refine ⟨false, rfl, iff_of_false Bool.false_ne_true ?_⟩
      rintro ⟨w, rest, heq, hw⟩
      obtain ⟨rfl, -⟩ := hcut heq hw
      exact hu hw
  · rename_i hplace
    refine ⟨false, rfl, iff_of_false Bool.false_ne_true ?_⟩
    rintro ⟨u, rest, rfl, hu⟩
    apply hplace
    have hlonger : u.bytes.length < (u ++ '-' :: rest : Text).bytes.length := by
      have hhyphen : 0 < (String.utf8EncodeChar '-').length := by decide
      rw [Text.bytes_append, Text.bytes_cons, List.length_append, List.length_append]
      omega
    rw [← Text.length_bytes_of_sameLetters hu, Bool.and_eq_true, decide_eq_true_eq]
    exact ⟨hlonger, Text.isBoundary_length_bytes u _⟩

/-- The bytes always tell, and they tell what the characters tell. -/
@[simp] theorem bytesMatch?_eq (language code : Text) :
    bytesMatch? language code = some (languageMatches language code) := by
  have hmatches : ∀ b : Bool, (b ↔ InRange code language) → b = languageMatches language code :=
    fun b h => Bool.eq_iff_iff.2 (h.trans languageMatches_iff.symm)
  unfold bytesMatch?
  dsimp only
  rw [Text.sameLetterBytes_eq]
  split
  · rename_i hsame
    exact congrArg some (hmatches true (iff_of_true rfl (.inl hsame)))
  · rename_i hsame
    obtain ⟨b, hb, hiff⟩ := exists_goesOn?_eq (Text.trim language) code
    rw [hb]
    exact congrArg some (hmatches b (hiff.trans (or_iff_right hsame).symm))

namespace TreeEngine

variable {m : Type → Type} [Monad m] [LawfulMonad m]

private theorem passes_lang {t : TreeEngine} {x : Nat} (h : t.document.Grown)
    (hx : t.document.isElement x) : (Filter.lang code).passes (t.toEngine : Engine m Nat) x =
      pure ((t.document.inheritedLanguage? x).any (languageMatches · code)) := by
  rw [Filter.passes, language?_toEngine h hx, pure_bind]

/-- In a described document the filter of a code lets an element pass if and only if the nearest
language on the way up is in the range of the code. This is found out without cutting a character, and
an element without a language of its own passes if and only if its parent element does. -/
theorem lang_filter_exact (t : TreeEngine) (json : Text)
    (hdocument : Document.ofText? json = some t.document) (x : Nat)
    (helement : t.document.isElement x) (code : Text) :
    (∃ passed, (Filter.lang code).passes (t.toEngine : Engine m Nat) x = pure passed ∧
        (passed ↔ ∃ language, t.document.inheritedLanguage? x = some language ∧
          InRange code language)) ∧
      (∀ language, bytesMatch? language code = some (languageMatches language code)) ∧
      (t.document.attribute? x "lang" = none → ∀ p, t.document.parentElement? x = some p →
        (Filter.lang code).passes (t.toEngine : Engine m Nat) x =
          (Filter.lang code).passes (t.toEngine : Engine m Nat) p) := by
  have h := Document.grown_of_ofText? hdocument
  refine ⟨⟨_, passes_lang h helement, ?_⟩, (bytesMatch?_eq · code), ?_⟩
  · simp only [Option.any_eq_true, languageMatches_iff]
  · intro hnone p hp
    obtain ⟨hparent, hp⟩ := Document.parentElement?_eq_some.1 hp
    rw [passes_lang h helement, passes_lang h hp,
      Document.inheritedLanguage?_of_none h.linked hnone hparent]

/-- A document in English with a paragraph in no language, which has a part, and a quotation. -/
def quotedText : Text :=
  "\x7b\"children\":[\x7b\"tag\":\"html\",\"attrs\":\x7b\"lang\":\" EN-us \"\x7d,\"children\":[\x7b\"tag\":\"p\",\"attrs\":\x7b\"lang\":\"\"\x7d,\"children\":[\x7b\"tag\":\"b\"\x7d]\x7d,\x7b\"tag\":\"q\"\x7d]\x7d]\x7d"

theorem lang_filter_exact_quotation : ∃ d, Document.ofText? quotedText = some d ∧
    d.isElement 3 ∧ d.isElement 4 ∧ d.attribute? 4 "lang" = none ∧ d.parentElement? 4 = some 1 ∧
    (∃ passed, (Filter.lang "en").passes ((mk d []).toEngine : Engine Id Nat) 3 = pure passed ∧
      (passed ↔ ∃ language, d.inheritedLanguage? 3 = some language ∧ InRange "en" language)) ∧
    d.inheritedLanguage? 3 = some [] ∧
    bytesMatch? " EN-us " "en" = some true ∧
    (Filter.lang "en").passes ((mk d []).toEngine : Engine Id Nat) 4 =
      (Filter.lang "en").passes ((mk d []).toEngine : Engine Id Nat) 1 := by
  have hdocument : (Document.ofText? quotedText).any fun d =>
      decide (d.isElement 3 ∧ d.isElement 4 ∧ d.attribute? 4 "lang" = none ∧
        d.parentElement? 4 = some 1 ∧ d.inheritedLanguage? 3 = some []) := by decide +kernel
  obtain ⟨d, hd, hvalues⟩ := (Option.any_eq_true _ _).1 hdocument
  obtain ⟨hpart, hquotation, hnone, hparent, hlanguage⟩ := of_decide_eq_true hvalues
  have hpasses := (lang_filter_exact (m := Id) (mk d []) quotedText hd 3 hpart "en").1
  obtain ⟨-, hbytes, hinherits⟩ :=
    lang_filter_exact (m := Id) (mk d []) quotedText hd 4 hquotation "en"
  exact ⟨d, hd, hpart, hquotation, hnone, hparent, hpasses, hlanguage, hbytes " EN-us ",
    hinherits hnone 1 hparent⟩

end TreeEngine

end CssLocator
