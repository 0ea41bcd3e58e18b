import CssLocator.Proofs.Texts
import Mathlib.Data.List.Basic

/-!
# Encoded texts

Texts as bytes in UTF-8. A place in the bytes is a boundary if the text can be cut there into two
texts, and letters are compared byte by byte as they are compared character by character.
-/

namespace CssLocator.Text

variable {s t u v : Text} {n : Nat}

/-- The encoding of a text. -/
def bytes (s : Text) : List UInt8 := s.flatMap String.utf8EncodeChar

@[simp] theorem bytes_nil : bytes [] = [] := rfl

@[simp] theorem bytes_cons (c : Char) (s : Text) :
    bytes (c :: s) = String.utf8EncodeChar c ++ bytes s :=
  rfl

@[simp] theorem bytes_append (s t : Text) : (s ++ t).bytes = s.bytes ++ t.bytes := List.flatMap_append

private theorem bytes_injective : Function.Injective bytes := by
  intro s t h
  have hencode : List.utf8Encode s = List.utf8Encode t := congrArg List.toByteArray h
  have hdecode := congrArg ByteArray.utf8Decode? hencode
  rw [List.utf8Decode?_utf8Encode, List.utf8Decode?_utf8Encode] at hdecode
  simpa using hdecode

/-- There is only one way to cut a text behind a number of bytes. -/
theorem append_inj_of_length_bytes {s t u v : Text} (h : s ++ u = t ++ v)
    (hlength : s.bytes.length = t.bytes.length) : s = t ∧ u = v := by
  have hbytes := congrArg bytes h
  rw [bytes_append, bytes_append] at hbytes
  obtain ⟨hfront, hrest⟩ := List.append_inj hbytes hlength
  exact ⟨bytes_injective hfront, bytes_injective hrest⟩

/-- Whether a character begins at the place or the bytes end there; there is no place behind the
end. -/
def isBoundary (b : List UInt8) (n : Nat) : Bool :=
  n == 0 || n == b.length || (b[n]?).any fun byte => decide byte.IsUTF8FirstByte

private theorem isBoundary_iff {b : List UInt8} :
    isBoundary b n ↔ n = 0 ∨ n = b.length ∨ ∃ byte, b[n]? = some byte ∧ byte.IsUTF8FirstByte := by
  simp [isBoundary, Option.any_eq_true, or_assoc]

theorem exists_split_of_isBoundary (h : isBoundary (bytes s) n) :
    ∃ u v, s = u ++ v ∧ (bytes u).length = n := by
  rw [isBoundary_iff] at h
  induction s generalizing n with
  | nil =>
    obtain rfl : n = 0 := by simpa using h
    exact ⟨[], [], rfl, rfl⟩
  | cons c s ih =>
    rcases h with rfl | rfl | ⟨byte, hbyte, hfirst⟩
    · exact ⟨[], c :: s, rfl, rfl⟩
    · exact ⟨c :: s, [], (List.append_nil _).symm, rfl⟩
    · rw [bytes_cons] at hbyte
      by_cases hn : n < (String.utf8EncodeChar c).length
      · -- Of the bytes of a character only the first one begins it.
        rw [List.getElem?_append_left hn, List.getElem?_eq_getElem hn, Option.some.injEq] at hbyte
        rw [← hbyte, UInt8.isUTF8FirstByte_getElem_utf8EncodeChar] at hfirst
        exact ⟨[], c :: s, rfl, hfirst.symm⟩
      · rw [List.getElem?_append_right (Nat.le_of_not_lt hn)] at hbyte
        obtain ⟨u, v, rfl, hlength⟩ := ih (.inr (.inr ⟨byte, hbyte, hfirst⟩))
        refine ⟨c :: u, v, rfl, ?_⟩
        rw [bytes_cons, List.length_append, hlength]
        omega

@[simp] theorem isBoundary_length_bytes (u v : Text) :
    isBoundary (bytes (u ++ v)) (bytes u).length := by
  rw [isBoundary_iff, bytes_append]
  cases v with
  | nil => simp
  | cons c v =>
    have hpos : 0 < (String.utf8EncodeChar c).length := List.length_pos_iff.2 String.utf8EncodeChar_ne_nil
    refine .inr (.inr ⟨(String.utf8EncodeChar c)[0], ?_,
      UInt8.isUTF8FirstByte_getElem_zero_utf8EncodeChar⟩)
    rw [List.getElem?_append_right (Nat.le_refl _), Nat.sub_self, bytes_cons,
      List.getElem?_append_left hpos, List.getElem?_eq_getElem hpos]

/-- Lower case for the bytes of the letters `A` to `Z`. -/
def lowerByte (b : UInt8) : UInt8 := if 65 ≤ b ∧ b ≤ 90 then b + 32 else b

/-- Equality of bytes up to the case of ASCII letters. -/
def sameLetterBytes (a b : List UInt8) : Bool := a.map lowerByte == b.map lowerByte

private theorem utf8EncodeChar_of_ascii {c : Char} (h : c.toNat ≤ 127) :
    String.utf8EncodeChar c = [UInt8.ofNat c.toNat] := by
  have hval : c.val.toNat ≤ 127 := h
  rw [String.utf8EncodeChar.eq_1, if_pos hval]
  rfl

/-- All bytes of a character beyond ASCII are beyond ASCII. -/
theorem le_of_mem_utf8EncodeChar {c : Char} (h : 127 < c.toNat) {b : UInt8}
    (hb : b ∈ String.utf8EncodeChar c) : 128 ≤ b.toNat := by
  have hval : ¬ c.val.toNat ≤ 127 := Nat.not_le.2 h
  rw [String.utf8EncodeChar.eq_1, if_neg hval] at hb
  have hbyte : ∀ {k : Nat}, 128 ≤ k → k < 256 → 128 ≤ (UInt8.ofNat k).toNat := by
    intro k hle hlt
    rwa [UInt8.toNat_ofNat', Nat.mod_eq_of_lt hlt]
  split_ifs at hb <;> simp only [List.mem_cons, List.not_mem_nil, or_false] at hb
  · rcases hb with rfl | rfl <;> exact hbyte (by omega) (by omega)
  · rcases hb with rfl | rfl | rfl <;> exact hbyte (by omega) (by omega)
  · rcases hb with rfl | rfl | rfl | rfl <;> exact hbyte (by omega) (by omega)

private theorem toNat_lowerByte (b : UInt8) :
    (lowerByte b).toNat = if 65 ≤ b.toNat ∧ b.toNat ≤ 90 then b.toNat + 32 else b.toNat := by
  have hiff : (65 ≤ b ∧ b ≤ 90) ↔ (65 ≤ b.toNat ∧ b.toNat ≤ 90) := by
    simp only [UInt8.le_iff_toNat_le]
    rfl
  unfold lowerByte
  by_cases h : 65 ≤ b.toNat ∧ b.toNat ≤ 90
  · rw [if_pos (hiff.2 h), if_pos h, UInt8.toNat_add]
    show (b.toNat + 32) % 2 ^ 8 = _
    omega
  · rw [if_neg fun h' => h (hiff.1 h'), if_neg h]

/-- Letters are single bytes, and no byte of another character is a letter. -/
@[simp] theorem map_lowerByte_utf8EncodeChar (c : Char) :
    (String.utf8EncodeChar c).map lowerByte = String.utf8EncodeChar c.toLower := by
  have hlower := toNat_toLower c
  by_cases h : c.toNat ≤ 127
  · have hlower' : c.toLower.toNat ≤ 127 := by
      rw [hlower]
      split <;> omega
    rw [utf8EncodeChar_of_ascii h, utf8EncodeChar_of_ascii hlower', List.map_singleton]
    congr 1
    apply UInt8.toNat_inj.1
    rw [toNat_lowerByte, UInt8.toNat_ofNat', UInt8.toNat_ofNat', Nat.mod_eq_of_lt (by omega),
      Nat.mod_eq_of_lt (by omega), hlower]
  · have hsame : c.toLower = c := by
      apply Char.toNat_inj.1
      rw [hlower, if_neg (by omega)]
    have hkept : ∀ b ∈ String.utf8EncodeChar c, lowerByte b = b := by
      intro b hb
      have hle := le_of_mem_utf8EncodeChar (Nat.lt_of_not_le h) hb
      apply UInt8.toNat_inj.1
      rw [toNat_lowerByte, if_neg (by omega)]
    rw [hsame, List.map_congr_left hkept, List.map_id']

@[simp] theorem map_lowerByte_bytes (s : Text) : s.bytes.map lowerByte = (lower s).bytes := by
  rw [bytes, List.map_flatMap, bytes, lower, List.flatMap_map]
  exact List.flatMap_congr fun c _ => map_lowerByte_utf8EncodeChar c

/-- Bytes are compared as their characters are. -/
@[simp] theorem sameLetterBytes_eq (s t : Text) :
    sameLetterBytes s.bytes t.bytes = sameLetters s t := by
  rw [sameLetterBytes, map_lowerByte_bytes, map_lowerByte_bytes, sameLetters, Bool.eq_iff_iff,
    beq_iff_eq, beq_iff_eq]
  exact bytes_injective.eq_iff

theorem length_bytes_of_sameLetters (h : sameLetters s t) : s.bytes.length = t.bytes.length := by
  have hmap : s.bytes.map lowerByte = t.bytes.map lowerByte := by simp [eq_of_beq h]
  simpa only [List.length_map] using congrArg List.length hmap

/-- A text begins with a hyphen if its bytes begin with the one of the hyphen. -/
@[simp] theorem head?_bytes_eq_hyphen : (bytes s).head? = some 45 ↔ s.head? = some '-' := by
  cases s with
  | nil => simp
  | cons c s =>
    rw [bytes_cons, List.head?_append_of_ne_nil _ String.utf8EncodeChar_ne_nil, List.head?_cons,
      Option.some.injEq]
    by_cases h : c.toNat ≤ 127
    · rw [utf8EncodeChar_of_ascii h, List.head?_cons, Option.some.injEq, ← UInt8.toNat_inj,
        UInt8.toNat_ofNat', Nat.mod_eq_of_lt (by omega), ← Char.toNat_inj]
      rfl
    · constructor
      · intro hhead
        have hle := le_of_mem_utf8EncodeChar (Nat.lt_of_not_le h) (List.mem_of_head? hhead)
        exact absurd hle (by decide)
      · rintro rfl
        exact absurd (by decide) h

end CssLocator.Text
