import CssLocator.Identifiers
import Mathlib.Data.List.Forall2

/-!
# Characters, numbers and pieces of texts

Lower case, the characters of a class at the front of a text, the decimal digits that give back the
number they write, and the pieces of a text with the text that pieces are joined to.
-/

namespace CssLocator

theorem toNat_toLower (c : Char) :
    c.toLower.toNat = if 65 ≤ c.toNat ∧ c.toNat ≤ 90 then c.toNat + 32 else c.toNat := by
  unfold Char.toLower
  have hiff : (c.val ≥ 'A'.val ∧ c.val ≤ 'Z'.val) ↔ (65 ≤ c.toNat ∧ c.toNat ≤ 90) := by
    simp [UInt32.le_iff_toNat_le]
  split
  · rename_i h
    rw [if_pos (hiff.1 h)]
    have := (hiff.1 h).2
    show (c.val + ('a'.val - 'A'.val)).toNat = c.toNat + 32
    rw [UInt32.toNat_add]
    show (c.toNat + 32) % 2 ^ 32 = _
    omega
  · rename_i h
    rw [if_neg fun h' => h (hiff.2 h')]

@[simp] theorem toLower_toLower (c : Char) : c.toLower.toLower = c.toLower := by
  apply Char.toNat_inj.1
  rw [toNat_toLower c.toLower, toNat_toLower c]
  split
  · rw [if_neg (by omega)]
  · rfl

@[simp] theorem lower_lower (s : Text) : Text.lower (Text.lower s) = Text.lower s := by
  simp [Text.lower, Function.comp_def]

/-- The characters of a class at the front of a text, and what follows them. -/
theorem takeWhile_append_of_head {p : Char → Bool} {u v : Text} (hu : ∀ c ∈ u, p c)
    (hv : ∀ c ∈ v.head?, p c = false) :
    (u ++ v).takeWhile p = u ∧ (u ++ v).dropWhile p = v := by
  rw [List.takeWhile_append_of_pos hu, List.dropWhile_append_of_pos hu]
  cases v with
  | nil => simp
  | cons c v => simp [hv c rfl]

@[simp] theorem digitsValue_ofNat (n : Nat) : Text.digitsValue (Text.ofNat n) = n :=
  Nat.ofDigitChars_ten_toDigits

theorem ofNat_ne_nil (n : Nat) : Text.ofNat n ≠ [] := Nat.toDigits_ne_nil

theorem isDigit_of_mem_ofNat {n : Nat} {c : Char} (h : c ∈ Text.ofNat n) : c.isDigit :=
  Nat.isDigit_of_mem_toDigits (by decide) (by decide) h

@[simp] theorem all_isDigit_ofNat (n : Nat) : (Text.ofNat n).all Char.isDigit :=
  List.all_eq_true.2 fun _ => isDigit_of_mem_ofNat

theorem takeWhile_ofNat_append (n : Nat) {r : Text} (h : ∀ c ∈ r.head?, c.isDigit = false) :
    (Text.ofNat n ++ r).takeWhile Char.isDigit = Text.ofNat n :=
  (takeWhile_append_of_head (fun _ => isDigit_of_mem_ofNat) h).1

theorem dropWhile_ofNat_append (n : Nat) {r : Text} (h : ∀ c ∈ r.head?, c.isDigit = false) :
    (Text.ofNat n ++ r).dropWhile Char.isDigit = r :=
  (takeWhile_append_of_head (fun _ => isDigit_of_mem_ofNat) h).2

theorem ofInt_of_nonneg {i : Int} (h : 0 ≤ i) : Text.ofInt i = Text.ofNat i.toNat := by
  rw [Text.ofInt, if_neg (by omega), show i.natAbs = i.toNat by omega]

theorem ofInt_of_neg {i : Int} (h : i < 0) : Text.ofInt i = '-' :: Text.ofNat (-i).toNat := by
  rw [Text.ofInt, if_pos h, show i.natAbs = (-i).toNat by omega]

namespace Text

@[simp] theorem occursIn_iff {w s : Text} : occursIn w s ↔ w <:+: s := by
  induction s with
  | nil => simp [occursIn, List.infix_nil]
  | cons c s ih => rw [occursIn, Bool.or_eq_true, ih, List.isPrefixOf_iff_prefix, List.infix_cons_iff]

theorem join_cons (separator w : Text) (ws : List Text) :
    join separator (w :: ws) = w ++ ws.flatMap (separator ++ ·) := by
  induction ws generalizing w with
  | nil => simp [join]
  | cons v ws ih => rw [join, ih v, List.flatMap_cons, List.append_assoc, List.append_assoc]

@[simp] theorem map_intersperse {α β : Type} (f : α → β) (separator : α) (l : List α) :
    (l.intersperse separator).map f = (l.map f).intersperse (f separator) := by
  induction l with
  | nil => rfl
  | cons x l ih =>
    cases l with
    | nil => rfl
    | cons y l => simpa using ih

@[simp] theorem flatten_intersperse (separator : Text) (ws : List Text) :
    (ws.intersperse separator).flatten = join separator ws := by
  induction ws with
  | nil => rfl
  | cons w ws ih =>
    cases ws with
    | nil => simp [join]
    | cons v ws =>
      rw [List.intersperse_cons_cons, List.flatten_cons, List.flatten_cons, ih, join,
        List.append_assoc]

theorem extendHead_ne_nil (c : Char) (ws : List Text) : extendHead c ws ≠ [] := by
  cases ws <;> exact List.cons_ne_nil _ _

@[simp] theorem join_extendHead {separator : Text} {ws : List Text} (hws : ws ≠ []) (c : Char) :
    join separator (extendHead c ws) = c :: join separator ws := by
  obtain ⟨w, ws, rfl⟩ := List.exists_cons_of_ne_nil hws
  rw [extendHead, join_cons, join_cons, List.cons_append]

@[simp] theorem extendHead_append {ws : List Text} (hws : ws ≠ []) (c : Char) (vs : List Text) :
    extendHead c (ws ++ vs) = extendHead c ws ++ vs := by
  obtain ⟨w, ws, rfl⟩ := List.exists_cons_of_ne_nil hws
  rfl

@[simp] theorem foldr_extendHead (s w : Text) (ws : List Text) :
    s.foldr extendHead (w :: ws) = (s ++ w) :: ws := by
  induction s with
  | nil => rfl
  | cons c s ih =>
    rw [List.foldr_cons, ih]
    rfl

private theorem splitAt_ne_nil (p : Char → Bool) (s : Text) : splitAt p s ≠ [] := by
  cases s with
  | nil => exact List.cons_ne_nil _ _
  | cons c s =>
    show (if p c then [] :: splitAt p s else extendHead c (splitAt p s)) ≠ []
    split
    · exact List.cons_ne_nil _ _
    · exact extendHead_ne_nil _ _

private theorem splitAt_cons_of_pos {p : Char → Bool} {c : Char} (hc : p c) (s : Text) :
    splitAt p (c :: s) = [] :: splitAt p s := if_pos hc

private theorem splitAt_cons_of_neg {p : Char → Bool} {c : Char} {s w : Text} {ws : List Text}
    (hc : p c = false) (hs : splitAt p s = w :: ws) : splitAt p (c :: s) = (c :: w) :: ws := by
  have hextend : splitAt p (c :: s) = extendHead c (splitAt p s) := if_neg (by simp [hc])
  rw [hextend, hs]
  rfl

theorem splitAt_of_forall {p : Char → Bool} {w : Text} (hw : ∀ c ∈ w, p c = false) :
    splitAt p w = [w] := by
  induction w with
  | nil => rfl
  | cons d w ih =>
    obtain ⟨hd, hrest⟩ := List.forall_mem_cons.1 hw
    exact splitAt_cons_of_neg hd (ih hrest)

theorem splitAt_append {p : Char → Bool} {c : Char} (hc : p c) (u v : Text) :
    splitAt p (u ++ c :: v) = splitAt p u ++ splitAt p v := by
  induction u with
  | nil => exact splitAt_cons_of_pos hc v
  | cons d u ih =>
    obtain ⟨w, ws, hws⟩ := List.exists_cons_of_ne_nil (splitAt_ne_nil p u)
    rw [hws] at ih
    cases hd : p d with
    | true => rw [List.cons_append, splitAt_cons_of_pos hd, splitAt_cons_of_pos hd, ih, hws]; rfl
    | false => rw [List.cons_append, splitAt_cons_of_neg hd ih, splitAt_cons_of_neg hd hws]; rfl

/-- The pieces of a text, joined by the character they were split at. -/
@[simp] theorem join_splitAt (c : Char) (s : Text) : join [c] (splitAt (· == c) s) = s := by
  induction s with
  | nil => rfl
  | cons d s ih =>
    obtain ⟨w, ws, hws⟩ := List.exists_cons_of_ne_nil (splitAt_ne_nil (· == c) s)
    rw [hws] at ih
    cases hd : d == c with
    | true =>
      obtain rfl : d = c := by simpa using hd
      rw [splitAt_cons_of_pos (p := (· == d)) hd, hws, join, ih]
      rfl
    | false =>
      rw [splitAt_cons_of_neg (p := (· == c)) hd hws, join_cons, List.cons_append, ← join_cons, ih]

theorem of_mem_splitAt {p : Char → Bool} {s w : Text} (h : w ∈ splitAt p s) :
    ∀ c ∈ w, p c = false := by
  induction s generalizing w with
  | nil =>
    obtain rfl : w = [] := List.mem_singleton.1 h
    simp
  | cons d s ih =>
    obtain ⟨v, ws, hws⟩ := List.exists_cons_of_ne_nil (splitAt_ne_nil p s)
    cases hd : p d with
    | true =>
      rw [splitAt_cons_of_pos hd] at h
      rcases List.mem_cons.1 h with rfl | h
      · simp
      · exact ih h
    | false =>
      rw [splitAt_cons_of_neg hd hws] at h
      rw [hws] at ih
      rcases List.mem_cons.1 h with rfl | h
      · intro c hc
        rcases List.mem_cons.1 hc with rfl | hc
        · exact hd
        · exact ih List.mem_cons_self c hc
      · exact ih (List.mem_cons_of_mem v h)

/-- A text that has the character has at least two pieces. -/
theorem exists_splitAt_of_mem {c : Char} {s : Text} (h : c ∈ s) :
    ∃ u v ws, splitAt (· == c) s = u :: v :: ws := by
  induction s with
  | nil => cases h
  | cons d s ih =>
    obtain ⟨w, ws, hws⟩ := List.exists_cons_of_ne_nil (splitAt_ne_nil (· == c) s)
    cases hd : d == c with
    | true => exact ⟨[], w, ws, by rw [splitAt_cons_of_pos (p := (· == c)) hd, hws]⟩
    | false =>
      have hne : c ≠ d := by
        rintro rfl
        simp at hd
      obtain ⟨u, v, rest, hrest⟩ := ih (by simpa [hne] using h)
      exact ⟨d :: u, v, rest, splitAt_cons_of_neg hd hrest⟩

/-- Pieces with a piece between them, joined. -/
theorem join_intersperse (separator piece : Text) (ws : List Text) :
    join separator (ws.intersperse piece) = join (separator ++ piece ++ separator) ws := by
  induction ws with
  | nil => rfl
  | cons w ws ih =>
    cases ws with
    | nil => rfl
    | cons v ws =>
      rw [List.intersperse_cons_cons, join, join.eq_def separator (piece :: _)]
      cases hrest : (v :: ws).intersperse piece with
      | nil => cases ws <;> cases hrest
      | cons x rest =>
        rw [hrest] at ih
        dsimp only
        rw [ih, join]
        simp

private theorem splitAt_of_notMem {c : Char} {w : Text} (hw : c ∉ w) : splitAt (· == c) w = [w] :=
  splitAt_of_forall fun d hd => by simpa using ne_of_mem_of_not_mem hd hw

private theorem splitAt_append_cons {c : Char} {w : Text} (hw : c ∉ w) (rest : Text) :
    splitAt (· == c) (w ++ c :: rest) = w :: splitAt (· == c) rest := by
  rw [splitAt_append (p := (· == c)) (beq_self_eq_true c), splitAt_of_notMem hw, List.singleton_append]

/-- Joined pieces are found again, unless one of them is empty or has the character between them. -/
theorem words_join {c : Char} {ws : List Text} (hws : ∀ w ∈ ws, w ≠ [] ∧ c ∉ w) :
    words (· == c) (join [c] ws) = ws := by
  induction ws with
  | nil => rfl
  | cons w ws ih =>
    obtain ⟨⟨hne, hw⟩, hrest⟩ := List.forall_mem_cons.1 hws
    cases ws with
    | nil => simp [words, join, splitAt_of_notMem hw, hne]
    | cons v ws =>
      have hjoin : join [c] (w :: v :: ws) = w ++ c :: join [c] (v :: ws) := by simp [join]
      rw [hjoin, words, splitAt_append_cons hw, List.filter_cons_of_pos (by simpa using hne)]
      exact congrArg (w :: ·) (ih hrest)

end Text

end CssLocator
