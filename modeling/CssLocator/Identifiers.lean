import CssLocator.Text

/-!
# Identifiers and quoted values of selectors

Reading and writing names and strings in selector text. A backslash escapes the character after it,
or names a code point with up to six hexadecimal digits.
-/

namespace CssLocator.Identifier

/-- Letters, the underscore and everything outside ASCII start a name. -/
def isStart (c : Char) : Bool := c.isAlpha || c == '_' || !Text.isAscii c

def isContinue (c : Char) : Bool := isStart c || c.isDigit || c == '-'

/-- Stands for a code point that no character has. -/
def replacement : Char := '\uFFFD'

/-- The character that hexadecimal digits name. Zero and the surrogates name none. -/
def ofHex (digits : Text) : Char :=
  let n := Text.hexValue digits
  if n ≠ 0 ∧ n.isValidChar then Char.ofNat n else replacement

/-- Reads the rest of an escape whose backslash is already read. One white space character after
hexadecimal digits belongs to the escape. -/
def readEscape : Text → Char × Text
  | [] => (replacement, [])
  | c :: r =>
    if Text.isHexDigit c then
      let digits := (r.take 5).takeWhile Text.isHexDigit
      let rest := r.drop digits.length
      match rest with
      | [] => (ofHex (c :: digits), [])
      | d :: rest' => (ofHex (c :: digits), if Text.isSpace d then rest' else d :: rest')
    else (c, r)

theorem readEscape_cons_length (c : Char) (r : Text) : (readEscape (c :: r)).2.length ≤ r.length := by
  unfold readEscape
  split
  · rename_i h
    cases h
  · rename_i h
    cases h
    split
    · dsimp only
      have h : (r.drop ((r.take 5).takeWhile Text.isHexDigit).length).length ≤ r.length := by simp
      split
      · exact Nat.zero_le _
      · rename_i d rest hrest
        rw [hrest, List.length_cons] at h
        split
        · exact Nat.le_of_succ_le h
        · exact h
    · exact Nat.le_refl _

theorem readEscape_length (s : Text) : (readEscape s).2.length ≤ s.length := by
  cases s with
  | nil => exact Nat.le_refl 0
  | cons c r => exact Nat.le_succ_of_le (readEscape_cons_length c r)

/-- The longest text of characters in the class `p` and escapes, decoded, and what follows it. -/
def readWhile (p : Char → Bool) : Text → Text × Text
  | [] => ([], [])
  | c :: r =>
    if c = '\\' then
      let escaped := readEscape r
      let more := readWhile p escaped.2
      (escaped.1 :: more.1, more.2)
    else if p c then
      let more := readWhile p r
      (c :: more.1, more.2)
    else ([], c :: r)
termination_by s => s.length
decreasing_by
  · have := readEscape_length r
    simp
    omega
  · simp

theorem readWhile_length (p : Char → Bool) (s : Text) :
    (readWhile p s).2.length + (readWhile p s).1.length ≤ s.length := by
  fun_induction readWhile p s with
  | case1 => simp
  | case2 r escaped more ih =>
    have : escaped.2.length ≤ r.length := readEscape_length r
    simp only [List.length_cons, more] at *
    omega
  | case3 c r h hp more ih =>
    simp only [List.length_cons, more] at *
    omega
  | case4 => simp

/-- A name and what follows it, if there is at least one character of a name. -/
def read? (s : Text) : Option (Text × Text) :=
  match readWhile isContinue s with
  | ([], _) => none
  | (c :: name, rest) => some (c :: name, rest)

theorem read?_length {s name rest : Text} (h : read? s = some (name, rest)) :
    rest.length < s.length := by
  have := readWhile_length isContinue s
  unfold read? at h
  split at h
  · cases h
  · rename_i c w v e
    rw [e] at this
    simp only [Option.some.injEq, Prod.mk.injEq, List.length_cons] at h this
    obtain ⟨rfl, rfl⟩ := h
    omega

/-- An attribute value without quotes; it may also hold dots. -/
def readBare? (s : Text) : Option (Text × Text) :=
  match readWhile (fun c => isContinue c || c == '.') s with
  | ([], _) => none
  | (c :: value, rest) => some (c :: value, rest)

/-- The text up to the closing quote, decoded, and what follows the quote. -/
def readQuoted? (quote : Char) : Text → Option (Text × Text)
  | [] => none
  | c :: r =>
    if c = '\\' then
      let escaped := readEscape r
      (readQuoted? quote escaped.2).map fun (value, rest) => (escaped.1 :: value, rest)
    else if c = quote then some ([], r)
    else (readQuoted? quote r).map fun (value, rest) => (c :: value, rest)
termination_by s => s.length
decreasing_by
  · have := readEscape_length r
    simp
    omega
  · simp

theorem readBare?_length {s value rest : Text} (h : readBare? s = some (value, rest)) :
    rest.length < s.length := by
  have := readWhile_length (fun c => isContinue c || c == '.') s
  unfold readBare? at h
  split at h
  · cases h
  · rename_i c w v e
    rw [e] at this
    simp only [Option.some.injEq, Prod.mk.injEq, List.length_cons] at h this
    obtain ⟨rfl, rfl⟩ := h
    omega

theorem readQuoted?_length {quote : Char} {s : Text} :
    ∀ {value rest : Text}, readQuoted? quote s = some (value, rest) →
      rest.length < s.length := by
  fun_induction readQuoted? quote s with
  | case1 => simp
  | case2 r escaped =>
    rename_i ih
    intro value rest h
    have : escaped.2.length ≤ r.length := readEscape_length r
    simp only [Option.map_eq_some_iff, Prod.exists, Prod.mk.injEq] at h
    obtain ⟨value', rest', h', -, rfl⟩ := h
    have := ih h'
    simp only [List.length_cons]
    omega
  | case3 => simp
  | case4 c r _ _ ih =>
    intro value rest h
    simp only [Option.map_eq_some_iff, Prod.exists, Prod.mk.injEq] at h
    obtain ⟨value', rest', h', -, rfl⟩ := h
    have := ih h'
    simp only [List.length_cons]
    omega

/-- Writes a name: colons are escaped, and so is a first character that could not start a name. -/
def escape : Text → Text
  | [] => []
  | c :: r =>
    let first : Text :=
      if c.isDigit then "\\3" ++ [c, ' ']
      else if c = ':' then "\\:"
      else if c = '-' then
        match r with
        | [] => "\\-"
        | d :: _ => if d.isDigit || d == '-' then "\\-" else "-"
      else [c]
    first ++ r.flatMap fun d => if d = ':' then "\\:" else [d]

/-- Drops the backslash of every escaped double quote. -/
def unescapeQuotes : Text → Text
  | [] => []
  | '\\' :: '"' :: r => '"' :: unescapeQuotes r
  | c :: r => c :: unescapeQuotes r

/-- Writes a value in double quotes. A double quote that is already escaped is escaped once. -/
def quoted (value : Text) : Text :=
  let body := (unescapeQuotes value).flatMap fun c =>
    if c = '\\' ∨ c = '"' then ['\\', c] else [c]
  '"' :: body ++ ['"']

end CssLocator.Identifier
