import CssLocator.Text

/-!
# JSON texts

Reading of JSON texts into trees that still show how numbers and strings were written, so that the
users of a value decide what they accept. The members of an object are kept in order, repeated names
included.
-/

namespace CssLocator

/-- The parts of a number. The fraction is empty if it is not written. -/
structure JsonNumber where
  negative : Bool
  whole : Text
  fraction : Text
  exponent : Option Int
  deriving DecidableEq, Repr

mutual

inductive Json where
  | null
  | boolean (b : Bool)
  | number (n : JsonNumber)
  /-- A string has no text if it holds one half of a surrogate pair without the other. -/
  | string (text : Option Text)
  | array (items : List Json)
  | object (members : List Member)

inductive Member where
  | mk (name : Option Text) (value : Json)

end

namespace Json

/-- The white space between tokens. -/
def isBlank (c : Char) : Bool := c == ' ' || c == '\t' || c == '\n' || c == '\r'

def skipBlank (s : Text) : Text := s.dropWhile isBlank

def isHighSurrogate (n : Nat) : Bool := 0xD800 ≤ n && n ≤ 0xDBFF

def isLowSurrogate (n : Nat) : Bool := 0xDC00 ≤ n && n ≤ 0xDFFF

/-- The text of code points, of which escapes may have written some as surrogate pairs. -/
def textOfUnits? : List Nat → Option Text
  | [] => some []
  | [n] => if isHighSurrogate n || isLowSurrogate n then none else some [Char.ofNat n]
  | n :: m :: rest =>
    if isHighSurrogate n then
      if isLowSurrogate m then
        let c := Char.ofNat (0x10000 + (n - 0xD800) * 0x400 + (m - 0xDC00))
        (textOfUnits? rest).map (c :: ·)
      else none
    else if isLowSurrogate n then none
    else (textOfUnits? (m :: rest)).map (Char.ofNat n :: ·)

/-- The code point of an escape of one letter. -/
def simpleEscape? (c : Char) : Option Nat :=
  match c with
  | '"' | '\\' | '/' => some c.toNat
  | 'b' => some 0x8
  | 'f' => some 0xC
  | 'n' => some 0xA
  | 'r' => some 0xD
  | 't' => some 0x9
  | _ => none

/-- The code units of a string after its opening quote, and what follows the closing one. -/
def readUnits? : Text → Option (List Nat × Text)
  | [] => none
  | '"' :: r => some ([], r)
  | '\\' :: 'u' :: a :: b :: c :: d :: r =>
    if [a, b, c, d].all Text.isHexDigit then
      (readUnits? r).map fun (units, rest) => (Text.hexValue [a, b, c, d] :: units, rest)
    else none
  | '\\' :: e :: r =>
    match simpleEscape? e with
    | none => none
    | some n => (readUnits? r).map fun (units, rest) => (n :: units, rest)
  | c :: r =>
    if c == '\\' || c.toNat < 0x20 then none
    else (readUnits? r).map fun (units, rest) => (c.toNat :: units, rest)

/-- The text of a string after its opening quote, and what follows the closing one. -/
def readString? (s : Text) : Option (Option Text × Text) :=
  (readUnits? s).map fun (units, rest) => (textOfUnits? units, rest)

/-- One or more digits, and what follows them. -/
def readDigits? (s : Text) : Option (Text × Text) :=
  let digits := s.takeWhile Char.isDigit
  if digits.isEmpty then none else some (digits, s.dropWhile Char.isDigit)

/-- The digits of a whole number. Only zero itself starts with a zero. -/
def readWhole? (s : Text) : Option (Text × Text) :=
  match readDigits? s with
  | some ('0' :: _ :: _, _) => none
  | found => found

/-- The digits after a point, if there is one. -/
def readFraction? : Text → Option (Text × Text)
  | '.' :: r => readDigits? r
  | s => some ([], s)

/-- The digits of an exponent with an optional sign. -/
def readSigned? : Text → Option (Int × Text)
  | '-' :: r => (readDigits? r).map fun (digits, rest) => (-(Text.digitsValue digits : Int), rest)
  | '+' :: r => (readDigits? r).map fun (digits, rest) => (Text.digitsValue digits, rest)
  | s => (readDigits? s).map fun (digits, rest) => (Text.digitsValue digits, rest)

def readExponent? : Text → Option (Option Int × Text)
  | 'e' :: r | 'E' :: r => (readSigned? r).map fun (e, rest) => (some e, rest)
  | s => some (none, s)

def readNumber? (s : Text) : Option (JsonNumber × Text) := do
  let (negative, s) :=
    match s with
    | '-' :: r => (true, r)
    | _ => (false, s)
  let (whole, s) ← readWhole? s
  let (fraction, s) ← readFraction? s
  let (exponent, s) ← readExponent? s
  pure (⟨negative, whole, fraction, exponent⟩, s)

/-- Reads a value from the front of a text. -/
abbrev Reader := Text → Option (Json × Text)

/-- The items after the first one, up to the closing bracket. Every round takes a comma, so as many
rounds as there are characters suffice. -/
def readItems? (value : Reader) : (rounds : Nat) → Text → Option (List Json × Text)
  | 0, _ => none
  | rounds + 1, s =>
    match skipBlank s with
    | ']' :: r => some ([], r)
    | ',' :: r => do
      let (item, s) ← value r
      let (items, s) ← readItems? value rounds s
      pure (item :: items, s)
    | _ => none

/-- An array after its opening bracket. -/
def readArray? (value : Reader) (s : Text) : Option (List Json × Text) :=
  match skipBlank s with
  | ']' :: r => some ([], r)
  | _ => do
    let (item, s) ← value s
    let (items, s) ← readItems? value s.length s
    pure (item :: items, s)

/-- One member of an object, white space around it included. -/
def readMember? (value : Reader) (s : Text) : Option (Member × Text) :=
  match skipBlank s with
  | '"' :: r => do
    let (name, s) ← readString? r
    match skipBlank s with
    | ':' :: r =>
      let (v, s) ← value r
      pure (.mk name v, s)
    | _ => none
  | _ => none

/-- The members after the first one, up to the closing brace. -/
def readMembers? (value : Reader) : (rounds : Nat) → Text → Option (List Member × Text)
  | 0, _ => none
  | rounds + 1, s =>
    match skipBlank s with
    | '}' :: r => some ([], r)
    | ',' :: r => do
      let (member, s) ← readMember? value r
      let (members, s) ← readMembers? value rounds s
      pure (member :: members, s)
    | _ => none

/-- An object after its opening brace. -/
def readObject? (value : Reader) (s : Text) : Option (List Member × Text) :=
  match skipBlank s with
  | '}' :: r => some ([], r)
  | _ => do
    let (member, s) ← readMember? value s
    let (members, s) ← readMembers? value s.length s
    pure (member :: members, s)

/-- A value in which arrays and objects are nested no deeper than allowed. White space before it is
skipped. -/
def readValue? : (nesting : Nat) → Reader
  | 0, _ => none
  | nesting + 1, s =>
    match skipBlank s with
    | '[' :: r => (readArray? (readValue? nesting) r).map fun (items, rest) => (array items, rest)
    | '{' :: r =>
      (readObject? (readValue? nesting) r).map fun (members, rest) => (object members, rest)
    | '"' :: r => (readString? r).map fun (text, rest) => (string text, rest)
    | s =>
      match Text.after? "null" s, Text.after? "true" s, Text.after? "false" s with
      | some rest, _, _ => some (null, rest)
      | _, some rest, _ => some (boolean true, rest)
      | _, _, some rest => some (boolean false, rest)
      | _, _, _ => (readNumber? s).map fun (n, rest) => (number n, rest)

/-- Reads a text that holds one value and nothing else. -/
def ofText? (s : Text) : Option Json :=
  match readValue? (s.length + 1) s with
  | some (v, rest) => if (skipBlank rest).isEmpty then some v else none
  | none => none

end Json

end CssLocator
