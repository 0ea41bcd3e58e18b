/-!
# Texts as lists of characters

Every text of the library is a list of characters, so that readers and printers recurse on it
directly. White space is the Unicode property White_Space; letters, digits and letter case are
those of ASCII.

Loops run an effect for every entry of a list, from left to right.
-/

namespace CssLocator

/-- A text, one entry per code point. -/
abbrev Text := List Char

instance : Coe String Text := ⟨String.toList⟩

namespace Text

/-- The Unicode property White_Space. -/
def isSpace (c : Char) : Bool :=
  let n := c.toNat
  (0x9 ≤ n && n ≤ 0xD) || n == 0x20 || n == 0x85 || n == 0xA0 || n == 0x1680 ||
    (0x2000 ≤ n && n ≤ 0x200A) || n == 0x2028 || n == 0x2029 || n == 0x202F || n == 0x205F ||
    n == 0x3000

/-- The white space that separates the words of an attribute value: blank, tab, line feed, form
feed and carriage return, but not the vertical tab. -/
def isAsciiSpace (c : Char) : Bool :=
  c == ' ' || c == '\t' || c == '\n' || c == '\x0c' || c == '\r'

def isAscii (c : Char) : Bool := c.toNat < 128

/-- Lower case for the letters `A` to `Z`; every other character stays. -/
def lower (s : Text) : Text := s.map Char.toLower

/-- Equality up to the case of ASCII letters. -/
def sameLetters (s t : Text) : Bool := lower s == lower t

/-- What is left after the leading white space. -/
def skipSpace (s : Text) : Text := s.dropWhile isSpace

/-- Removes the characters in the class `p` from both ends. -/
def strip (p : Char → Bool) (s : Text) : Text :=
  ((s.dropWhile p).reverse.dropWhile p).reverse

def trim (s : Text) : Text := strip isSpace s

/-- Puts a character in front of the first of several pieces. -/
def extendHead (c : Char) : List Text → List Text
  | [] => [[c]]
  | w :: ws => (c :: w) :: ws

/-- The pieces between the characters in the class `p`, empty ones included. -/
def splitAt (p : Char → Bool) : Text → List Text
  | [] => [[]]
  | c :: r => if p c then [] :: splitAt p r else extendHead c (splitAt p r)

/-- The non-empty pieces between the characters in the class `p`. -/
def words (p : Char → Bool) (s : Text) : List Text := (splitAt p s).filter (!·.isEmpty)

/-- The texts before and after the first occurrence of `c`. -/
def cut? (c : Char) : Text → Option (Text × Text)
  | [] => none
  | x :: r => if x = c then some ([], r) else (cut? c r).map fun (u, v) => (x :: u, v)

/-- What follows the text `u`, if the text starts with it. -/
def after? : (u s : Text) → Option Text
  | [], s => some s
  | _ :: _, [] => none
  | a :: u, b :: s => if a = b then after? u s else none

/-- Whether `w` occurs somewhere in the text. -/
def occursIn (w : Text) : Text → Bool
  | [] => w.isEmpty
  | c :: r => w.isPrefixOf (c :: r) || occursIn w r

/-- The pieces with `separator` between neighbours. -/
def join (separator : Text) : List Text → Text
  | [] => []
  | [w] => w
  | w :: v :: ws => w ++ separator ++ join separator (v :: ws)

/-- Decimal digits of a natural number. -/
def ofNat (n : Nat) : Text := Nat.toDigits 10 n

/-- Decimal digits of an integer, after a minus sign if it is negative. -/
def ofInt (i : Int) : Text := if i < 0 then '-' :: ofNat i.natAbs else ofNat i.natAbs

/-- The number that a text of ASCII digits writes. -/
def digitsValue (s : Text) : Nat := s.foldl (fun n c => 10 * n + (c.toNat - '0'.toNat)) 0

/-- The order of a dictionary, characters being compared by their code points. -/
def before : Text → Text → Bool
  | _, [] => false
  | [], _ :: _ => true
  | a :: s, b :: t => if a = b then before s t else a.toNat < b.toNat

theorem before_trans {s t u : Text} (h : before s t) (h' : before t u) : before s u := by
  fun_induction before s t generalizing u with
  | case1 => simp at h
  | case2 b t => cases u <;> simp_all [before]
  | case3 a s t ih =>
    cases u with
    | nil => simp [before] at h'
    | cons c u =>
      unfold before at h' ⊢
      split <;> simp_all
  | case4 a s b t hab =>
    cases u with
    | nil => simp [before] at h'
    | cons c u =>
      unfold before at h' ⊢
      by_cases hbc : b = c
      · subst hbc
        simp_all
      · by_cases hac : a = c
        · subst hac
          simp_all
          omega
        · simp_all
          omega

theorem before_of_ne {s t : Text} (hne : s ≠ t) (h : before s t = false) : before t s := by
  fun_induction before s t with
  | case1 s => cases s <;> simp_all [before]
  | case2 => simp at h
  | case3 a s t ih => simp_all [before]
  | case4 a s b t hab =>
    have hn : a.toNat ≠ b.toNat := fun e => hab (Char.toNat_inj.1 e)
    simp_all [before, Ne.symm hab]
    omega

def isHexDigit (c : Char) : Bool :=
  c.isDigit || ('a' ≤ c && c ≤ 'f') || ('A' ≤ c && c ≤ 'F')

/-- The value of one hexadecimal digit. -/
def hexDigitValue (c : Char) : Nat :=
  if c.isDigit then c.toNat - '0'.toNat
  else if 'a' ≤ c then c.toNat - 'a'.toNat + 10
  else c.toNat - 'A'.toNat + 10

/-- The number that a text of hexadecimal digits writes. -/
def hexValue (s : Text) : Nat := s.foldl (fun n c => 16 * n + hexDigitValue c) 0

end Text

namespace Loop

universe u v

variable {m : Type u → Type v} [Monad m] {α : Type u} {β : Type u}

def map (f : α → m β) : List α → m (List β)
  | [] => pure []
  | x :: xs => do
    let y ← f x
    let ys ← map f xs
    pure (y :: ys)

def flatMap (f : α → m (List β)) : List α → m (List β)
  | [] => pure []
  | x :: xs => do
    let ys ← f x
    let zs ← flatMap f xs
    pure (ys ++ zs)

end Loop

end CssLocator
