import CssLocator.Errors

/-!
# The an+b notation

Arguments such as `3`, `2n` and `2n+1`, which pick the positions `a * n + b` for `n ≥ 0`. A step is
unsigned and written before a small `n`; an offset after a step needs its sign.
-/

namespace CssLocator

/-- A read argument. A part that is not written counts as zero. -/
structure AnPlusB where
  step : Option Int
  offset : Option Int
  deriving DecidableEq, Repr

namespace AnPlusB

/-- The whole numbers of 32 bits. -/
def fits (i : Int) : Bool := -(Nat.pow 2 31 : Nat) ≤ i && i < (Nat.pow 2 31 : Nat)

/-- A number of ASCII digits, in range. -/
def unsigned? (s : Text) : Option Int :=
  if s ≠ [] ∧ s.all Char.isDigit ∧ fits (Text.digitsValue s) then some (Text.digitsValue s)
  else none

/-- A number after its sign, in range. -/
def signed? : Text → Option Int
  | [] => none
  | c :: digits =>
    if digits ≠ [] ∧ digits.all Char.isDigit then
      let n : Int := Text.digitsValue digits
      if c = '+' ∧ fits n then some n else if c = '-' ∧ fits (-n) then some (-n) else none
    else none

/-- Reads a trimmed argument. -/
def read? (s : Text) : Option AnPlusB :=
  let digits := s.takeWhile Char.isDigit
  match s.dropWhile Char.isDigit with
  | [] => (unsigned? digits).map fun b => ⟨none, some b⟩
  | ['n'] => (unsigned? digits).map fun a => ⟨some a, none⟩
  | 'n' :: rest =>
    match unsigned? digits, signed? (Text.skipSpace rest) with
    | some a, some b => some ⟨some a, some b⟩
    | _, _ => none
  | rest => if digits.isEmpty then (signed? rest).map fun b => ⟨none, some b⟩ else none

/-- Reads the argument of a pseudo-class. -/
def ofArgument (pseudo argument : Text) : Except SelectorError AnPlusB :=
  match read? (Text.trim argument) with
  | some r => .ok r
  | none => .error (.argument pseudo argument .notAnPlusB)

/-- The notation itself, in its shortest spelling. -/
def text (r : AnPlusB) : Text :=
  let signed (b : Int) : Text := if b < 0 then Text.ofInt b else '+' :: Text.ofInt b
  match r.step, r.offset with
  | none, none => ""
  | none, some b => Text.ofInt b
  | some a, none => Text.ofInt a ++ "n"
  | some a, some b => Text.ofInt a ++ "n" ++ signed b

/-- The pseudo-class with this argument, as selector text. -/
def nativeText (pseudo : Text) (r : AnPlusB) : Text := ":" ++ pseudo ++ "(" ++ r.text ++ ")"

/-- The condition on a position as an XPath expression, the position being an expression too. -/
def pathText (position : Text) (r : AnPlusB) : Text :=
  let a := r.step.getD 0
  let b := Text.ofInt (r.offset.getD 0)
  if a = 0 then position ++ " = " ++ b
  else
    "(" ++ position ++ " - " ++ b ++ ") mod " ++ Text.ofInt a ++ " = 0 and " ++ position ++
      " >= " ++ b

/-- Whether a position is among those described. -/
def selects (r : AnPlusB) (position : Int) : Bool :=
  let a := r.step.getD 0
  let b := r.offset.getD 0
  if a = 0 then position = b else Int.tmod (position - b) a = 0 && b ≤ position

end AnPlusB

end CssLocator
