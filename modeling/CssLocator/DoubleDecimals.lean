import CssLocator.Text
import CssLocator.Double

/-!
# Decimal texts of doubles

Reading takes the double nearest to the written number. Writing takes the fewest decimal digits
that read back, of those the nearest to the number, and always positional notation.
-/

namespace CssLocator.Double

/-- The number written by ASCII digits with at most one point among them. -/
def ofDecimal (s : Text) : Double :=
  match Text.cut? '.' s with
  | none => ofNat (Text.digitsValue s)
  | some (whole, fraction) =>
    round (mkRat (Text.digitsValue (whole ++ fraction)) (Nat.pow 10 fraction.length))

def tenPow : Int → Rat
  | .ofNat n => Nat.pow 10 n
  | .negSucc n => mkRat 1 (Nat.pow 10 (n + 1))

/-- The exponent `e` with `10 ^ e ≤ q < 10 ^ (e + 1)`, for positive `q`. -/
def decade (q : Rat) : Int :=
  let e : Int := ((Text.ofNat q.num.natAbs).length : Int) - (Text.ofNat q.den).length
  if tenPow e ≤ q then e else e - 1

/-- The numbers that round to a given positive double: an interval around it that includes its ends
when the significand is even. Below a power of two the next double is only half as far. -/
structure Neighbourhood where
  low : Rat
  high : Rat
  closed : Bool

def neighbourhood (q : Rat) : Neighbourhood :=
  let place := twoPow (placeExponent q)
  let significand := (q / place).floor
  let below : Rat :=
    if significand = Nat.pow 2 52 ∧ placeExponent q ≠ -1074 then place / 4 else place / 2
  ⟨q - below, q + place / 2, significand % 2 = 0⟩

def Neighbourhood.contains (n : Neighbourhood) (x : Rat) : Bool :=
  if n.closed then n.low ≤ x && x ≤ n.high else n.low < x && x < n.high

/-- The decimal of the given place value nearest to `q` among those that read back as `q`; a tie
goes up. -/
def decimalAt? (q : Rat) (place : Int) : Option Int :=
  let unit := tenPow place
  let lower := (q / unit).floor
  let upper := lower + 1
  let around := neighbourhood q
  match around.contains (lower * unit), around.contains (upper * unit) with
  | true, true => some (if q - lower * unit < upper * unit - q then lower else upper)
  | true, false => some lower
  | false, true => some upper
  | false, false => none

/-- Searches for the fewest digits, the given number of digits being tried at most. The answer is a
whole number and the power of ten it is multiplied with. -/
def fewestDigits (q : Rat) (place : Int) : Nat → Int × Int
  | 0 => ((q / tenPow place).floor, place)
  | n + 1 =>
    match decimalAt? q place with
    | some d => if d % 10 = 0 then (d / 10, place + 1) else (d, place)
    | none => fewestDigits q (place - 1) n

/-- Positional notation of `digits * 10 ^ place`. -/
def positional (digits : Nat) : Int → Text
  | .ofNat zeros => Text.ofNat digits ++ List.replicate zeros '0'
  | .negSucc n =>
    let places := n + 1
    let unit := Nat.pow 10 places
    let fraction := Text.ofNat (digits % unit)
    Text.ofNat (digits / unit) ++ "." ++
      List.replicate (places - fraction.length) '0' ++ fraction

/-- The shortest positional decimal that reads back. Seventeen digits always do. -/
def decimalText : Double → Text
  | nan => "NaN"
  | infinite false => "inf"
  | infinite true => "-inf"
  | negativeZero => "-0"
  | finite q =>
    if q = 0 then "0"
    else
      let m := magnitude q
      let (digits, place) := fewestDigits m (decade m) 17
      let text := positional digits.toNat place
      if q < 0 then '-' :: text else text

end CssLocator.Double
