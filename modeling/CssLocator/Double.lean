/-!
# Double-precision numbers

The IEEE 754 numbers of 64 bits as exact rationals, with the three values that are no rational:
the infinities, the negative zero and the not-a-number. An operation computes the exact result and
rounds it once, to the nearest representable number and to the even significand in a tie.
-/

namespace CssLocator

/-- A double. Positive zero is `finite 0`. -/
inductive Double where
  | nan
  | infinite (negative : Bool)
  | negativeZero
  | finite (value : Rat)
  deriving DecidableEq, Repr

namespace Double

def magnitude (q : Rat) : Rat := if q < 0 then -q else q

def twoPow : Int → Rat
  | .ofNat n => Nat.pow 2 n
  | .negSucc n => mkRat 1 (Nat.pow 2 (n + 1))

/-- The exponent `e` with `2 ^ e ≤ |q| < 2 ^ (e + 1)`, for `q` other than zero. The logarithms of
numerator and denominator leave two candidates. -/
def exponent (q : Rat) : Int :=
  let e : Int := (q.num.natAbs.log2 : Int) - q.den.log2
  if twoPow e ≤ magnitude q then e else e - 1

/-- The exponent of the last place that a double near `q` can hold: 53 binary places, and none
below the smallest subnormal number. -/
def placeExponent (q : Rat) : Int := max (exponent q - 52) (-1074)

/-- The nearest integer, the even one in a tie. -/
def nearestEven (q : Rat) : Int :=
  let k := q.floor
  if q - k < mkRat 1 2 then k
  else if mkRat 1 2 < q - k then k + 1
  else k + k % 2

def zero (negative : Bool) : Double := if negative then negativeZero else finite 0

/-- The double nearest to an exact number. Whole numbers of up to 53 binary digits are exact. -/
def round (q : Rat) : Double :=
  if q.den = 1 ∧ q.num.natAbs ≤ Nat.pow 2 53 then finite q
  else
    let place := twoPow (placeExponent q)
    let value : Rat := nearestEven (q / place) * place
    if twoPow 1024 ≤ magnitude value then infinite (q < 0)
    else if value = 0 then zero (q < 0)
    else finite value

def ofNat (n : Nat) : Double := round n

def ofBool (b : Bool) : Double := if b then finite 1 else finite 0

/-- The exact value; zero stands for the values that have none. -/
def toRat : Double → Rat
  | finite q => q
  | _ => 0

def isNegative : Double → Bool
  | nan => false
  | infinite negative => negative
  | negativeZero => true
  | finite q => q < 0

def isZero : Double → Bool
  | negativeZero => true
  | finite q => q = 0
  | _ => false

/-- The sign of a product or quotient: negative if exactly one operand is. -/
def signsDiffer (x y : Double) : Bool := x.isNegative != y.isNegative

protected def neg : Double → Double
  | nan => nan
  | infinite negative => infinite !negative
  | negativeZero => finite 0
  | finite q => if q = 0 then negativeZero else finite (-q)

protected def add : Double → Double → Double
  | nan, _ => nan
  | _, nan => nan
  | infinite s, infinite t => if s = t then infinite s else nan
  | infinite s, _ => infinite s
  | _, infinite t => infinite t
  | negativeZero, negativeZero => negativeZero
  | x, y => round (x.toRat + y.toRat)

protected def sub (x y : Double) : Double := x.add y.neg

protected def mul (x y : Double) : Double :=
  match x, y with
  | nan, _ => nan
  | _, nan => nan
  | infinite _, _ => if y.isZero then nan else infinite (signsDiffer x y)
  | _, infinite _ => if x.isZero then nan else infinite (signsDiffer x y)
  | _, _ =>
    if x.isZero || y.isZero then zero (signsDiffer x y) else round (x.toRat * y.toRat)

protected def div (x y : Double) : Double :=
  match x, y with
  | nan, _ => nan
  | _, nan => nan
  | infinite _, infinite _ => nan
  | infinite _, _ => infinite (signsDiffer x y)
  | _, infinite _ => zero (signsDiffer x y)
  | _, _ =>
    if y.isZero then (if x.isZero then nan else infinite (signsDiffer x y))
    else if x.isZero then zero (signsDiffer x y)
    else round (x.toRat / y.toRat)

/-- What is left of `x` after taking `y` out a whole number of times, with the sign of `x`. The
result is exact. -/
protected def rem (x y : Double) : Double :=
  match x, y with
  | nan, _ => nan
  | _, nan => nan
  | infinite _, _ => nan
  | _, infinite _ => x
  | _, _ =>
    if y.isZero then nan
    else
      let q := x.toRat / y.toRat
      let r := x.toRat - Int.tdiv q.num q.den * y.toRat
      if r = 0 then zero x.isNegative else finite r

/-- The greatest whole number that is not above `x`. -/
def floor : Double → Double
  | finite q => finite q.floor
  | x => x

/-- Numeric equality: a not-a-number differs from everything, and the two zeros are equal. -/
def equals : Double → Double → Bool
  | nan, _ => false
  | _, nan => false
  | infinite s, infinite t => s == t
  | infinite _, _ => false
  | _, infinite _ => false
  | x, y => x.toRat = y.toRat

/-- Numeric order; false if an operand is not a number. -/
def less : Double → Double → Bool
  | nan, _ => false
  | _, nan => false
  | infinite s, infinite t => s && !t
  | infinite s, _ => s
  | _, infinite t => !t
  | x, y => x.toRat < y.toRat

def atMost (x y : Double) : Bool := less x y || equals x y

instance : Neg Double := ⟨Double.neg⟩
instance : Add Double := ⟨Double.add⟩
instance : Sub Double := ⟨Double.sub⟩
instance : Mul Double := ⟨Double.mul⟩
instance : Div Double := ⟨Double.div⟩
instance : Mod Double := ⟨Double.rem⟩

/-- The 64 bits of the number: sign, biased exponent and significand. A not-a-number has many
patterns, and none is given. -/
def bits? : Double → Option Nat
  | nan => none
  | infinite negative => some ((if negative then Nat.pow 2 63 else 0) + 0x7FF * Nat.pow 2 52)
  | negativeZero => some (Nat.pow 2 63)
  | finite q =>
    if q = 0 then some 0
    else
      let place := placeExponent q
      let significand := (magnitude q / twoPow place).floor.toNat
      let unsigned :=
        if significand < Nat.pow 2 52 then significand
        else (place + 1075).toNat * Nat.pow 2 52 + (significand - Nat.pow 2 52)
      some ((if q < 0 then Nat.pow 2 63 else 0) + unsigned)

end Double

end CssLocator
