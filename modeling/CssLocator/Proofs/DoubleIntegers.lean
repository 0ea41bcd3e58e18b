import CssLocator.XPathFunctions
import Mathlib.Data.Rat.Floor
import Mathlib.Tactic.FieldSimp
import Mathlib.Tactic.Linarith

/-!
# Doubles of integers

Positions and lengths are counted in doubles. As long as the numbers are small enough, sums,
differences, remainders and comparisons of integers are those of the integers themselves.
-/

namespace CssLocator.Double

/-- The double of an integer, which is exact for small ones. -/
def ofInt (i : Int) : Double := finite i

variable {a b : Int}

private theorem round_intCast (h : a.natAbs ≤ 2 ^ 53) : round a = ofInt a := by
  have hsmall : (a : Rat).den = 1 ∧ (a : Rat).num.natAbs ≤ Nat.pow 2 53 := ⟨rfl, h⟩
  rw [round, if_pos hsmall]
  rfl

theorem ofNat_eq {n : Nat} (h : n ≤ 2 ^ 53) : ofNat n = ofInt n := by
  have hround := round_intCast (a := n) (by simpa using h)
  rwa [Int.cast_natCast] at hround

@[simp] theorem toRat_neg_ofInt (b : Int) : (Double.neg (ofInt b)).toRat = -(b : Rat) := by
  unfold ofInt Double.neg
  dsimp only
  by_cases hb : (b : Rat) = 0
  · rw [if_pos hb, hb]
    rfl
  · rw [if_neg hb]
    rfl

theorem add_ofInt (h : (a + b).natAbs ≤ 2 ^ 53) : ofInt a + ofInt b = ofInt (a + b) := by
  show round ((a : Rat) + b) = _
  rw [← Int.cast_add, round_intCast h]

theorem sub_ofInt (h : (a - b).natAbs ≤ 2 ^ 53) : ofInt a - ofInt b = ofInt (a - b) := by
  have hround : ofInt a - ofInt b = round ((a : Rat) + (Double.neg (ofInt b)).toRat) := by
    show (finite a).add (Double.neg (finite b)) = _
    unfold ofInt Double.neg
    dsimp only
    split <;> rfl
  rw [hround, toRat_neg_ofInt, ← sub_eq_add_neg, ← Int.cast_sub, round_intCast h]

@[simp] theorem equals_ofInt : (ofInt a).equals (ofInt b) = decide (a = b) := by
  show decide ((a : Rat) = b) = _
  exact decide_eq_decide.2 Int.cast_inj

theorem equals_ofNat {m n : Nat} (hm : m ≤ 2 ^ 53) (hn : n ≤ 2 ^ 53) :
    (ofNat m).equals (ofNat n) = (m == n) := by
  rw [ofNat_eq hm, ofNat_eq hn, equals_ofInt, Bool.eq_iff_iff, decide_eq_true_eq, beq_iff_eq]
  exact Int.ofNat_inj

@[simp] theorem less_ofInt : (ofInt a).less (ofInt b) = decide (a < b) := by
  show decide ((a : Rat) < b) = _
  exact decide_eq_decide.2 Int.cast_lt

@[simp] theorem atMost_ofInt : (ofInt a).atMost (ofInt b) = decide (a ≤ b) := by
  rw [atMost, less_ofInt, equals_ofInt, ← Bool.decide_or]
  congr 1
  rw [eq_iff_iff]
  omega

/-- A remainder is zero if the division leaves none. -/
theorem isZero_rem (hb : b ≠ 0) :
    (ofInt a % ofInt b).equals (ofInt 0) = decide (Int.tmod a b = 0) := by
  have hb' : (b : Rat) ≠ 0 := Int.cast_ne_zero.2 hb
  let q : Rat := a / b
  let r : Rat := a - Int.tdiv q.num q.den * b
  have hrem : ofInt a % ofInt b = if r = 0 then zero (ofInt a).isNegative else finite r := by
    show Double.rem (finite a) (finite b) = _
    unfold Double.rem
    dsimp only
    rw [if_neg (by simpa [isZero] using hb)]
    rfl
  have hzero : ∀ s : Bool, (zero s).equals (ofInt 0) = true := by
    intro s
    cases s <;> rfl
  have hequals : (ofInt a % ofInt b).equals (ofInt 0) = decide (r = 0) := by
    rw [hrem]
    split
    · rename_i hr
      rw [hzero, decide_eq_true hr]
    · rename_i hr
      show decide (r = ((0 : Int) : Rat)) = _
      rw [Int.cast_zero]
  rw [hequals]
  congr 1
  rw [eq_iff_iff]
  constructor
  · intro hr
    have hdivides : (a : Rat) = (Int.tdiv q.num q.den * b : Int) := by
      rw [Int.cast_mul]
      exact sub_eq_zero.1 hr
    rw [Int.cast_inj] at hdivides
    rw [hdivides, Int.mul_tmod_left]
  · intro hmod
    obtain ⟨k, hk⟩ := Int.dvd_of_tmod_eq_zero hmod
    have hq : q = k := by
      show (a : Rat) / b = k
      rw [hk, Int.cast_mul]
      field_simp
    show (a : Rat) - Int.tdiv q.num q.den * b = 0
    rw [hq, Rat.num_intCast, Rat.den_intCast, Nat.cast_one, Int.tdiv_one, hk, Int.cast_mul]
    ring

@[simp] theorem twoPow_neg (n : Nat) : twoPow (-(n : Int)) = 1 / 2 ^ n := by
  cases n with
  | zero => simp [twoPow]
  | succ n =>
    show mkRat 1 (Nat.pow 2 (n + 1)) = _
    rw [Rat.mkRat_eq_div]
    norm_num

@[simp] theorem nearestEven_intCast (a : Int) : nearestEven a = a := by
  unfold nearestEven
  dsimp only
  rw [Rat.floor_intCast, sub_self, if_pos (by decide +kernel)]

private theorem num_add_half (a : Int) : ((a : Rat) + mkRat 1 2).num = 2 * a + 1 ∧
    ((a : Rat) + mkRat 1 2).den = 2 := by
  have hsum : (a : Rat) + mkRat 1 2 = mkRat (2 * a + 1) 2 := by
    rw [Rat.mkRat_eq_div, Rat.mkRat_eq_div]
    push_cast
    ring
  have hgcd : Nat.gcd 2 (2 * a + 1).natAbs = 1 := by
    have hodd : (2 * a + 1).natAbs % 2 = 1 := by omega
    rw [Nat.gcd_rec, hodd, Nat.gcd_one_left]
  rw [hsum, Rat.num_mkRat, Rat.den_mkRat, hgcd]
  simp

/-- The last place of a number that is a half more than a small integer is no greater than a half. -/
theorem placeExponent_half (h : a.natAbs < 2 ^ 52) :
    ∃ n : Nat, 1 ≤ n ∧ placeExponent ((a : Rat) + mkRat 1 2) = -(n : Int) := by
  obtain ⟨hnum, hden⟩ := num_add_half a
  have hlog : (2 * a + 1).natAbs.log2 ≤ 52 := by
    have hlt : (2 * a + 1).natAbs.log2 < 53 := by
      apply (Nat.log2_lt (by omega)).2
      omega
    omega
  have hexponent : exponent ((a : Rat) + mkRat 1 2) ≤ 51 := by
    unfold exponent
    dsimp only
    rw [hnum, hden]
    have htwo : Nat.log2 2 = 1 := by decide
    rw [htwo]
    split <;> omega
  refine ⟨(-placeExponent ((a : Rat) + mkRat 1 2)).toNat, ?_, ?_⟩
  · unfold placeExponent
    omega
  · unfold placeExponent
    omega

private theorem round_half (h : a.natAbs < 2 ^ 52) :
    round ((a : Rat) + mkRat 1 2) = finite ((a : Rat) + mkRat 1 2) := by
  obtain ⟨hnum, hden⟩ := num_add_half a
  obtain ⟨n, hn, hplace⟩ := placeExponent_half h
  obtain ⟨k, rfl⟩ : ∃ k, n = k + 1 := ⟨n - 1, by omega⟩
  have hvalue : (a : Rat) + mkRat 1 2 = (2 * a + 1) / 2 := by
    rw [Rat.mkRat_eq_div]
    push_cast
    ring
  have hscaled : ((a : Rat) + mkRat 1 2) / twoPow (-((k + 1 : Nat) : Int)) =
      (((2 * a + 1) * 2 ^ k : Int) : Rat) := by
    rw [twoPow_neg, hvalue]
    push_cast
    field_simp
    ring
  have hback : (((2 * a + 1) * 2 ^ k : Int) : Rat) * twoPow (-((k + 1 : Nat) : Int)) =
      (a : Rat) + mkRat 1 2 := by
    rw [twoPow_neg, hvalue]
    push_cast
    field_simp
    ring
  have hbound : ¬ twoPow 1024 ≤ magnitude ((a : Rat) + mkRat 1 2) := by
    have hlimit : (2 : Rat) ^ 53 ≤ twoPow 1024 := by decide +kernel
    have hupper : (a : Rat) < 2 ^ 52 := by exact_mod_cast (by omega : a < 2 ^ 52)
    have hlower : -(2 : Rat) ^ 52 < a := by exact_mod_cast (by omega : -(2 : Int) ^ 52 < a)
    rw [hvalue]
    unfold magnitude
    split <;> intro hle <;> linarith
  have hne : (a : Rat) + mkRat 1 2 ≠ 0 := by
    rw [← Rat.num_ne_zero, hnum]
    omega
  unfold round
  rw [if_neg (by rw [hden]; omega)]
  dsimp only
  rw [hplace, hscaled, nearestEven_intCast, hback, if_neg hbound, if_neg hne]

/-- Integers are the numbers nearest to themselves. Where doubles are a whole number apart, adding a
half is a tie, and 2 ^ 52 is even. -/
theorem roundHalfUp_ofInt (h : a.natAbs ≤ 2 ^ 52) : XPath.roundHalfUp (ofInt a) = ofInt a := by
  by_cases hlast : a.natAbs = 2 ^ 52
  · rcases Int.natAbs_eq a with ha | ha
    all_goals
      rw [hlast] at ha
      subst ha
      decide +kernel
  · have hfloor : ((a : Rat) + mkRat 1 2).floor = a := by
      have hhalf : mkRat 1 2 = 1 / 2 := by rw [Rat.mkRat_eq_div]; norm_num
      have hlow : a ≤ ((a : Rat) + mkRat 1 2).floor := by
        rw [Rat.le_floor_iff, hhalf]
        linarith
      have hhigh : ((a : Rat) + mkRat 1 2).floor < a + 1 := by
        rw [Rat.floor_lt_iff, hhalf]
        push_cast
        linarith
      omega
    have hsum : ofInt a + finite (mkRat 1 2) = finite ((a : Rat) + mkRat 1 2) :=
      round_half (by omega)
    rw [XPath.roundHalfUp, hsum, floor, hfloor]
    rfl

end CssLocator.Double
