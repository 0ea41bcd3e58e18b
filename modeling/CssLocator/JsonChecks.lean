import CssLocator.Double
import CssLocator.JsonTexts

/-!
# Acceptable JSON values

A value is sound if all its strings have a text and all its numbers stay in the range of doubles.
-/

namespace CssLocator

/-- A decimal whose digits beyond 64 bits are cut off. -/
structure CutDecimal where
  significand : Nat
  exponent : Int
  /-- Whether digits are being cut off. -/
  full : Bool
  deriving DecidableEq, Repr

namespace CutDecimal

def empty : CutDecimal := ⟨0, 0, false⟩

def overflows (n : CutDecimal) (digit : Nat) : Bool := Nat.pow 2 64 ≤ 10 * n.significand + digit

/-- Takes one more digit before the point. A digit that is cut off still counts as a place. -/
def pushWhole (n : CutDecimal) (c : Char) : CutDecimal :=
  let digit := c.toNat - '0'.toNat
  if n.full || n.overflows digit then ⟨n.significand, n.exponent + 1, true⟩
  else ⟨10 * n.significand + digit, n.exponent, false⟩

/-- Takes one more digit after the point. -/
def pushFraction (n : CutDecimal) (c : Char) : CutDecimal :=
  let digit := c.toNat - '0'.toNat
  if n.full || n.overflows digit then ⟨n.significand, n.exponent, true⟩
  else ⟨10 * n.significand + digit, n.exponent - 1, false⟩

def ofDigits (whole fraction : Text) : CutDecimal :=
  let n := whole.foldl pushWhole empty
  fraction.foldl pushFraction { n with full := false }

end CutDecimal

namespace JsonNumber

/-- Whether the number is written as a whole number, without point and exponent. -/
def isWhole (n : JsonNumber) : Bool := n.fraction.isEmpty && n.exponent.isNone

/-- Whether the number does not exceed the doubles: cut to 64 bits and rounded, its significand
times the power of ten is still finite. Small numbers may vanish. -/
def inRange (n : JsonNumber) : Bool :=
  let cut := CutDecimal.ofDigits n.whole n.fraction
  let exponent := cut.exponent + n.exponent.getD 0
  if cut.significand = 0 ∨ exponent ≤ 0 then true
  else if 308 < exponent then false
  else
    match Double.ofNat cut.significand * Double.ofNat (Nat.pow 10 exponent.toNat) with
    | .infinite _ => false
    | _ => true

/-- The natural number of 64 bits that is written, if it is one. -/
def word? (n : JsonNumber) : Option Nat :=
  let value := Text.digitsValue n.whole
  if n.isWhole && !n.negative && value < Nat.pow 2 64 then some value else none

end JsonNumber

namespace Json

mutual

def isSound : Json → Bool
  | null => true
  | boolean _ => true
  | number n => n.inRange
  | string text => text.isSome
  | array items => areSound items
  | object members => areSoundMembers members

def areSound : List Json → Bool
  | [] => true
  | v :: vs => v.isSound && areSound vs

def areSoundMembers : List Member → Bool
  | [] => true
  | .mk name value :: rest => name.isSome && value.isSound && areSoundMembers rest

end

mutual

/-- How many arrays and objects are nested. -/
def depth : Json → Nat
  | array items => depthOfItems items + 1
  | object members => depthOfMembers members + 1
  | _ => 0

def depthOfItems : List Json → Nat
  | [] => 0
  | v :: vs => max v.depth (depthOfItems vs)

def depthOfMembers : List Member → Nat
  | [] => 0
  | .mk _ value :: rest => max value.depth (depthOfMembers rest)

end

end Json

end CssLocator
