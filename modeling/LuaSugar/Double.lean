/-!
# Doubles

Numbers of the dialect are IEEE 754 doubles, kept as their 64 bits so that equality is
decidable and nothing depends on opaque hardware arithmetic. The only operations a compiler
needs are classification, comparison and rounding of an exact quotient; the text of a number is
the business of `LuaSugar.Double.Decimal`.

The magnitude of a double, its bits without the sign, orders the non-negative doubles by value.
Consecutive magnitudes are consecutive doubles, also across a change of exponent, and that is
why `ofRatio` may add a rounded significand to a scaled exponent and let the carry do the rest.
-/

namespace LuaSugar

-- the powers of the core library, whatever is imported beside it
attribute [local instance (high)] instPowNat

/-- A double, by its IEEE 754 bits. -/
structure Double where
  bits : UInt64
deriving DecidableEq, Repr, Inhabited

namespace Double

/-- The magnitude of infinity: every exponent bit and no fraction bit. -/
def infiniteMagnitude : Nat := 2047 * 2 ^ (52 : Nat)

/-- The bits without the sign. -/
def magnitude (x : Double) : Nat := x.bits.toNat % 2 ^ (63 : Nat)

/-- The sign bit. -/
def isNegative (x : Double) : Bool := decide (2 ^ (63 : Nat) ≤ x.bits.toNat)

/-- The non-negative double of a magnitude; magnitudes beyond infinity become infinity. -/
def ofMagnitude (m : Nat) : Double := ⟨UInt64.ofNat (min m infiniteMagnitude)⟩

def zero : Double := ofMagnitude 0

def infinity : Double := ofMagnitude infiniteMagnitude

def isNaN (x : Double) : Bool := decide (infiniteMagnitude < x.magnitude)

def isInfinite (x : Double) : Bool := decide (x.magnitude = infiniteMagnitude)

def isFinite (x : Double) : Bool := decide (x.magnitude < infiniteMagnitude)

/-- Both zeros are zero. -/
def isZero (x : Double) : Bool := decide (x.magnitude = 0)

/-- The absolute value; that of a NaN is infinite. -/
def abs (x : Double) : Double := ofMagnitude x.magnitude

/-- Equality of numbers, with two differences from equality of bits: the zeros are one number,
and all NaNs count as one. -/
def same (x y : Double) : Bool :=
  x.isNaN && y.isNaN || !x.isNaN && !y.isNaN && (x == y || x.isZero && y.isZero)

/-! ## The value of a finite double -/

/-- The integer significand: the fraction, with the hidden bit unless the number is subnormal. -/
def significand (x : Double) : Nat :=
  if x.magnitude < 2 ^ (52 : Nat) then x.magnitude
  else 2 ^ (52 : Nat) + x.magnitude % 2 ^ (52 : Nat)

/-- The exponent of the significand's last bit: a finite double of magnitude `m` is
`significand * 2 ^ exponent`. -/
def exponent (x : Double) : Int :=
  if x.magnitude < 2 ^ (52 : Nat) then -1074 else (x.magnitude / 2 ^ (52 : Nat) : Nat) - 1075

/-- Numerator of the absolute value as an exact quotient. -/
def numerator (x : Double) : Nat := x.significand * 2 ^ x.exponent.toNat

/-- Denominator of the absolute value as an exact quotient. -/
def denominator (x : Double) : Nat := 2 ^ (-x.exponent).toNat

/-! ## Rounding -/

/-- The integer nearest to a quotient; a tie goes to the even neighbour. -/
def roundQuotient (num den : Nat) : Nat :=
  let q := num / den
  let r := num % den
  if 2 * r < den then q else if den < 2 * r then q + 1 else q + q % 2

/-- The exponent of the largest power of two that is at most `num / den`. -/
def binade (num den : Nat) : Int :=
  if den ≤ num then ((num / den).log2 : Int) else -(((den - 1) / num).log2 + 1 : Nat)

/-- The double nearest to `num / den`; a tie goes to the even significand, and what lies beyond
the largest finite double is infinite. -/
def ofRatio (num den : Nat) : Double :=
  if num = 0 then zero
  else
    let q := max (binade num den - 52) (-1074)
    let m := roundQuotient (num * 2 ^ (-q).toNat) (den * 2 ^ q.toNat)
    ofMagnitude ((q + 1074).toNat * 2 ^ (52 : Nat) + m)

/-- The double nearest to a natural number. -/
def ofNat (n : Nat) : Double := ofRatio n 1

end Double

end LuaSugar
