import LuaSugar.Double

/-!
# Decimal text of doubles

A `Decimal` is `digits * 10 ^ exponent`. Reading one rounds it to the nearest double
(`Decimal.toDouble`); writing a double picks the decimal with the fewest digits that reads back,
and of several the nearest (`Double.shortest`). The search tests candidates by reading them, so
what it returns reads back by construction; the exact expansion stands behind it.

Two layouts are in use. Lua text is positional and never has an exponent; JSON text always shows
that the number is not an integer.
-/

namespace LuaSugar

-- the powers of the core library, whatever is imported beside it
attribute [local instance (high)] instPowNat

/-- `digits * 10 ^ exponent`. -/
structure Decimal where
  digits : Nat
  exponent : Int
deriving DecidableEq, Repr

namespace Decimal

/-- How many decimal digits a number has; zero has one. -/
def digitCount (n : Nat) : Nat := (Nat.toDigits 10 n).length

/-- The nearest double. Far outside the range of doubles the answer is known from the digit
count alone, and no power of ten is computed. -/
def toDouble (d : Decimal) : Double :=
  if d.digits = 0 then Double.zero
  else
    let top := (digitCount d.digits : Int) + d.exponent
    if 310 < top then Double.infinity
    else if top < -330 then Double.zero
    else Double.ofRatio (d.digits * 10 ^ d.exponent.toNat) (10 ^ (-d.exponent).toNat)

/-- The same value without trailing zeros among the digits. -/
def normalize (d : Decimal) : Decimal :=
  let text := Nat.toDigits 10 d.digits
  let zeros := (text.reverse.takeWhile (· == '0')).length
  if zeros = text.length then ⟨0, 0⟩ else ⟨d.digits / 10 ^ zeros, d.exponent + zeros⟩

/-- Digits before and after the point, without an exponent. -/
def split (d : Decimal) : List Char × List Char :=
  let text := Nat.toDigits 10 d.digits
  if 0 ≤ d.exponent then (text ++ List.replicate d.exponent.toNat '0', [])
  else
    let places := (-d.exponent).toNat
    if places < text.length then text.splitAt (text.length - places)
    else (['0'], List.replicate (places - text.length) '0' ++ text)

/-- Positional notation: `12`, `0.5`, `1000000`. -/
def positional (d : Decimal) : List Char :=
  match d.normalize.split with
  | (whole, []) => whole
  | (whole, fraction) => whole ++ '.' :: fraction

/-- Positional notation with at least one place after the point between `1e-5` and `1e16`,
scientific notation elsewhere: `12.0`, `0.5`, `1e+300`. -/
def scientific (d : Decimal) : List Char :=
  let d := d.normalize
  let text := Nat.toDigits 10 d.digits
  let order := d.exponent + (text.length : Int) - 1
  if -5 ≤ order ∧ order < 16 then
    match d.split with
    | (whole, []) => whole ++ ['.', '0']
    | (whole, fraction) => whole ++ '.' :: fraction
  else
    let mantissa := match text with
      | first :: second :: rest => first :: '.' :: second :: rest
      | short => short
    let sign := if order < 0 then '-' else '+'
    mantissa ++ 'e' :: sign :: Nat.toDigits 10 order.natAbs

end Decimal

namespace Double

/-- How a value halfway between two candidates is written. -/
inductive Tie where
  | up
  | even
deriving DecidableEq, Repr

/-- The exponent of the largest power of ten that is at most `num / den`. -/
def decade (num den : Nat) : Int :=
  if den ≤ num then (Decimal.digitCount (num / den) : Int) - 1
  else -(Decimal.digitCount ((den - 1) / num) : Int)

/-- The two neighbours of the absolute value among the multiples of `10 ^ exponent`, the nearer
one first. -/
def neighbours (x : Double) (tie : Tie) (exponent : Int) : List Decimal :=
  let num := x.numerator * 10 ^ (-exponent).toNat
  let den := x.denominator * 10 ^ exponent.toNat
  let low := num / den
  let twice := 2 * (num % den)
  let lowFirst := twice < den || (twice == den && tie == .even && low % 2 == 0)
  if lowFirst then [⟨low, exponent⟩, ⟨low + 1, exponent⟩]
  else [⟨low + 1, exponent⟩, ⟨low, exponent⟩]

/-- The absolute value in full. -/
def exactDecimal (x : Double) : Decimal :=
  if 0 ≤ x.exponent then ⟨x.numerator, 0⟩
  else ⟨x.significand * 5 ^ (-x.exponent).toNat, x.exponent⟩

/-- The absolute value of a finite double with the fewest digits that read back. -/
def shortest (x : Double) (tie : Tie) : Decimal :=
  let order := decade x.numerator x.denominator
  let candidates := (List.range 17).flatMap fun (n : Nat) => x.neighbours tie (order - n)
  (candidates.find? fun d => d.toDouble.magnitude == x.magnitude).getD x.exactDecimal

/-- The sign of a finite double before its digits. -/
def signed (x : Double) (text : List Char) : List Char :=
  if x.isNegative then '-' :: text else text

/-- Decimal text without an exponent, `inf`, or `NaN`. -/
def plainText (x : Double) : String :=
  if x.isNaN then "NaN"
  else String.ofList (x.signed
    (if x.isInfinite then ['i', 'n', 'f'] else (x.shortest .up).positional))

/-- JSON text, which has no word for the infinities and NaN. -/
def jsonText (x : Double) : String :=
  if x.isFinite then String.ofList (x.signed (x.shortest .even).scientific) else "null"

end Double

end LuaSugar
