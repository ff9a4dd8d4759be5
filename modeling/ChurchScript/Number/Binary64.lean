import ChurchScript.Number.Power

/-!
# Binary floating-point numbers of 64 bits

Every finite number of the format is a whole multiple of `2^-1074`, its
smallest positive number, so a finite number is held as its sign and that
multiple. Arithmetic is exact arithmetic on naturals followed by one rounding
to 53 significant bits, ties to even.
-/
namespace ChurchScript

inductive Binary64 where
  | nan
  | infinite (negative : Bool)
  | finite (negative : Bool) (units : Nat)
  deriving DecidableEq, Repr

namespace Binary64

/-- The units that make up the number one. -/
def one : Nat := pow2 1074

/-- The first number of units that is too large for the format. -/
def limit : Nat := pow2 (1024 + 1074)

/-- The quotient to the nearest whole number, ties to even. -/
def divNearest (num den : Nat) : Nat :=
  let q := num / den
  let twice := 2 * (num % den)
  if twice < den || (twice == den && q % 2 == 0) then q else q + 1

/-- The number of units nearest to `num / den` of them among those with at most
53 significant bits. -/
def roundUnits (num den : Nat) : Nat :=
  let shift := (num / den).log2 - 52
  divNearest num (den * pow2 shift) * pow2 shift

/-- The number nearest to the quotient `num / den`. -/
def ofRatio (negative : Bool) (num den : Nat) : Binary64 :=
  let units := roundUnits (num * one) den
  if units < limit then finite negative units else infinite negative

def ofNat (n : Nat) : Binary64 :=
  ofRatio false n 1

def isZero : Binary64 → Bool
  | finite _ units => units == 0
  | _ => false

def neg : Binary64 → Binary64
  | nan => nan
  | infinite s => infinite !s
  | finite s units => finite (!s) units

/-- The product with a positive whole number that is itself rounded first. -/
def scale (x : Binary64) (factor : Nat) : Binary64 :=
  match x, ofNat factor with
  | finite s a, finite _ b => ofRatio s (a * b) (one * one)
  | finite s _, _ => infinite s
  | x, _ => x

/-- The quotient by a positive whole number that is itself rounded first. -/
def unscale (x : Binary64) (divisor : Nat) : Binary64 :=
  match x, ofNat divisor with
  | finite s a, finite _ b => ofRatio s a b
  | finite s _, _ => finite s 0
  | x, _ => x

/-- Whether the difference of two numbers, itself rounded, lies below one. -/
def near : Binary64 → Binary64 → Bool
  | finite s a, finite t b =>
    let gap := if s == t then max a b - min a b else a + b
    roundUnits gap 1 < one
  | _, _ => false

/-- The magnitude to the nearest whole number, halves away from zero. -/
def roundMagnitude (units : Nat) : Nat :=
  (units + one / 2) / one

/-- The least 64-bit signed integer. -/
def minInt : Int := -9223372036854775808

/-- The greatest 64-bit signed integer. -/
def maxInt : Int := 9223372036854775807

/-- The nearest whole number, halves away from zero, brought into the range of
64-bit signed integers. -/
def toInt? : Binary64 → Option Int
  | nan => none
  | infinite true => some minInt
  | infinite false => some maxInt
  | finite true units => some (max minInt (-(roundMagnitude units : Int)))
  | finite false units => some (min maxInt (roundMagnitude units : Int))

/-- The nearest whole number, halves up, of a number from 0 to `bound`. -/
def toNatUpTo? (bound : Nat) : Binary64 → Option Nat
  | finite s units =>
    if (!s || units == 0) && units ≤ bound * one then some (roundMagnitude units) else none
  | _ => none

/-- The number with a given bit pattern: sign, eleven bits of exponent, 52 bits
of fraction. -/
def ofBits (bits : Nat) : Binary64 :=
  let negative := bits / pow2 63 % 2 == 1
  let field := bits / pow2 52 % pow2 11
  let fraction := bits % pow2 52
  if field == 2047 then
    if fraction == 0 then infinite negative else nan
  else if field == 0 then finite negative fraction
  else finite negative ((pow2 52 + fraction) * pow2 (field - 1))

def toBits : Binary64 → Nat
  | nan => 0x7ff8000000000000
  | infinite s => (if s then pow2 63 else 0) + 2047 * pow2 52
  | finite s units =>
    let shift := units.log2 - 52
    (if s then pow2 63 else 0) + shift * pow2 52 + units / pow2 shift

end Binary64
end ChurchScript
