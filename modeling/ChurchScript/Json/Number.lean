import ChurchScript.Number.Binary64
import ChurchScript.Number.Digits

/-!
# Numbers in JSON text

The digits fill a significand of 64 bits. Whole digits that no longer fit only
raise the exponent, and fractional digits that no longer fit are dropped. The
significand is rounded to a floating-point number and then scaled by one
rounded power of ten, or by several where the exponent lies below -308. A
number beyond the range of the format is refused.
-/
namespace ChurchScript.Json.Number

/-- The largest exponent whose power of ten is a finite number. -/
def maxPower : Nat := 308

def fits (significand : Nat) (c : Char) : Bool :=
  10 * significand + Digits.digit c < pow2 64

/-- Takes in whole digits as far as they fit, and counts those that do not. -/
def whole (significand : Nat) : List Char → Nat × Nat
  | [] => (significand, 0)
  | c :: cs =>
    if fits significand c then whole (10 * significand + Digits.digit c) cs
    else (significand, cs.length + 1)

/-- Takes in fractional digits as far as they fit, and counts them. -/
def fraction (significand taken : Nat) : List Char → Nat × Nat
  | [] => (significand, taken)
  | c :: cs =>
    if fits significand c then fraction (10 * significand + Digits.digit c) (taken + 1) cs
    else (significand, taken)

/-- Divides by `10 ^ e`. -/
def lower (x : Binary64) (e : Nat) : Binary64 :=
  if e ≤ maxPower then x.unscale (pow10 e)
  else if x.isZero then x
  else lower (x.unscale (pow10 maxPower)) (e - maxPower)
termination_by e
decreasing_by simp only [maxPower] at *; omega

/-- Multiplies by `10 ^ e`, unless the result is too large. -/
def raise? (x : Binary64) (e : Nat) : Option Binary64 :=
  if e ≤ maxPower then
    match x.scale (pow10 e) with
    | .finite s units => some (.finite s units)
    | _ => none
  else if x.isZero then some x
  else none

def scaled? (significand : Nat) (exponent : Int) : Option Binary64 :=
  let x := Binary64.ofNat significand
  if 0 ≤ exponent then raise? x exponent.toNat else some (lower x (-exponent).toNat)

def unsigned? (cs : List Char) : Option Binary64 := do
  let digits := cs.takeWhile Char.isDigit
  guard (digits == ['0'] || (Digits.isNumber digits && digits.head? != some '0'))
  let (significand, excess) := whole 0 digits
  match cs.dropWhile Char.isDigit with
  | '.' :: rest =>
    let digits := rest.takeWhile Char.isDigit
    guard (!digits.isEmpty)
    let (significand, taken) := fraction significand 0 digits
    let e ← Digits.exponent? Digits.value (rest.dropWhile Char.isDigit)
    scaled? significand (e + excess - taken)
  | rest =>
    let e ← Digits.exponent? Digits.value rest
    scaled? significand (e + excess)

def read? : List Char → Option Binary64
  | '-' :: cs => (unsigned? cs).map Binary64.neg
  | cs => unsigned? cs

end ChurchScript.Json.Number
