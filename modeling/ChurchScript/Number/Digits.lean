/-!
# Digits, signs and exponents

The parts that written numbers are made of, whatever a notation puts between
them.
-/
namespace ChurchScript.Digits

/-- The value of an ASCII digit. -/
def digit (c : Char) : Nat := c.toNat - 48

/-- The number that a list of ASCII digits spells, zero if there is none. -/
def value (digits : List Char) : Nat :=
  digits.foldl (fun n c => 10 * n + digit c) 0

/-- The number that a list of ASCII digits spells, without the digits that follow
once it has reached `bound`. -/
def valueUpTo (bound : Nat) (digits : List Char) : Nat :=
  digits.foldl (fun n c => if n < bound then 10 * n + digit c else n) 0

/-- Whether a text is made of ASCII digits, of which it has at least one. -/
def isNumber (cs : List Char) : Bool :=
  !cs.isEmpty && cs.all Char.isDigit

/-- The sign in front of a number, true for minus, and what follows it. -/
def takeSign : List Char → Bool × List Char
  | '-' :: cs => (true, cs)
  | '+' :: cs => (false, cs)
  | cs => (false, cs)

/-- An exponent that makes up all of a text: nothing, or a mark, a sign and digits,
of which `size` gives the value. -/
def exponent? (size : List Char → Nat) : List Char → Option Int
  | [] => some 0
  | mark :: cs =>
    let (negative, digits) := takeSign cs
    if (mark == 'e' || mark == 'E') && isNumber digits then
      let n : Int := size digits
      some (if negative then -n else n)
    else none

end ChurchScript.Digits
