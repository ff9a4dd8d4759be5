import ChurchScript.Term.Basic
import ChurchScript.Number.Digits

/-!
# Church numerals as terms

A free variable spelled with digits alone stands for the numeral of its value,
up to the largest numeral there is.
-/
namespace ChurchScript.Term

/-- The largest number with a numeral. -/
def maxNumeral : Nat := 100

/-- `f` applied `n` times to `x`. -/
def iterate (f x : Term) : Nat → Term
  | 0 => x
  | n + 1 => app f (iterate f x n)

def numeral (n : Nat) : Term :=
  lam "f" (lam "x" (iterate (name "f") (name "x") n))

def numeralValue? (x : String) : Option Nat :=
  let n := Digits.value x.toList
  if Digits.isNumber x.toList && n ≤ maxNumeral then some n else none

/-- Puts numerals in place of the variables that stand for one, below
abstractions of the given names. -/
def expandUnder (bound : List String) : Term → Term
  | var x index binder =>
    match numeralValue? x with
    | some n => if bound.contains x then var x index binder else numeral n
    | none => var x index binder
  | abs x binder body => abs x binder (body.expandUnder (x :: bound))
  | app f a => app (f.expandUnder bound) (a.expandUnder bound)

def expandNumerals (t : Term) : Term :=
  t.expandUnder []

end ChurchScript.Term
