import ChurchScript.Number.Binary64
import ChurchScript.Number.Digits

/-!
# Numbers written in decimal

A sign, then a word for infinity or no number in any case, or digits with an
optional point and an optional exponent. The number read is the one nearest
to the decimal. An exponent takes in digits only until it has reached 65536,
which matters where as many digits in front of it make up for it.
-/
namespace ChurchScript.Decimal

/-- The size from which an exponent takes in no more digits. -/
def exponentBound : Nat := 65536

/-- The number nearest to what the digits spell times `10 ^ e`. A magnitude outside of
`10^±400` need not be computed: it is infinite or zero. -/
def nearest (negative : Bool) (digits : List Char) (e : Int) : Binary64 :=
  let significant := digits.dropWhile (· == '0')
  let top : Int := significant.length + e
  if significant.isEmpty || top < -400 then .finite negative 0
  else if top > 400 then .infinite negative
  else .ofRatio negative (Digits.value significant * pow10 e.toNat) (pow10 (-e).toNat)

def unsigned? (negative : Bool) (cs : List Char) : Option Binary64 :=
  let whole := cs.takeWhile Char.isDigit
  let rest := cs.dropWhile Char.isDigit
  let (fraction, rest) := match rest with
    | '.' :: rest => (rest.takeWhile Char.isDigit, rest.dropWhile Char.isDigit)
    | rest => ([], rest)
  if whole.isEmpty && fraction.isEmpty then none
  else do
    let e ← Digits.exponent? (Digits.valueUpTo exponentBound) rest
    return nearest negative (whole ++ fraction) (e - fraction.length)

def read? (cs : List Char) : Option Binary64 :=
  let (negative, cs) := Digits.takeSign cs
  let word := String.ofList (cs.map Char.toLower)
  if word == "inf" || word == "infinity" then some (.infinite negative)
  else if word == "nan" then some .nan
  else unsigned? negative cs

end ChurchScript.Decimal
