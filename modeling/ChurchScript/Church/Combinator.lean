import ChurchScript.Term.Numeral

/-!
# Church encodings

The closed lambda texts that stand for numbers, truth values and operators.
Each is in parentheses, so that it can be applied and passed as it is.
-/
namespace ChurchScript.Church

inductive Combinator where
  | true | false
  | add | sub | mul | div
  | eq | lt | le | ge
  | not | and | or | select
  | map | filter | property | identity
  deriving DecidableEq, Repr

def Combinator.text : Combinator → String
  | .true => "(λx.λy.x)"
  | .false => "(λx.λy.y)"
  | .add => "(λm.λn.λf.λx.m f (n f x))"
  | .sub => "(λm.λn.λf.λx.n (λg.λh.h (g f)) (λu.x) (λu.u) m)"
  | .mul => "(λm.λn.λf.λx.m (n f) x)"
  | .div => "(λm.λn.n (λf.λx.m (λg.f (g x)) (λx.x)) (λf.λx.x))"
  | .eq => "(λm.λn.((m n) (λx.λy.y)) (λx.λy.x))"
  | .lt => "(λm.λn.(n (λx.λy.y)) ((m (λx.λy.x)) (λx.λy.y)))"
  | .le => "(λm.λn.(λp.λa.λb.p b a) ((λm.λn.(n (λx.λy.y)) ((m (λx.λy.x)) (λx.λy.y))) n m))"
  | .ge => "(λm.λn.(λp.λa.λb.p b a) ((λm.λn.(n (λx.λy.y)) ((m (λx.λy.x)) (λx.λy.y))) m n))"
  | .not => "(λp.λa.λb.p b a)"
  | .and => "(λp.λq.p q p)"
  | .or => "(λp.λq.p p q)"
  | .select => "(λp.λa.λb.p a b)"
  | .map => "(λarr.λf.arr f)"
  | .filter => "(λarr.λpred.arr (λx.pred x))"
  | .property => "(λobj.λprop.obj prop)"
  | .identity => "(λx.x)"

/-- `f(f(…f(x)…))` with `n` times `f`. -/
def iterateText : Nat → String
  | 0 => "x"
  | n + 1 => "f(" ++ iterateText n ++ ")"

def numeralText (n : Nat) : String :=
  "(λf.λx." ++ iterateText n ++ ")"

/-- The text of a numeral, which only the numbers up to the largest numeral have. -/
def numeralText? (n : Nat) : Option String :=
  if n ≤ Term.maxNumeral then some (numeralText n) else none

/-- An application with its arguments, in parentheses. -/
def applyText (head : String) (arguments : List String) : String :=
  "(" ++ head ++ String.join (arguments.map (" " ++ ·)) ++ ")"

/-- The binders of a function of several parameters. -/
def bindersText (params : List String) : String :=
  String.join (params.map fun x => "λ" ++ x ++ ".")

end ChurchScript.Church
