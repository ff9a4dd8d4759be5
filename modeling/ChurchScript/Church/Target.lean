import ChurchScript.Church.Combinator
import ChurchScript.Church.Scope

/-!
# Targets

What compiled code is made of. The compiler puts its results together by the
operations of a target alone, so that the same translation gives lambda text,
lambda terms, or terms that keep track of their binders.
-/
namespace ChurchScript.Church

structure Target (α : Type) where
  /-- A name that nothing in a script stands for. -/
  name : String → α
  combinator : Combinator → α
  numeral : Nat → α
  apply : α → List α → α
  function : List String → α → α
  /-- The scope inside a function with the given parameters. -/
  enter : List String → Scope α → Scope α

namespace Target

variable {α : Type} (target : Target α)

/-- The numeral of zero, which also stands for values without an encoding. -/
def zero : α := target.numeral 0

/-- A combinator with its arguments. -/
def use (c : Combinator) (arguments : List α) : α :=
  target.apply (target.combinator c) arguments

end Target
end ChurchScript.Church
