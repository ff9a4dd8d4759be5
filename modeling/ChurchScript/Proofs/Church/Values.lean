import ChurchScript.Proofs.Church.Arithmetic
import ChurchScript.Proofs.Church.Scopes
import ChurchScript.Proofs.Script.FirstOrder

/-!
# Values of compiled terms

Numbers and truth values of a script in Church's encoding, and compiled terms that
reduce to them. Compiled terms have the parameters of the entry point as free
names; an `Interpretation` says what is put in their place.
-/
namespace ChurchScript

open Script

namespace Script.Value

/-- Church's encoding of a value. -/
def term : Value → Term
  | number n => Term.numeral n
  | boolean true => Church.Combinator.true.term
  | boolean false => Church.Combinator.false.term

def skeleton : Value → Skeleton
  | number n => .numeral n
  | boolean b => .boolean b

theorem numeral_nameless (n : Nat) : (Term.numeral n).nameless [] = .numeral n := by
  have inner : (Term.iterate (Term.name "f") (Term.name "x") n).nameless ["x", "f"] =
      Skeleton.iterate (.bound 1) (.bound 0) n := by
    induction n with
    | zero => rfl
    | succ n ih => exact congrArg (Skeleton.app (.bound 1)) ih
  exact congrArg (Skeleton.lams 2) inner

theorem term_nameless (v : Value) : v.term.nameless [] = v.skeleton := by
  cases v with
  | number n => exact numeral_nameless n
  | boolean b => cases b <;> rfl

theorem skeleton_closed (v : Value) : v.skeleton.Closed := by
  cases v with
  | number n => exact Skeleton.numeral_closed n
  | boolean b => exact Skeleton.boolean_closed b

end Script.Value

namespace Church

open Skeleton (Reduces)

/-- A reading of compiled terms that keeps applications and closed terms as they are. -/
structure Interpretation where
  denote : Term → Skeleton
  apps (f : Term) (arguments : List Term) :
    denote (f.apps arguments) = (denote f).apps (arguments.map denote)
  combinator (c : Combinator) : denote c.term = c.skeleton
  numeral (n : Nat) : denote (Term.numeral n) = .numeral n

namespace Interpretation

variable (I : Interpretation)

/-- A compiled term that reduces to a value. -/
def Means (t : Term) (v : Value) : Prop := Reduces (I.denote t) v.skeleton

/-- A compiled term that reduces to the only value that a computation gives, which has
the expected type. -/
def Computes (computation : Value → Prop) (ty : Ty) (t : Term) : Prop :=
  ∃ v, v.ty = ty ∧ I.Means t v ∧ computation v ∧ ∀ other, computation other → other = v

/-- Local names with their types, their values and the terms they stand for. -/
structure Locals (types : Scope Ty) (values : Scope Value) (code : Scope Term) : Prop where
  types : values.Related (fun v ty => v.ty = ty) types
  code : code.Related I.Means values

variable {I}

theorem Locals.bind {types : Scope Ty} {values : Scope Value} {code : Scope Term}
    (locals : I.Locals types values code) (x : String) {ty : Ty} {v : Value} {t : Term}
    (typed : v.ty = ty) (means : I.Means t v) :
    I.Locals (types.bind x ty) (values.bind x v) (code.bind x t) :=
  ⟨locals.types.bind x typed, locals.code.bind x means⟩

theorem denote_use (c : Combinator) (terms : List Term) :
    I.denote (termTarget.use c terms) = c.skeleton.apps (terms.map I.denote) := by
  rw [← I.combinator]
  exact I.apps c.term terms

theorem use_means (c : Combinator) {terms : List Term} {values : List Value}
    (means : List.Forall₂ I.Means terms values) {result : Skeleton}
    (reduces : Reduces (c.skeleton.apps (values.map Value.skeleton)) result) :
    Reduces (I.denote (termTarget.use c terms)) result := by
  have arguments : List.Forall₂ Reduces (terms.map I.denote) (values.map Value.skeleton) :=
    List.forall₂_map_left_iff.mpr (List.forall₂_map_right_iff.mpr means)
  rw [denote_use]
  exact (Reduces.apps_arguments _ arguments).trans reduces

end Interpretation

end Church
end ChurchScript
