import ChurchScript.Proofs.Church.Application
import ChurchScript.Proofs.Term.Confluence

/-!
# What the other operators reduce to

The encodings of sums and products compute. This module says what those of the other
binary operators reduce to on numerals. All of the results are without redexes, so
they are what the operators come out as, however they are reduced: a difference is no
numeral, a quotient is always zero, and an equation or a comparison is a truth value
only if one of the numerals is zero.
-/
namespace ChurchScript

namespace Skeleton

def identity : Skeleton := abs (bound 0)

/-- Takes two arguments and applies the second to the first. -/
def flipped : Skeleton := lams 2 (app (bound 0) (bound 1))

/-- Takes arguments that it has no use for, and gives the encoding of falsity. -/
def dropping (count : Nat) : Skeleton := lams count (boolean false)

theorem iterate_shift (f x : Skeleton) (n cutoff : Nat) :
    (iterate f x n).shift cutoff = iterate (f.shift cutoff) (x.shift cutoff) n := by
  induction n with
  | zero => rfl
  | succ n ih => exact congrArg (app (f.shift cutoff)) ih

theorem dropping_closedAt (count depth : Nat) : (dropping count).ClosedAt depth := by
  induction count generalizing depth with
  | zero => exact Nat.succ_pos (depth + 1)
  | succ count ih => exact ih (depth + 1)

theorem falsity_reduces (s : Skeleton) : Reduces (app (boolean false) s) identity :=
  Reduces.beta rfl

theorem truth_reduces {s : Skeleton} (closed : s.Closed) :
    Reduces (app (boolean true) s) (abs s) := by
  apply Reduces.beta
  simp [lams, subst, closed]

theorem identity_reduces (s : Skeleton) : Reduces (app identity s) s :=
  Reduces.beta rfl

/-- A function that drops one argument more. -/
theorem dropping_reduces (count : Nat) (s : Skeleton) :
    Reduces (app (dropping (count + 1)) s) (dropping count) :=
  Reduces.beta (subst_of_closed (dropping_closedAt count 0) 0 s)

section Normal

theorem iterate_normal {f x : Skeleton} (head : f.isAbs = false) (function : f.Normal)
    (start : x.Normal) (n : Nat) : (iterate f x n).Normal := by
  induction n with
  | zero => exact start
  | succ n ih => exact ⟨head, function, ih⟩

theorem numeral_normal (n : Nat) : (numeral n).Normal :=
  iterate_normal (f := bound 1) (x := bound 0) rfl trivial trivial n

theorem boolean_normal (b : Bool) : (boolean b).Normal := trivial

theorem flipped_normal : flipped.Normal := ⟨rfl, trivial, trivial⟩

theorem dropping_normal (count : Nat) : (dropping count).Normal := by
  induction count with
  | zero => trivial
  | succ count ih => exact ih

end Normal

section Predecessor

/-- The step of the predecessor, below a function and what it is applied to. -/
def predecessorStep : Skeleton := lams 2 (app (bound 0) (app (bound 1) (bound 3)))

theorem predecessorStep_reduces (s : Skeleton) :
    Reduces (app predecessorStep s) (abs (app (bound 0) (app (s.shift 0) (bound 2)))) :=
  Reduces.beta rfl

/-- After the first step, which only takes the start off, every step applies the function
once. -/
theorem iterate_predecessorStep_reduces (n : Nat) :
    Reduces (iterate predecessorStep (abs (bound 1)) (n + 1))
      (abs (app (bound 0) (iterate (bound 2) (bound 1) n))) := by
  induction n with
  | zero =>
    have start : Reduces (app ((abs (bound 1)).shift 0) (bound 2)) (bound 1) := Reduces.beta rfl
    exact (predecessorStep_reduces _).trans (Reduces.app .refl start).abs
  | succ n ih =>
    have next : Reduces
        (app ((abs (app (bound 0) (iterate (bound 2) (bound 1) n))).shift 0) (bound 2))
        (iterate (bound 2) (bound 1) (n + 1)) := by
      apply Reduces.beta
      simp [shift, subst, iterate_shift, iterate_subst, iterate]
    exact ((Reduces.app .refl ih).trans (predecessorStep_reduces _)).trans
      (Reduces.app .refl next).abs

theorem predecessor_reduces (n : Nat) :
    Reduces (app (iterate predecessorStep (abs (bound 1)) n) identity)
      (iterate (bound 1) (bound 0) (n - 1)) := by
  cases n with
  | zero => exact Reduces.beta rfl
  | succ n =>
    have passed : Reduces (app (abs (app (bound 0) (iterate (bound 2) (bound 1) n))) identity)
        (app identity (iterate (bound 1) (bound 0) n)) := by
      apply Reduces.beta
      simp [subst, iterate_subst]
    exact (((iterate_predecessorStep_reduces n).app .refl).trans passed).trans
      (identity_reduces _)

end Predecessor

end Skeleton

namespace Church

open Skeleton

section Combinators

theorem sub_skeleton : Combinator.sub.skeleton = lams 2 (lams 2
    (app (app (app (app (bound 2) predecessorStep) (abs (bound 1))) identity) (bound 3))) := by
  decide

theorem div_skeleton : Combinator.div.skeleton = lams 2 (app (app (bound 0)
    (lams 2 (app (app (bound 3) (abs (app (bound 2) (app (bound 0) (bound 1))))) identity)))
    (numeral 0)) := by decide

theorem eq_skeleton : Combinator.eq.skeleton = lams 2
    (app (app (app (bound 1) (bound 0)) (boolean false)) (boolean true)) := by decide

theorem lt_skeleton : Combinator.lt.skeleton = lams 2
    (app (app (bound 0) (boolean false)) (app (app (bound 1) (boolean true)) (boolean false))) := by
  decide

theorem le_skeleton : Combinator.le.skeleton = lams 2 (app Combinator.not.skeleton
    (app (app Combinator.lt.skeleton (bound 0)) (bound 1))) := by decide

theorem ge_skeleton : Combinator.ge.skeleton = lams 2 (app Combinator.not.skeleton
    (app (app Combinator.lt.skeleton (bound 1)) (bound 0))) := by decide

theorem skeleton_closed (c : Combinator) : c.skeleton.Closed := c.term.nameless_closedAt []

/-- A combinator of two parameters with two numerals in place of them. -/
theorem pair_reduces (m n : Nat) (body : Skeleton) :
    Reduces ((lams 2 body).apps [numeral m, numeral n])
      ((body.subst 1 (numeral m)).subst 0 (numeral n)) :=
  lams_apps_reduces [numeral m, numeral n] (by simp [numeral_closed]) body

end Combinators

/-- The predecessor of the second numeral is applied to the first, so no numeral
comes out. -/
theorem sub_reduces (m n : Nat) : Reduces (Combinator.sub.skeleton.apps [numeral m, numeral n])
    (lams 2 (app (iterate (bound 1) (bound 0) (n - 1)) (numeral m))) := by
  rw [sub_skeleton]
  refine (pair_reduces m n _).trans ?_
  have filled : ((lams 2 (app (app (app (app (bound 2) predecessorStep) (abs (bound 1))) identity)
      (bound 3))).subst 1 (numeral m)).subst 0 (numeral n) =
      lams 2 (app (app (app (app (numeral n) predecessorStep) (abs (bound 1))) identity)
        (numeral m)) := by
    simp [lams, subst, predecessorStep, identity, numeral_closed]
  rw [filled]
  refine Reduces.abs (Reduces.abs (Reduces.app ?_ .refl))
  exact ((numeral_apps_reduces n _ _).app .refl).trans (predecessor_reduces n)

/-- What a quotient iterates, with the dividend in place. -/
def quotientStep (m : Nat) : Skeleton :=
  lams 2 (app (app (numeral m) (abs (app (bound 2) (app (bound 0) (bound 1))))) identity)

theorem quotientStep_zero_reduces (m : Nat) :
    Reduces (app (quotientStep m) (numeral 0)) (numeral 0) := by
  have entered : Reduces (app (quotientStep m) (numeral 0))
      (abs (app (app (numeral m) (abs (app (numeral 0) (app (bound 0) (bound 1))))) identity)) := by
    apply Reduces.beta
    simp [lams, subst, identity, numeral_closed]
  have constant (s : Skeleton) :
      Reduces (app (abs (app (numeral 0) (app (bound 0) (bound 1)))) s) identity :=
    (Reduces.beta rfl).trans (Reduces.beta rfl)
  have iterated : Reduces
      (iterate (abs (app (numeral 0) (app (bound 0) (bound 1)))) identity m) identity := by
    cases m with
    | zero => exact .refl
    | succ m => exact constant _
  exact entered.trans (Reduces.abs ((numeral_apps_reduces m _ _).trans iterated))

theorem iterate_quotientStep_reduces (m n : Nat) :
    Reduces (iterate (quotientStep m) (numeral 0) n) (numeral 0) := by
  induction n with
  | zero => exact .refl
  | succ n ih => exact (Reduces.app .refl ih).trans (quotientStep_zero_reduces m)

/-- The dividend is never counted down from: every quotient is zero. -/
theorem div_reduces (m n : Nat) :
    Reduces (Combinator.div.skeleton.apps [numeral m, numeral n]) (numeral 0) := by
  rw [div_skeleton]
  refine (pair_reduces m n _).trans ?_
  have filled : ((app (app (bound 0)
      (lams 2 (app (app (bound 3) (abs (app (bound 2) (app (bound 0) (bound 1))))) identity)))
      (numeral 0)).subst 1 (numeral m)).subst 0 (numeral n) =
      app (app (numeral n) (quotientStep m)) (numeral 0) := by
    simp [lams, subst, quotientStep, identity, numeral_closed]
  rw [filled]
  exact (numeral_apps_reduces n _ _).trans (iterate_quotientStep_reduces m n)

/-- A numeral that is not zero, iterated on falsity, drops its argument. -/
theorem iterate_numeral_falsity_reduces (n k : Nat) (s : Skeleton) :
    Reduces (app (iterate (numeral (n + 1)) (boolean false) k) s) identity := by
  induction k generalizing s with
  | zero => exact falsity_reduces s
  | succ k ih => exact (numeral_apps_reduces (n + 1) _ s).trans (ih _)

/-- What an equation reduces to. -/
def equalOutcome (m n : Nat) : Skeleton :=
  if 0 < m ∧ n = 0 then boolean true else identity

theorem eq_reduces (m n : Nat) :
    Reduces (Combinator.eq.skeleton.apps [numeral m, numeral n]) (equalOutcome m n) := by
  rw [eq_skeleton]
  refine (pair_reduces m n _).trans ?_
  have filled : ((app (app (app (bound 1) (bound 0)) (boolean false)) (boolean true)).subst 1
      (numeral m)).subst 0 (numeral n) =
      app (app (app (numeral m) (numeral n)) (boolean false)) (boolean true) := by
    simp [subst, numeral_closed, boolean_closed]
  rw [filled]
  refine ((numeral_apps_reduces m _ _).app .refl).trans ?_
  cases m with
  | zero => exact falsity_reduces _
  | succ m =>
    cases n with
    | zero => exact numeral_apps_reduces 0 _ _
    | succ n => exact iterate_numeral_falsity_reduces n (m + 1) _

/-- What a comparison reduces to. -/
def lessOutcome (m n : Nat) : Skeleton :=
  if n = 0 then dropping m else identity

theorem iterate_truth_reduces (m : Nat) :
    Reduces (iterate (boolean true) (boolean false) m) (dropping m) := by
  induction m with
  | zero => exact .refl
  | succ m ih => exact (Reduces.app .refl ih).trans (truth_reduces (dropping_closedAt m 0))

theorem lt_reduces (m n : Nat) :
    Reduces (Combinator.lt.skeleton.apps [numeral m, numeral n]) (lessOutcome m n) := by
  rw [lt_skeleton]
  refine (pair_reduces m n _).trans ?_
  have filled : ((app (app (bound 0) (boolean false))
      (app (app (bound 1) (boolean true)) (boolean false))).subst 1 (numeral m)).subst 0
      (numeral n) = app (app (numeral n) (boolean false))
        (app (app (numeral m) (boolean true)) (boolean false)) := by
    simp [subst, numeral_closed, boolean_closed]
  rw [filled]
  refine (numeral_apps_reduces n _ _).trans ?_
  cases n with
  | succ n => exact falsity_reduces _
  | zero =>
    exact (numeral_apps_reduces m _ _).trans (iterate_truth_reduces m)

theorem not_apps_reduces {s : Skeleton} (closed : s.Closed) :
    Reduces (Combinator.not.skeleton.apps [s]) (lams 2 (app (app s (bound 0)) (bound 1))) := by
  rw [not_skeleton]
  refine (lams_apps_reduces [s] (by simp [closed]) _).trans ?_
  simp [fill, lams, subst, closed, Relation.ReflTransGen.refl]

theorem not_identity_reduces : Reduces (Combinator.not.skeleton.apps [identity]) flipped := by
  have closed : identity.Closed := Nat.one_pos
  exact (not_apps_reduces closed).trans ((identity_reduces _).app .refl).abs.abs

/-- What the negation of a comparison reduces to. -/
def notLessOutcome (m n : Nat) : Skeleton :=
  if n = 0 then if m = 0 then boolean true else dropping m else flipped

theorem not_dropping_reduces (count : Nat) :
    Reduces (Combinator.not.skeleton.apps [dropping (count + 1)]) (dropping (count + 1)) := by
  have dropped : Reduces (app (app (dropping (count + 1)) (bound 0)) (bound 1))
      (app (dropping count) (bound 1)) := (dropping_reduces count _).app .refl
  refine (not_apps_reduces (dropping_closedAt (count + 1) 0)).trans ?_
  cases count with
  | zero => exact Reduces.abs (Reduces.abs (dropped.trans (falsity_reduces _)))
  | succ count => exact Reduces.abs (Reduces.abs (dropped.trans (dropping_reduces count _)))

theorem not_less_reduces (m n : Nat) :
    Reduces (Combinator.not.skeleton.apps [lessOutcome m n]) (notLessOutcome m n) := by
  cases n with
  | succ n => exact not_identity_reduces
  | zero =>
    cases m with
    | zero => exact not_reduces false
    | succ m => exact not_dropping_reduces m

theorem not_lt_reduces (m n : Nat) :
    Reduces (app Combinator.not.skeleton (Combinator.lt.skeleton.apps [numeral m, numeral n]))
      (notLessOutcome m n) :=
  (Reduces.app .refl (lt_reduces m n)).trans (not_less_reduces m n)

theorem le_reduces (m n : Nat) :
    Reduces (Combinator.le.skeleton.apps [numeral m, numeral n]) (notLessOutcome n m) := by
  rw [le_skeleton]
  refine (pair_reduces m n _).trans ?_
  have filled : ((app Combinator.not.skeleton (app (app Combinator.lt.skeleton (bound 0))
      (bound 1))).subst 1 (numeral m)).subst 0 (numeral n) =
      app Combinator.not.skeleton (Combinator.lt.skeleton.apps [numeral n, numeral m]) := by
    simp [subst, numeral_closed, skeleton_closed, apps]
  rw [filled]
  exact not_lt_reduces n m

theorem ge_reduces (m n : Nat) :
    Reduces (Combinator.ge.skeleton.apps [numeral m, numeral n]) (notLessOutcome m n) := by
  rw [ge_skeleton]
  refine (pair_reduces m n _).trans ?_
  have filled : ((app Combinator.not.skeleton (app (app Combinator.lt.skeleton (bound 1))
      (bound 0))).subst 1 (numeral m)).subst 0 (numeral n) =
      app Combinator.not.skeleton (Combinator.lt.skeleton.apps [numeral m, numeral n]) := by
    simp [subst, numeral_closed, skeleton_closed, apps]
  rw [filled]
  exact not_lt_reduces m n

end Church
end ChurchScript
