import ChurchScript.Proofs.Church.TermTarget
import ChurchScript.Proofs.Term.Reduction

/-!
# Church arithmetic

What the combinators for numbers and truth values reduce to. The numeral of `n`
applies its first argument `n` times to its second, whatever they are, and that is
all that sums and products need.
-/
namespace ChurchScript

namespace Skeleton

def iterate (f x : Skeleton) : Nat → Skeleton
  | 0 => x
  | n + 1 => app f (iterate f x n)

def numeral (n : Nat) : Skeleton :=
  lams 2 (iterate (bound 1) (bound 0) n)

def boolean (b : Bool) : Skeleton :=
  lams 2 (bound (if b then 1 else 0))

theorem iterate_subst (f x : Skeleton) (n depth : Nat) (a : Skeleton) :
    (iterate f x n).subst depth a = iterate (f.subst depth a) (x.subst depth a) n := by
  induction n with
  | zero => rfl
  | succ n ih => exact congrArg (app (f.subst depth a)) ih

theorem iterate_iterate (f x : Skeleton) (m n : Nat) :
    iterate f (iterate f x n) m = iterate f x (m + n) := by
  induction m with
  | zero => rw [Nat.zero_add]; rfl
  | succ m ih => rw [Nat.succ_add]; exact congrArg (app f) ih

theorem iterate_closedAt {f x : Skeleton} {depth : Nat} (function : f.ClosedAt depth)
    (start : x.ClosedAt depth) (n : Nat) : (iterate f x n).ClosedAt depth := by
  induction n with
  | zero => exact start
  | succ n ih => exact ⟨function, ih⟩

theorem numeral_closed (n : Nat) : (numeral n).Closed :=
  iterate_closedAt (f := bound 1) (x := bound 0) Nat.one_lt_two Nat.two_pos n

theorem boolean_closed (b : Bool) : (boolean b).Closed := by
  cases b
  · exact Nat.two_pos
  · exact Nat.one_lt_two

/-- A numeral applies its first argument to its second. -/
theorem numeral_apps_reduces (n : Nat) (f x : Skeleton) :
    Reduces (app (app (numeral n) f) x) (iterate f x n) := by
  have first : Reduces (app (numeral n) f) (abs (iterate (f.shift 0) (bound 0) n)) := by
    apply Reduces.beta
    rw [lams, subst, lams, iterate_subst]
    rfl
  have second : Reduces (app (abs (iterate (f.shift 0) (bound 0) n)) x) (iterate f x n) := by
    apply Reduces.beta
    rw [iterate_subst, subst_shift]
    rfl
  exact (first.app .refl).trans second

/-- A truth value takes its first argument or its second. -/
theorem boolean_apps_reduces (b : Bool) (yes no : Skeleton) :
    Reduces (app (app (boolean b) yes) no) (if b then yes else no) := by
  cases b with
  | false => exact (Reduces.app (Reduces.beta rfl) .refl).trans (Reduces.beta rfl)
  | true => exact (Reduces.app (Reduces.beta rfl) .refl).trans (Reduces.beta (subst_shift yes no 0))

theorem Reduces.apps_arguments {arguments arguments' : List Skeleton} (f : Skeleton)
    (each : List.Forall₂ Reduces arguments arguments') :
    Reduces (f.apps arguments) (f.apps arguments') := by
  induction each generalizing f with
  | nil => exact .refl
  | @cons a b as bs first _ ih =>
    have head : Reduces (Skeleton.app f a) (Skeleton.app f b) := Reduces.app .refl first
    exact (head.apps as).trans (ih _)

end Skeleton

namespace Church

open Skeleton

def Combinator.skeleton (c : Combinator) : Skeleton := c.term.nameless []

theorem add_skeleton : Combinator.add.skeleton = lams 2 (lams 2
    (app (app (bound 3) (bound 1)) (app (app (bound 2) (bound 1)) (bound 0)))) := by decide

theorem mul_skeleton : Combinator.mul.skeleton = lams 2 (lams 2
    (app (app (bound 3) (app (bound 2) (bound 1))) (bound 0))) := by decide

theorem not_skeleton : Combinator.not.skeleton = lams 1 (lams 2
    (app (app (bound 2) (bound 0)) (bound 1))) := by decide

theorem and_skeleton : Combinator.and.skeleton = lams 2
    (app (app (bound 1) (bound 0)) (bound 1)) := by decide

theorem or_skeleton : Combinator.or.skeleton = lams 2
    (app (app (bound 1) (bound 1)) (bound 0)) := by decide

theorem select_skeleton : Combinator.select.skeleton = lams 3
    (app (app (bound 2) (bound 1)) (bound 0)) := by decide

theorem add_reduces (m n : Nat) :
    Reduces (Combinator.add.skeleton.apps [numeral m, numeral n]) (numeral (m + n)) := by
  have closed : ∀ a ∈ [numeral m, numeral n], a.Closed := by simp [numeral_closed]
  rw [add_skeleton]
  refine (lams_apps_reduces _ closed _).trans ?_
  have filled : fill [numeral m, numeral n] (lams 2
      (app (app (bound 3) (bound 1)) (app (app (bound 2) (bound 1)) (bound 0)))) =
      lams 2 (app (app (numeral m) (bound 1)) (app (app (numeral n) (bound 1)) (bound 0))) := by
    simp [fill, lams, subst, numeral_closed]
  rw [filled]
  refine Reduces.abs (Reduces.abs ?_)
  have right := numeral_apps_reduces n (bound 1) (bound 0)
  have left := numeral_apps_reduces m (bound 1) (iterate (bound 1) (bound 0) n)
  rw [iterate_iterate] at left
  exact (Reduces.app .refl right).trans left

/-- A numeral applied to a function alone, iterated. -/
theorem iterate_numeral_reduces (m n : Nat) (f x : Skeleton) :
    Reduces (iterate (app (numeral n) f) x m) (iterate f x (m * n)) := by
  induction m with
  | zero => rw [Nat.zero_mul]; exact .refl
  | succ m ih =>
    have outer := numeral_apps_reduces n f (iterate f x (m * n))
    rw [iterate_iterate, Nat.add_comm, ← Nat.succ_mul] at outer
    exact (Reduces.app .refl ih).trans outer

theorem mul_reduces (m n : Nat) :
    Reduces (Combinator.mul.skeleton.apps [numeral m, numeral n]) (numeral (m * n)) := by
  have closed : ∀ a ∈ [numeral m, numeral n], a.Closed := by simp [numeral_closed]
  rw [mul_skeleton]
  refine (lams_apps_reduces _ closed _).trans ?_
  have filled : fill [numeral m, numeral n] (lams 2
      (app (app (bound 3) (app (bound 2) (bound 1))) (bound 0))) =
      lams 2 (app (app (numeral m) (app (numeral n) (bound 1))) (bound 0)) := by
    simp [fill, lams, subst, numeral_closed]
  rw [filled]
  refine Reduces.abs (Reduces.abs ?_)
  exact (numeral_apps_reduces m _ _).trans (iterate_numeral_reduces m n (bound 1) (bound 0))

theorem not_reduces (b : Bool) :
    Reduces (Combinator.not.skeleton.apps [boolean b]) (boolean !b) := by
  have closed : ∀ a ∈ [boolean b], a.Closed := by simp [boolean_closed]
  rw [not_skeleton]
  refine (lams_apps_reduces _ closed _).trans ?_
  have filled : fill [boolean b] (lams 2 (app (app (bound 2) (bound 0)) (bound 1))) =
      lams 2 (app (app (boolean b) (bound 0)) (bound 1)) := by
    simp [fill, lams, subst, boolean_closed]
  rw [filled]
  have chosen := (boolean_apps_reduces b (bound 0) (bound 1)).abs.abs
  cases b <;> exact chosen

theorem and_reduces (a b : Bool) :
    Reduces (Combinator.and.skeleton.apps [boolean a, boolean b]) (boolean (a && b)) := by
  have closed : ∀ c ∈ [boolean a, boolean b], c.Closed := by simp [boolean_closed]
  rw [and_skeleton]
  refine (lams_apps_reduces _ closed _).trans ?_
  have chosen := boolean_apps_reduces a (boolean b) (boolean a)
  cases a <;> simpa [fill, subst, boolean_closed] using chosen

theorem or_reduces (a b : Bool) :
    Reduces (Combinator.or.skeleton.apps [boolean a, boolean b]) (boolean (a || b)) := by
  have closed : ∀ c ∈ [boolean a, boolean b], c.Closed := by simp [boolean_closed]
  rw [or_skeleton]
  refine (lams_apps_reduces _ closed _).trans ?_
  have chosen := boolean_apps_reduces a (boolean a) (boolean b)
  cases a <;> simpa [fill, subst, boolean_closed] using chosen

theorem select_reduces (b : Bool) {yes no : Skeleton} (yesClosed : yes.Closed)
    (noClosed : no.Closed) :
    Reduces (Combinator.select.skeleton.apps [boolean b, yes, no]) (if b then yes else no) := by
  have closed : ∀ a ∈ [boolean b, yes, no], a.Closed := by
    simp [boolean_closed, yesClosed, noClosed]
  rw [select_skeleton]
  refine (lams_apps_reduces _ closed _).trans ?_
  simpa [fill, subst, boolean_closed, yesClosed, noClosed] using
    boolean_apps_reduces b yes no

end Church
end ChurchScript
