import Mathlib.Logic.Function.Iterate
import ChurchScript.Proofs.Term.Confluence

/-!
# Replacing all variables at once

A substitution gives a term for every variable that leads outside. A function of several
parameters, applied to as many arguments, reduces to its body with the arguments replaced
at once (`lams_apps_instantiate`). Terms with a common reduct are told apart by no
abstraction or application around them, and have the same normal form if any.
-/
namespace ChurchScript.Skeleton

/-- A substitution under one more abstraction. -/
def lift (σ : Nat → Skeleton) : Nat → Skeleton
  | 0 => bound 0
  | index + 1 => (σ index).shift 0

/-- A substitution with a term for one more abstraction, which is taken away. -/
def push (σ : Nat → Skeleton) (a : Skeleton) : Nat → Skeleton
  | 0 => a
  | index + 1 => σ index

def instantiate : Skeleton → (Nat → Skeleton) → Skeleton
  | free x, _ => free x
  | bound index, σ => σ index
  | abs body, σ => abs (body.instantiate (lift σ))
  | app f a, σ => app (f.instantiate σ) (a.instantiate σ)

section Instantiation

variable {σ τ : Nat → Skeleton}

theorem shift_instantiate (s : Skeleton) (σ : Nat → Skeleton) (cutoff : Nat) :
    (s.instantiate σ).shift cutoff = s.instantiate fun index => (σ index).shift cutoff := by
  induction s generalizing σ cutoff with
  | free x => rfl
  | bound index => rfl
  | abs body ih =>
    have lifted : (fun index => (lift σ index).shift (cutoff + 1)) =
        lift fun index => (σ index).shift cutoff := by
      funext index
      cases index with
      | zero => rfl
      | succ index => exact (shift_shift _ (Nat.zero_le cutoff)).symm
    simp only [instantiate, shift, ih, lifted]
  | app f a ihf iha => simp only [instantiate, shift, ihf, iha]

theorem instantiate_shift (s : Skeleton) (σ : Nat → Skeleton) (cutoff : Nat) :
    (s.shift cutoff).instantiate σ =
      s.instantiate fun index => σ (if index < cutoff then index else index + 1) := by
  induction s generalizing σ cutoff with
  | free x => rfl
  | bound index => rfl
  | abs body ih =>
    have lifted : (fun index => lift σ (if index < cutoff + 1 then index else index + 1)) =
        lift fun index => σ (if index < cutoff then index else index + 1) := by
      funext index
      cases index with
      | zero => rfl
      | succ index =>
        by_cases inside : index < cutoff
        · simp [lift, inside]
        · simp [lift, inside]
    simp only [instantiate, shift, ih, lifted]
  | app f a ihf iha => simp only [instantiate, shift, ihf, iha]

theorem subst_instantiate (s : Skeleton) (σ : Nat → Skeleton) (depth : Nat) (a : Skeleton) :
    (s.instantiate σ).subst depth a = s.instantiate fun index => (σ index).subst depth a := by
  induction s generalizing σ depth a with
  | free x => rfl
  | bound index => rfl
  | abs body ih =>
    have lifted : (fun index => (lift σ index).subst (depth + 1) (a.shift 0)) =
        lift fun index => (σ index).subst depth a := by
      funext index
      cases index with
      | zero => rfl
      | succ index => exact (subst_shift_inside _ _ (Nat.zero_le depth)).symm
    simp only [instantiate, subst, ih, lifted]
  | app f b ihf ihb => simp only [instantiate, subst, ihf, ihb]

/-- An outer term under an abstraction that a substitution keeps. -/
theorem instantiate_shift_lift (s : Skeleton) (σ : Nat → Skeleton) :
    (s.shift 0).instantiate (lift σ) = (s.instantiate σ).shift 0 := by
  rw [instantiate_shift, shift_instantiate]
  rfl

/-- An outer term under an abstraction that a substitution takes away. -/
theorem instantiate_shift_push (s : Skeleton) (σ : Nat → Skeleton) (a : Skeleton) :
    (s.shift 0).instantiate (push σ a) = s.instantiate σ :=
  instantiate_shift s (push σ a) 0

/-- Replacing the variable of an abstraction after all others. -/
theorem subst_instantiate_lift (s : Skeleton) (σ : Nat → Skeleton) (a : Skeleton) :
    (s.instantiate (lift σ)).subst 0 a = s.instantiate (push σ a) := by
  have pushed : (fun index => (lift σ index).subst 0 a) = push σ a := by
    funext index
    cases index with
    | zero => rfl
    | succ index => exact subst_shift (σ index) a 0
  rw [subst_instantiate, pushed]

theorem ClosedAt.instantiate_congr {s : Skeleton} {depth : Nat} (closed : s.ClosedAt depth)
    (same : ∀ index < depth, σ index = τ index) : s.instantiate σ = s.instantiate τ := by
  induction s generalizing depth σ τ with
  | free x => rfl
  | bound index => exact same index closed
  | abs body ih =>
    refine congrArg abs (ih closed fun index inside => ?_)
    cases index with
    | zero => rfl
    | succ index => exact congrArg (Skeleton.shift 0) (same index (Nat.lt_of_succ_lt_succ inside))
  | app f a ihf iha => exact congrArg₂ app (ihf closed.1 same) (iha closed.2 same)

theorem instantiate_bound (s : Skeleton) : s.instantiate bound = s := by
  induction s with
  | free x => rfl
  | bound index => rfl
  | abs body ih =>
    have lifted : lift bound = bound := by
      funext index
      cases index with
      | zero => rfl
      | succ index => rfl
    rw [instantiate, lifted, ih]
  | app f a ihf iha => rw [instantiate, ihf, iha]

theorem instantiate_of_closed {s : Skeleton} (closed : s.Closed) (σ : Nat → Skeleton) :
    s.instantiate σ = s :=
  (closed.instantiate_congr fun _ inside => absurd inside (Nat.not_lt_zero _)).trans
    (instantiate_bound s)

theorem ClosedAt.mono {s : Skeleton} {depth more : Nat} (closed : s.ClosedAt depth)
    (deeper : depth ≤ more) : s.ClosedAt more := by
  induction s generalizing depth more with
  | free x => trivial
  | bound index => exact Nat.lt_of_lt_of_le closed deeper
  | abs body ih => exact ih closed (Nat.succ_le_succ deeper)
  | app f a ihf iha => exact ⟨ihf closed.1 deeper, iha closed.2 deeper⟩

theorem ClosedAt.shifted {s : Skeleton} {depth : Nat} (closed : s.ClosedAt depth) (cutoff : Nat) :
    (s.shift cutoff).ClosedAt (depth + 1) := by
  induction s generalizing depth cutoff with
  | free x => trivial
  | bound index =>
    have below : index < depth := closed
    simp only [Skeleton.shift, ClosedAt]
    split <;> omega
  | abs body ih => exact ih closed (cutoff + 1)
  | app f a ihf iha => exact ⟨ihf closed.1 cutoff, iha closed.2 cutoff⟩

theorem closedAt_apps {f : Skeleton} {arguments : List Skeleton} {depth : Nat}
    (function : f.ClosedAt depth) (others : ∀ a ∈ arguments, a.ClosedAt depth) :
    (f.apps arguments).ClosedAt depth := by
  induction arguments generalizing f with
  | nil => exact function
  | cons a rest ih =>
    exact ih ⟨function, others a (by simp)⟩ fun b member => others b (by simp [member])

theorem closed_lams {n : Nat} {body : Skeleton} {depth : Nat} (closed : body.ClosedAt (n + depth)) :
    (lams n body).ClosedAt depth := by
  induction n generalizing depth with
  | zero =>
    rw [Nat.zero_add] at closed
    exact closed
  | succ n ih =>
    rw [Nat.add_right_comm, Nat.add_assoc] at closed
    exact ih closed

theorem instantiate_apps (f : Skeleton) (arguments : List Skeleton) (σ : Nat → Skeleton) :
    (f.apps arguments).instantiate σ =
      (f.instantiate σ).apps (arguments.map fun a => a.instantiate σ) := by
  induction arguments generalizing f with
  | nil => rfl
  | cons a rest ih => exact ih (.app f a)

/-- A function of several parameters applied to as many arguments, the first argument for
the outermost abstraction. -/
theorem lams_apps_instantiate (arguments : List Skeleton) (body : Skeleton)
    (σ : Nat → Skeleton) :
    Reduces (((lams arguments.length body).instantiate σ).apps arguments)
      (body.instantiate (arguments.foldl push σ)) := by
  induction arguments generalizing σ with
  | nil => exact .refl
  | cons a rest ih =>
    have first : Reduces (app (abs ((lams rest.length body).instantiate (lift σ))) a)
        ((lams rest.length body).instantiate (push σ a)) :=
      Reduces.beta (subst_instantiate_lift _ σ a)
    exact (first.apps rest).trans (ih (push σ a))

end Instantiation

/-- Two terms with a common reduct. -/
def Joins (s t : Skeleton) : Prop :=
  ∃ common, Reduces s common ∧ Reduces t common

namespace Joins

variable {s s' t t' u : Skeleton}

theorem refl (s : Skeleton) : Joins s s := ⟨s, .refl, .refl⟩

theorem of_reduces (reduces : Reduces s t) (joins : Joins t u) : Joins s u := by
  obtain ⟨common, left, right⟩ := joins
  exact ⟨common, reduces.trans left, right⟩

theorem app (functions : Joins s s') (arguments : Joins t t') :
    Joins (.app s t) (.app s' t') := by
  obtain ⟨f, left, right⟩ := functions
  obtain ⟨a, left', right'⟩ := arguments
  exact ⟨.app f a, left.app left', right.app right'⟩

theorem abs (bodies : Joins s s') : Joins (.abs s) (.abs s') := by
  obtain ⟨b, left, right⟩ := bodies
  exact ⟨.abs b, left.abs, right.abs⟩

theorem shift (joins : Joins s s') (cutoff : Nat) : Joins (s.shift cutoff) (s'.shift cutoff) := by
  obtain ⟨common, left, right⟩ := joins
  have shifted {t u : Skeleton} (reduces : Reduces t u) :
      Reduces (t.shift cutoff) (u.shift cutoff) := by
    rw [reduces_iff_parallel] at reduces ⊢
    exact reduces.lift (Skeleton.shift cutoff) fun _ _ parallel => parallel.shift cutoff
  exact ⟨common.shift cutoff, shifted left, shifted right⟩

/-- Terms with a common reduct have the same normal form. -/
theorem normal_eq {n n' : Skeleton} (joins : Joins s t) (left : Reduces s n) (right : Reduces t n')
    (normal : n.Normal) (normal' : n'.Normal) : n = n' := by
  obtain ⟨common, toCommon, toCommon'⟩ := joins
  obtain ⟨m, fromNormal, fromCommon⟩ := left.join toCommon
  rw [normal.eq_of_reduces fromNormal] at fromCommon
  exact normal.unique normal' (toCommon'.trans fromCommon) right

end Joins

end ChurchScript.Skeleton
