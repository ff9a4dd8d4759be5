import ChurchScript.Proofs.Church.Hygiene
import ChurchScript.Proofs.Term.Substitution

/-!
# Equivalence of hygienic code

Two runs of the compiler may put the same thing in different words: one run has a variable
where the other has the argument in its place, or an application where the other has the
body of the function. Their code is equivalent under a substitution for the variables of
the first, if the two terms that result have a common reduct.
-/
namespace ChurchScript

open Skeleton (Joins Reduces instantiate lift push)

namespace Church

namespace Hygienic

@[simp] theorem skeleton_shift (h : Hygienic) (cutoff : Nat) :
    (h.shift cutoff).skeleton = h.skeleton.shift cutoff := by
  induction h generalizing cutoff with
  | free x => rfl
  | bound x index => rfl
  | abs x body ih => simp [shift, skeleton, Skeleton.shift, ih]
  | app f a ihf iha => simp [shift, skeleton, Skeleton.shift, ihf, iha]

theorem skeleton_ofTerm (t : Term) (names : List String) :
    (ofTerm names t).skeleton = t.nameless names := by
  induction t generalizing names with
  | var x index binder =>
    unfold ofTerm Term.nameless
    split <;> rfl
  | abs x binder body ih => exact congrArg Skeleton.abs (ih (x :: names))
  | app f a ihf iha => exact congrArg₂ Skeleton.app (ihf names) (iha names)

theorem skeleton_apply (f : Hygienic) (arguments : List Hygienic) :
    (target.apply f arguments).skeleton = f.skeleton.apps (arguments.map skeleton) := by
  induction arguments generalizing f with
  | nil => rfl
  | cons a rest ih => exact ih (.app f a)

theorem skeleton_function (params : List String) (body : Hygienic) :
    (target.function params body).skeleton = .lams params.length body.skeleton := by
  induction params with
  | nil => rfl
  | cons x rest ih => exact congrArg Skeleton.abs ih

end Hygienic

/-- Code below `depth` abstractions, and code that it has a common reduct with when the
variables of these abstractions are replaced. -/
structure Equivalent (depth : Nat) (σ : Nat → Skeleton) (a b : Hygienic) : Prop where
  closed : a.skeleton.ClosedAt depth
  joins : Joins (a.skeleton.instantiate σ) b.skeleton

namespace Equivalent

variable {depth : Nat} {σ : Nat → Skeleton} {a b : Hygienic} {s s' : Scope Hygienic}

/-- Code without variables that lead outside may stand anywhere. -/
theorem anywhere {τ : Nat → Skeleton} (outermost : Equivalent 0 τ a b) :
    Equivalent depth σ a b where
  closed := outermost.closed.mono (Nat.zero_le depth)
  joins := by
    have joins := outermost.joins
    rw [Skeleton.instantiate_of_closed outermost.closed] at joins ⊢
    exact joins

theorem ofTerm (t : Term) : Equivalent depth σ (Hygienic.ofTerm [] t) (Hygienic.ofTerm [] t) := by
  have closed : (Hygienic.ofTerm [] t).skeleton.Closed := by
    rw [Hygienic.skeleton_ofTerm]
    exact t.nameless_closedAt []
  refine ⟨closed.mono (Nat.zero_le depth), ?_⟩
  rw [Skeleton.instantiate_of_closed closed]
  exact .refl _

theorem apply {as bs : List Hygienic} (heads : Equivalent depth σ a b)
    (arguments : List.Forall₂ (Equivalent depth σ) as bs) :
    Equivalent depth σ (Hygienic.target.apply a as) (Hygienic.target.apply b bs) := by
  induction arguments generalizing a b with
  | nil => exact heads
  | cons first _ ih => exact ih ⟨⟨heads.closed, first.closed⟩, heads.joins.app first.joins⟩

theorem function {params : List String}
    (bodies : Equivalent (params.length + depth) (lift^[params.length] σ) a b) :
    Equivalent depth σ (Hygienic.target.function params a) (Hygienic.target.function params b) := by
  induction params generalizing depth σ with
  | nil =>
    rw [List.length_nil, Nat.zero_add] at bodies
    exact bodies
  | cons x rest ih =>
    rw [List.length_cons, Nat.add_right_comm, Nat.add_assoc] at bodies
    have inner := ih bodies
    exact ⟨inner.closed, inner.joins.abs⟩

/-- What a scope binds, under an abstraction on both sides. -/
theorem underBinder (related : s.Related (Equivalent depth σ) s') (x : String) :
    (Hygienic.underBinder s x).Related (Equivalent (depth + 1) (lift σ))
      (Hygienic.underBinder s' x) := by
  refine Scope.Related.bind (related.map fun a b values => ⟨?_, ?_⟩) x
    ⟨Nat.succ_pos depth, .refl _⟩
  · rw [Hygienic.skeleton_shift]
    exact values.closed.shifted 0
  · rw [Hygienic.skeleton_shift, Hygienic.skeleton_shift, Skeleton.instantiate_shift_lift]
    exact values.joins.shift 0

theorem enter (related : s.Related (Equivalent depth σ) s') (params : List String) :
    (Hygienic.target.enter params s).Related
      (Equivalent (params.length + depth) (lift^[params.length] σ))
      (Hygienic.target.enter params s') := by
  induction params generalizing depth σ s s' with
  | nil =>
    rw [List.length_nil, Nat.zero_add]
    exact related
  | cons x rest ih =>
    rw [List.length_cons, Nat.add_right_comm, Nat.add_assoc]
    exact ih (underBinder related x)

/-- What a scope binds, under an abstraction on one side and with an argument on the other. -/
theorem atArgument (related : s.Related (Equivalent depth σ) s') (x : String) {t : Skeleton}
    (argument : Joins t b.skeleton) :
    (Hygienic.underBinder s x).Related (Equivalent (depth + 1) (push σ t)) (s'.bind x b) := by
  refine Scope.Related.bind (related.map_left fun a b values => ⟨?_, ?_⟩) x
    ⟨Nat.succ_pos depth, argument⟩
  · rw [Hygienic.skeleton_shift]
    exact values.closed.shifted 0
  · rw [Hygienic.skeleton_shift, Skeleton.instantiate_shift_push]
    exact values.joins

/-- The parameters of a function as variables, beside as many arguments in their place. -/
theorem atArguments (related : s.Related (Equivalent depth σ) s') (missing : Hygienic)
    {params : List String} {terms : List Skeleton} {bs : List Hygienic}
    (arguments : List.Forall₂ (fun t b => Joins t b.skeleton) terms bs)
    (arity : terms.length = params.length) :
    (Hygienic.target.enter params s).Related
      (Equivalent (params.length + depth) (terms.foldl push σ))
      (s'.bindArguments missing params bs) := by
  induction params generalizing depth σ s s' terms bs with
  | nil =>
    obtain rfl := List.eq_nil_of_length_eq_zero arity
    rw [List.length_nil, Nat.zero_add]
    exact related
  | cons x rest ih =>
    cases arguments with
    | nil => cases arity
    | cons first others =>
      rw [List.length_cons, Nat.add_right_comm, Nat.add_assoc]
      exact ih (atArgument related x first) others (Nat.succ.inj arity)

theorem arguments_closed {as bs : List Hygienic}
    (arguments : List.Forall₂ (Equivalent depth σ) as bs) :
    ∀ t ∈ as.map Hygienic.skeleton, t.ClosedAt depth := by
  induction arguments with
  | nil => simp
  | cons first _ ih => exact List.forall_mem_cons.mpr ⟨first.closed, ih⟩

/-- A lambda applied to as many arguments as it has parameters, beside its body with the
arguments in place of the parameters. -/
theorem applied {params : List String} {body : Hygienic} {as bs : List Hygienic}
    (closed : body.skeleton.ClosedAt params.length)
    (arguments : List.Forall₂ (Equivalent depth σ) as bs) (arity : as.length = params.length)
    (inlined : Joins (body.skeleton.instantiate
      ((as.map fun a => a.skeleton.instantiate σ).foldl push σ)) b.skeleton) :
    Equivalent depth σ (Hygienic.target.apply (Hygienic.target.function params body) as) b := by
  rw [← arity] at closed
  constructor
  · rw [Hygienic.skeleton_apply, Hygienic.skeleton_function, ← arity]
    exact Skeleton.closedAt_apps ((Skeleton.closed_lams closed).mono (Nat.zero_le depth))
      (arguments_closed arguments)
  · rw [Hygienic.skeleton_apply, Hygienic.skeleton_function, Skeleton.instantiate_apps, ← arity,
      List.map_map]
    have reduces := Skeleton.lams_apps_instantiate (as.map fun a => a.skeleton.instantiate σ)
      body.skeleton σ
    rw [List.length_map] at reduces
    exact .of_reduces reduces inlined

end Equivalent
end Church
end ChurchScript
