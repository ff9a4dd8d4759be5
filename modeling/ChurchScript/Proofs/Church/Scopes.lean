import Mathlib.Data.List.Forall2
import ChurchScript.Church.Scope

/-!
# Scopes side by side

Two scopes are related when they bind the same names, each to related values.
Binding names, parameters and arguments on both sides keeps them related.
-/
namespace ChurchScript.Church

variable {α β : Type}

/-- Two scopes that bind the same names, each to related values. -/
def Scope.Related (R : α → β → Prop) (s : Scope α) (s' : Scope β) : Prop :=
  ∀ x, Option.Rel R (s.lookup x) (s'.lookup x)

namespace Scope

variable {R : α → β → Prop}

theorem Related.empty : Related R {} {} := fun _ => .none

theorem Related.imp {R' : α → β → Prop} {s : Scope α} {s' : Scope β} (related : Related R s s')
    (weaken : ∀ a b, R a b → R' a b) : Related R' s s' := by
  intro x
  have found := related x
  generalize s.lookup x = here at found ⊢
  generalize s'.lookup x = there at found ⊢
  cases found with
  | some values => exact .some (weaken _ _ values)
  | none => exact .none

/-- Scopes that bind the same names, to whatever values. -/
theorem Related.of_contains {s : Scope α} {s' : Scope β}
    (same : ∀ x, s.contains x = s'.contains x) : Related (fun _ _ => True) s s' := by
  intro x
  have found := same x
  unfold contains at found
  generalize s.lookup x = here at found ⊢
  generalize s'.lookup x = there at found ⊢
  cases here with
  | none =>
    cases there with
    | none => exact .none
    | some b => cases found
  | some a =>
    cases there with
    | none => cases found
    | some b => exact .some trivial

theorem Related.bind {s : Scope α} {s' : Scope β} {a : α} {b : β} (related : Related R s s')
    (x : String) (values : R a b) : Related R (s.bind x a) (s'.bind x b) := by
  intro y
  rw [lookup_bind, lookup_bind]
  by_cases same : y = x
  · simpa [same] using Option.Rel.some values
  · simpa [same] using related y

theorem Related.contains_eq {s : Scope α} {s' : Scope β} (related : Related R s s') (x : String) :
    s.contains x = s'.contains x := by
  have found := related x
  unfold contains
  generalize s.lookup x = here at found ⊢
  generalize s'.lookup x = there at found ⊢
  cases found with
  | some _ => rfl
  | none => rfl

theorem contains_bind (s : Scope α) (x y : String) (a : α) :
    (s.bind x a).contains y = (y == x || s.contains y) := by
  unfold contains
  rw [lookup_bind]
  by_cases same : y = x
  · simp [same]
  · simp [same]

theorem contains_names (s : Scope α) (x : String) :
    s.contains x = (s.bindings.map Prod.fst).contains x := by
  obtain ⟨bindings⟩ := s
  unfold contains lookup
  induction bindings with
  | nil => rfl
  | cons first rest ih =>
    obtain ⟨y, value⟩ := first
    rw [List.lookup_cons, List.map_cons, List.contains_cons, ← ih]
    cases x == y <;> rfl

theorem lookup_bindParams (scope : Scope α) (asIs : String → α) (params : List String)
    (x : String) : (scope.bindParams asIs params).lookup x =
      if x ∈ params then some (asIs x) else scope.lookup x := by
  induction params generalizing scope with
  | nil => simp [bindParams]
  | cons y rest ih =>
    have inner := ih (scope.bind y (asIs y))
    unfold bindParams at inner ⊢
    rw [List.foldl_cons, inner, lookup_bind]
    by_cases inside : x ∈ rest
    · simp [inside]
    · by_cases here : x = y
      · simp [here]
      · simp [inside, here]

theorem contains_bindParams (s : Scope α) (asIs : String → α) (params : List String) (y : String) :
    (s.bindParams asIs params).contains y = (params.contains y || s.contains y) := by
  unfold contains
  rw [lookup_bindParams]
  by_cases inside : y ∈ params
  · simp [inside]
  · simp [inside]

theorem Related.bindParams {asIs : String → α} {asIs' : String → β} {s : Scope α} {s' : Scope β}
    (related : Related R s s') (params : List String)
    (values : ∀ x ∈ params, R (asIs x) (asIs' x)) :
    Related R (s.bindParams asIs params) (s'.bindParams asIs' params) := by
  induction params generalizing s s' with
  | nil => exact related
  | cons param rest ih =>
    exact ih (related.bind param (values param (by simp)))
      (fun x member => values x (by simp [member]))

theorem Related.bindArguments {missing : α} {missing' : β} {s : Scope α} {s' : Scope β}
    (related : Related R s s') (absent : R missing missing') (params : List String)
    {arguments : List α} {arguments' : List β} (values : List.Forall₂ R arguments arguments') :
    Related R (s.bindArguments missing params arguments)
      (s'.bindArguments missing' params arguments') := by
  induction params generalizing s s' arguments arguments' with
  | nil => exact related
  | cons param rest ih =>
    cases values with
    | nil => exact ih (related.bind param absent) .nil
    | cons first others => exact ih (related.bind param first) others

theorem contains_bindArguments (s : Scope α) (missing : α) (params : List String)
    (arguments : List α) (y : String) :
    (s.bindArguments missing params arguments).contains y =
      (params.contains y || s.contains y) := by
  induction params generalizing s arguments with
  | nil => simp [Scope.bindArguments]
  | cons param rest ih =>
    cases arguments with
    | nil =>
      rw [Scope.bindArguments, ih, contains_bind, List.contains_cons, Bool.or_left_comm,
        Bool.or_assoc]
    | cons first others =>
      rw [Scope.bindArguments, ih, contains_bind, List.contains_cons, Bool.or_left_comm,
        Bool.or_assoc]

/-- Changes all values of a scope alike. -/
def map (f : α → β) (scope : Scope α) : Scope β :=
  ⟨scope.bindings.map fun binding => (binding.1, f binding.2)⟩

theorem lookup_map (f : α → β) (scope : Scope α) (x : String) :
    (scope.map f).lookup x = (scope.lookup x).map f := by
  obtain ⟨bindings⟩ := scope
  unfold map lookup
  induction bindings with
  | nil => rfl
  | cons first rest ih =>
    obtain ⟨y, value⟩ := first
    rw [List.map_cons, List.lookup_cons, List.lookup_cons, ih]
    cases x == y <;> rfl

section Map

variable {α' β' : Type} {R' : α' → β' → Prop} {s : Scope α} {s' : Scope β} {f : α → α'}

theorem Related.map_left {R' : α' → β → Prop} (related : Related R s s')
    (values : ∀ a b, R a b → R' (f a) b) : Related R' (s.map f) s' := by
  intro x
  have found := related x
  rw [lookup_map]
  generalize s.lookup x = here at found ⊢
  generalize s'.lookup x = there at found ⊢
  cases found with
  | some both => exact .some (values _ _ both)
  | none => exact .none

theorem Related.map {g : β → β'} (related : Related R s s')
    (values : ∀ a b, R a b → R' (f a) (g b)) : Related R' (s.map f) (s'.map g) := by
  intro x
  have found := related x
  rw [lookup_map, lookup_map]
  generalize s.lookup x = here at found ⊢
  generalize s'.lookup x = there at found ⊢
  cases found with
  | some both => exact .some (values _ _ both)
  | none => exact .none

end Map

end Scope
end ChurchScript.Church
