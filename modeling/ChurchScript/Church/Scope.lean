/-!
# Scopes

What the names in a script stand for. A scope is a value: binding a name gives
a new scope, and the old one stays as it was.
-/
namespace ChurchScript.Church

/-- Bindings, newest first. -/
structure Scope (α : Type) where
  bindings : List (String × α) := []
  deriving DecidableEq, Repr

namespace Scope

variable {α : Type}

def lookup (scope : Scope α) (name : String) : Option α :=
  scope.bindings.lookup name

def contains (scope : Scope α) (name : String) : Bool :=
  (scope.lookup name).isSome

def bind (scope : Scope α) (name : String) (value : α) : Scope α :=
  ⟨(name, value) :: scope.bindings⟩

/-- Binds every parameter to what stands for a name that stays as it is. -/
def bindParams (scope : Scope α) (asIs : String → α) (params : List String) : Scope α :=
  params.foldl (fun scope param => scope.bind param (asIs param)) scope

/-- Binds parameters to arguments; `missing` stands for those that are not given, and
arguments without a parameter are dropped. -/
def bindArguments (scope : Scope α) (missing : α) : List String → List α → Scope α
  | [], _ => scope
  | param :: params, [] => (scope.bind param missing).bindArguments missing params []
  | param :: params, argument :: arguments =>
    (scope.bind param argument).bindArguments missing params arguments

@[simp] theorem lookup_empty (name : String) : ({} : Scope α).lookup name = none := rfl

theorem lookup_bind (scope : Scope α) (name other : String) (value : α) :
    (scope.bind name value).lookup other =
      if other = name then some value else scope.lookup other := by
  unfold lookup bind
  rw [List.lookup_cons]
  by_cases h : other = name
  · rw [beq_iff_eq.2 h, if_pos h]
  · rw [beq_false_of_ne h, if_neg h]

end Scope
end ChurchScript.Church
