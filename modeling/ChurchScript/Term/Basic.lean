/-!
# Lambda terms

Terms with named variables. A variable can carry its De Bruijn index and the
mark of its binder, an abstraction the mark it is known by; a term as read
from text carries neither.
-/
namespace ChurchScript

/-- The mark that tells one abstraction from another. -/
structure Binder where
  id : Nat
  deriving DecidableEq, Repr

def Binder.text (b : Binder) : String :=
  "#" ++ toString b.id

inductive Term where
  | var (name : String) (index : Option Nat) (binder : Option Binder)
  | abs (name : String) (binder : Option Binder) (body : Term)
  | app (function argument : Term)
  deriving DecidableEq, Repr

namespace Term

/-- A variable without annotations. -/
abbrev name (x : String) : Term := .var x none none

/-- An abstraction without a mark. -/
abbrev lam (x : String) (body : Term) : Term := .abs x none body

/-- The number of variables and abstractions. -/
def size : Term → Nat
  | var .. => 1
  | abs _ _ body => 1 + body.size
  | app f a => f.size + a.size

/-- The number of nodes: variables, abstractions and applications. -/
def nodes : Term → Nat
  | var .. => 1
  | abs _ _ body => 1 + body.nodes
  | app f a => 1 + f.nodes + a.nodes

/-- The number of nodes left to visit in a list of subterms. -/
def pending : List (Term × Nat) → Nat
  | [] => 0
  | (t, _) :: rest => t.nodes + pending rest

/-- The deepest level in a list of subterms waiting to be visited, each with its
own level, or `best` if none lies deeper. -/
def deepest (best : Nat) (work : List (Term × Nat)) : Nat :=
  match work with
  | [] => best
  | (var .., level) :: rest => deepest (max best level) rest
  | (abs _ _ body, level) :: rest =>
    deepest (max best level) ((body, level + 1) :: rest)
  | (app f a, level) :: rest =>
    deepest (max best level) ((a, level + 1) :: (f, level + 1) :: rest)
termination_by pending work
decreasing_by all_goals simp only [pending, nodes]; omega

/-- The number of nodes on the longest path from the root. The subterms still to
visit are held in a list, so that the nesting of a term costs no stack. -/
def depth (t : Term) : Nat :=
  deepest 0 [(t, 1)]

/-- Every mark on a variable or an abstraction, from left to right. -/
def binders : Term → List Binder
  | var _ _ binder => binder.toList
  | abs _ binder body => binder.toList ++ body.binders
  | app f a => f.binders ++ a.binders

def maxBinder (t : Term) : Option Binder :=
  (t.binders.map Binder.id).max?.map Binder.mk

/-- The variable occurrences whose name no enclosing abstraction has, from left
to right. -/
def freeOccurrences (bound : List String) : Term → List String
  | var x _ _ => if bound.contains x then [] else [x]
  | abs x _ body => body.freeOccurrences (x :: bound)
  | app f a => f.freeOccurrences bound ++ a.freeOccurrences bound

/-- The free names in the order of their first occurrence. -/
def freeVariables (t : Term) : List String :=
  (t.freeOccurrences []).eraseDups

/-- The number of variables that carry no mark. -/
def unmarked : Term → Nat
  | var _ _ binder => if binder.isNone then 1 else 0
  | abs _ _ body => body.unmarked
  | app f a => f.unmarked + a.unmarked

end Term
end ChurchScript
