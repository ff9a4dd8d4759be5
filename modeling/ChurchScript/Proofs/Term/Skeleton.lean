import ChurchScript.Term.Binding

/-!
# Skeletons

The De Bruijn form of a term: a bound variable is the number of abstractions
between it and its own, a free variable keeps its name, and abstractions have no
names. Two terms with the same skeleton differ in the names of their abstractions
only.
-/
namespace ChurchScript

inductive Skeleton where
  | free (x : String)
  | bound (index : Nat)
  | abs (body : Skeleton)
  | app (function argument : Skeleton)
  deriving DecidableEq, Repr

namespace Term

/-- The skeleton that the annotations of a term give. -/
def skeleton : Term → Skeleton
  | var _ (some index) _ => .bound index
  | var x none _ => .free x
  | abs _ _ body => .abs body.skeleton
  | app f a => .app f.skeleton a.skeleton

/-- The skeleton of a term below abstractions of the given names, innermost first,
from its names alone. -/
def nameless (names : List String) : Term → Skeleton
  | var x _ _ => if x ∈ names then .bound (names.idxOf x) else .free x
  | abs x _ body => .abs (body.nameless (x :: names))
  | app f a => .app (f.nameless names) (a.nameless names)

/-- The nearest enclosing abstraction of a name is the first of that name. -/
theorem find_index (x : String) (enclosing : Enclosing) :
    (enclosing.find? x).map Prod.fst =
      if x ∈ enclosing.map Prod.fst then some ((enclosing.map Prod.fst).idxOf x) else none := by
  induction enclosing with
  | nil => rfl
  | cons first outer ih =>
    obtain ⟨y, binder⟩ := first
    by_cases same : x = y
    · simp [Enclosing.find?, same]
    · have other : (y == x) = false := beq_false_of_ne fun h => same h.symm
      have step : (Enclosing.find? x ((y, binder) :: outer)).map Prod.fst =
          ((Enclosing.find? x outer).map Prod.fst).map (· + 1) := by
        simp [Enclosing.find?, same, Function.comp_def]
      rw [step, ih]
      by_cases inside : x ∈ outer.map Prod.fst
      · simp [List.idxOf_cons, same, other, inside]
      · simp [same, inside]

theorem annotate_skeleton (t : Term) (enclosing : Enclosing) (next : UInt32) :
    (t.annotate enclosing next).1.skeleton = t.nameless (enclosing.map Prod.fst) := by
  induction t generalizing enclosing next with
  | var x index binder =>
    have found := find_index x enclosing
    simp only [annotate, nameless]
    by_cases inside : x ∈ enclosing.map Prod.fst
    · rw [if_pos inside] at found ⊢
      obtain ⟨⟨index, binder⟩, nearest, rfl⟩ := Option.map_eq_some_iff.mp found
      rw [nearest]
      rfl
    · rw [if_neg inside] at found ⊢
      rw [Option.map_eq_none_iff.mp found]
      rfl
  | abs x binder body ih =>
    cases binder with
    | none => exact congrArg Skeleton.abs (ih ((x, ⟨next.toNat⟩) :: enclosing) (next + 1))
    | some binder => exact congrArg Skeleton.abs (ih ((x, binder) :: enclosing) next)
  | app f a ihf iha =>
    simp only [annotate, skeleton, nameless, ihf, iha]

/-- Resolving a term leads every variable to the nearest abstraction of its name. -/
theorem resolve_skeleton (t : Term) : t.resolve.skeleton = t.nameless [] :=
  t.annotate_skeleton [] _

end Term
end ChurchScript
