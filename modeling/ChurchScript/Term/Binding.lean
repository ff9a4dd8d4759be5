import ChurchScript.Term.Basic

/-!
# Binding

Annotates a term with De Bruijn indices and binder marks. An abstraction keeps
the mark it has; one without takes the next unused number, outermost and
leftmost first. The numbers are words of 32 bits, and the last is followed by
zero again. What a variable carried before is replaced.
-/
namespace ChurchScript

namespace Term

/-- The enclosing abstractions, innermost first. -/
abbrev Enclosing := List (String × Binder)

/-- The nearest enclosing abstraction of a name: how many others lie inside it,
and its mark. -/
def Enclosing.find? (x : String) : Enclosing → Option (Nat × Binder)
  | [] => none
  | (y, binder) :: outer =>
    if x = y then some (0, binder)
    else (find? x outer).map fun found => (found.1 + 1, found.2)

/-- Annotates a term below the given abstractions, and the next unused number
after it. -/
def annotate (enclosing : Enclosing) (next : UInt32) : Term → Term × UInt32
  | var x _ _ =>
    match enclosing.find? x with
    | some (index, binder) => (var x (some index) (some binder), next)
    | none => (var x none none, next)
  | abs x (some binder) body =>
    let (body, next) := body.annotate ((x, binder) :: enclosing) next
    (abs x (some binder) body, next)
  | abs x none body =>
    let binder : Binder := ⟨next.toNat⟩
    let (body, next) := body.annotate ((x, binder) :: enclosing) (next + 1)
    (abs x (some binder) body, next)
  | app f a =>
    let (f, next) := f.annotate enclosing next
    let (a, next) := a.annotate enclosing next
    (app f a, next)

end Term

/-- A source of unused binder marks. -/
structure MarkSupply where
  next : UInt32 := 0
  deriving DecidableEq, Repr

namespace MarkSupply

/-- Starts behind every mark that a term carries. -/
def beyond (t : Term) : MarkSupply :=
  match t.maxBinder with
  | some binder => ⟨UInt32.ofNat (binder.id + 1)⟩
  | none => ⟨0⟩

/-- Annotates a whole term, and the marks left after it. -/
def resolve (supply : MarkSupply) (t : Term) : Term × MarkSupply :=
  let (t, next) := t.annotate [] supply.next
  (t, ⟨next⟩)

end MarkSupply

def Term.resolve (t : Term) : Term :=
  ((MarkSupply.beyond t).resolve t).1

end ChurchScript
