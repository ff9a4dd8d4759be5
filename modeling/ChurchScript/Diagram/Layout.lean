import ChurchScript.Diagram.Figure
import ChurchScript.Term.Basic

/-!
# Tromp diagrams

An abstraction is a horizontal bar over its body, a variable a stem that hangs
from the bar of its binder, and an application joins the roots of its two sides
by a bar below both. A variable without an index is drawn as if bound by the
row right above it.
-/
namespace ChurchScript.Diagram

/-- The rows that the stem of a variable reaches up. -/
def reach (index : Option Nat) : Int :=
  match index with
  | some i => i + 1
  | none => 1

/-- The lines that join a side of height `h1` at column `x1` with a side of height
`h2` at column `x2`, the roots of both at row `y`: the shorter side's root
goes down to the bar, then the bar, then the drops of the roots to it. -/
def joint (x1 x2 y h1 h2 : Int) : List Segment :=
  let bar := max h1 h2
  (if h1 < bar then [Segment.vertical x1 (y + h1) (y + bar)] else []) ++
    (if h2 < bar then [Segment.vertical x2 (y + h2) (y + bar)] else []) ++
    [Segment.horizontal (y + bar) x1 x2] ++
    [Segment.vertical x1 (y + bar) (y + max (h1 - 1) 0),
      Segment.vertical x2 (y + bar) (y + max (h2 - 1) 0)].filter (!·.isDegenerate)

/-- The figure of a term with its upper left corner at column `x` and row `y`. -/
def place (x y : Int) : Term → Figure
  | .var _ index _ => ⟨[.vertical x y (y - reach index)], 1, 0⟩
  | .abs _ _ body =>
    let inner := place x (y + 1) body
    ⟨.horizontal y x (x + inner.width) :: inner.segments, inner.width, inner.height + 1⟩
  | .app f a =>
    let left := place x y f
    let middle := x + left.width + 1
    let right := place middle y a
    ⟨joint x middle y left.height right.height ++ left.segments ++ right.segments,
      left.width + right.width + 1, max left.height right.height + 1⟩

def layout (t : Term) : Figure :=
  place 0 0 t

end ChurchScript.Diagram
