/-!
# Figures

A figure is a list of line segments with an extent, in units of a grid whose
rows count downwards.
-/
namespace ChurchScript.Diagram

structure Segment where
  x1 : Int
  y1 : Int
  x2 : Int
  y2 : Int
  deriving DecidableEq, Repr

namespace Segment

def horizontal (y x1 x2 : Int) : Segment := ⟨x1, y, x2, y⟩

def vertical (x y1 y2 : Int) : Segment := ⟨x, y1, x, y2⟩

def translate (s : Segment) (dx dy : Int) : Segment :=
  ⟨s.x1 + dx, s.y1 + dy, s.x2 + dx, s.y2 + dy⟩

def isHorizontal (s : Segment) : Bool := s.y1 == s.y2

def isVertical (s : Segment) : Bool := s.x1 == s.x2

/-- Whether the segment is a single point. -/
def isDegenerate (s : Segment) : Bool := s.isHorizontal && s.isVertical

end Segment

structure Figure where
  segments : List Segment
  width : Int
  height : Int
  deriving DecidableEq, Repr

def Figure.translate (figure : Figure) (dx dy : Int) : List Segment :=
  figure.segments.map (·.translate dx dy)

end ChurchScript.Diagram
