import ChurchScript.Diagram.Canvas
import ChurchScript.Diagram.Stroke
import ChurchScript.Diagram.Svg

/-!
# Text picture of an SVG text

Distinct widths take every other column and distinct heights consecutive rows,
so the picture keeps how the strokes meet and not how long they are. Uprights
are painted first; a level stroke takes the cross glyph where it meets one.
-/
namespace ChurchScript.Diagram

structure Picture where
  horizontals : List Span
  verticals : List Span
  deriving DecidableEq, Repr

/-- Where a width or a height goes: to the column or row of its rank among those
that strokes start, end or stand at. -/
structure Grid where
  xs : List Int
  ys : List Int
  deriving DecidableEq, Repr

namespace Grid

def column (grid : Grid) (x : Int) : Nat :=
  2 * grid.xs.idxOf x

def row (grid : Grid) (y : Int) : Nat :=
  grid.ys.idxOf y

def blank (grid : Grid) : Canvas :=
  Canvas.blank (2 * grid.xs.length + 1) (grid.ys.length + 1)

end Grid

namespace Picture

def ofStrokes (strokes : List Stroke) : Picture where
  horizontals := strokes.filterMap fun
    | .horizontal span => some span
    | .vertical _ => none
  verticals := strokes.filterMap fun
    | .vertical span => some span
    | .horizontal _ => none

/-- Numbers in increasing order, each once. -/
def distinct (ns : List Int) : List Int :=
  ns.mergeSort.eraseReps

def grid (picture : Picture) : Grid where
  xs := distinct (picture.verticals.map Span.level ++
    picture.horizontals.flatMap fun span => [span.low, span.high])
  ys := distinct (picture.horizontals.map Span.level ++
    picture.verticals.flatMap fun span => [span.low, span.high])

/-- The canvas with the uprights alone. -/
def uprights (picture : Picture) (grid : Grid) (glyphs : Glyphs) : Canvas :=
  picture.verticals.foldl
    (fun canvas span =>
      canvas.paintColumn (grid.column span.level) (grid.row span.low) (grid.row span.high) glyphs)
    grid.blank

def paint (picture : Picture) (glyphs : Glyphs) : Canvas :=
  let grid := picture.grid
  let uprights := picture.uprights grid glyphs
  picture.horizontals.foldl
    (fun canvas span =>
      let y := grid.row span.level
      canvas.paintRow y (grid.column span.low) (grid.column span.high) glyphs fun x =>
        uprights.get x y == glyphs.vertical)
    uprights

/-- The picture of the strokes in an SVG text. -/
def ofSvg (svg : String) : Picture :=
  ofStrokes (strokes svg)

def text (picture : Picture) (charset : Charset) : String :=
  (picture.paint charset.glyphs).text

end Picture

/-- The text picture of a figure, drawn from its SVG document. -/
def Figure.picture (style : Style) (figure : Figure) : String :=
  (Picture.ofSvg (figure.svg style)).text style.charset

end ChurchScript.Diagram
