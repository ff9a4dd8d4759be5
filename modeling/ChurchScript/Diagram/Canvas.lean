import ChurchScript.Diagram.Style
import ChurchScript.Text.Blank

/-!
# Canvas

A grid of characters to paint on. Painting outside of it has no effect, and
what lies outside reads as blank.
-/
namespace ChurchScript.Diagram

structure Canvas where
  width : Nat
  height : Nat
  cells : Array Char
  size_cells : cells.size = width * height

namespace Canvas

def blank (width height : Nat) : Canvas :=
  ⟨width, height, Array.replicate (width * height) ' ', by simp⟩

def get (canvas : Canvas) (col row : Nat) : Char :=
  if col < canvas.width ∧ row < canvas.height then
    canvas.cells.getD (row * canvas.width + col) ' '
  else ' '

def set (canvas : Canvas) (col row : Nat) (c : Char) : Canvas :=
  if col < canvas.width ∧ row < canvas.height then
    let ⟨width, height, cells, size_cells⟩ := canvas
    ⟨width, height, cells.setIfInBounds (row * width + col) c, by simp [size_cells]⟩
  else canvas

/-- The numbers from the lesser to the greater of two, ends included, as far as
they lie below `limit`. -/
def between (a b limit : Nat) : List Nat :=
  List.range' (min a b) (min (max a b + 1) limit - min a b)

/-- Paints the rows from `y1` to `y2` of a column. -/
def paintColumn (canvas : Canvas) (x y1 y2 : Nat) (glyphs : Glyphs) : Canvas :=
  (between y1 y2 canvas.height).foldl (fun painted row => painted.set x row glyphs.vertical) canvas

/-- Paints the columns from `x1` to `x2` of a row, with the cross glyph in those that
`crossing` picks out. -/
def paintRow (canvas : Canvas) (y x1 x2 : Nat) (glyphs : Glyphs) (crossing : Nat → Bool) : Canvas :=
  (between x1 x2 canvas.width).foldl
    (fun painted col =>
      painted.set col y (if crossing col then glyphs.cross else glyphs.horizontal)) canvas

def row (canvas : Canvas) (r : Nat) : List Char :=
  (List.range canvas.width).map fun col => canvas.get col r

/-- The rows without the blanks at their ends, up to the last that holds more than
blanks. -/
def lines (canvas : Canvas) : List (List Char) :=
  let trimmed := (List.range canvas.height).map fun r => Text.trimEnd (canvas.row r)
  (trimmed.reverse.dropWhile List.isEmpty).reverse

def text (canvas : Canvas) : String :=
  "\n".intercalate (canvas.lines.map String.ofList) ++ "\n"

end Canvas
end ChurchScript.Diagram
