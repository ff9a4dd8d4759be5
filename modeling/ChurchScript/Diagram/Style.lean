/-!
# Style of a diagram

Sizes and colours of the drawing and the characters of the text picture.
-/
namespace ChurchScript.Diagram

/-- The characters that stand for the lines of a text picture. -/
structure Glyphs where
  horizontal : Char
  vertical : Char
  cross : Char
  deriving DecidableEq, Repr

inductive Charset where
  | unicode | ascii
  deriving DecidableEq, Repr

def Charset.glyphs : Charset → Glyphs
  | .unicode => ⟨'─', '│', '┼'⟩
  | .ascii => ⟨'-', '|', '+'⟩

structure Style where
  unitSize : Nat := 30
  lineWidth : Nat := 3
  padding : Nat := 60
  background : String := "#FFF"
  stroke : String := "#000000"
  charset : Charset := .unicode
  deriving DecidableEq, Repr

namespace Style

/-- Zero asks for the default size. -/
def withUnitSize (style : Style) (size : Nat) : Style :=
  { style with unitSize := if size = 0 then ({} : Style).unitSize else size }

/-- Zero asks for the default width. -/
def withLineWidth (style : Style) (width : Nat) : Style :=
  { style with lineWidth := if width = 0 then ({} : Style).lineWidth else width }

def withPadding (style : Style) (padding : Nat) : Style :=
  { style with padding }

/-- An empty colour changes nothing. -/
def withBackground (style : Style) (colour : String) : Style :=
  if colour.isEmpty then style else { style with background := colour }

/-- An empty colour changes nothing. -/
def withStroke (style : Style) (colour : String) : Style :=
  if colour.isEmpty then style else { style with stroke := colour }

def withCharset (style : Style) (charset : Charset) : Style :=
  { style with charset }

end Style
end ChurchScript.Diagram
