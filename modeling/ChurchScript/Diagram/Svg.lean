import ChurchScript.Diagram.Figure
import ChurchScript.Diagram.Style

/-!
# SVG document of a figure

A document is a list of tags, written one after the other. Attribute values
are escaped when a tag is written and nowhere else.
-/
namespace ChurchScript.Diagram

/-- How a character stands in an attribute value. -/
def escapeChar (c : Char) : List Char :=
  if c == '&' then ['&', 'a', 'm', 'p', ';']
  else if c == '<' then ['&', 'l', 't', ';']
  else if c == '>' then ['&', 'g', 't', ';']
  else if c == '"' then ['&', 'q', 'u', 'o', 't', ';']
  else [c]

def escape (value : String) : String :=
  String.ofList (value.toList.flatMap escapeChar)

structure Attribute where
  name : String
  value : String
  deriving DecidableEq, Repr

def Attribute.text (a : Attribute) : String :=
  " " ++ a.name ++ "=\"" ++ escape a.value ++ "\""

inductive Tag where
  | opening (name : String) (attributes : List Attribute)
  | empty (name : String) (attributes : List Attribute)
  | closing (name : String)
  deriving DecidableEq, Repr

def Tag.text : Tag → String
  | opening name attributes => "<" ++ name ++ String.join (attributes.map Attribute.text) ++ ">"
  | empty name attributes => "<" ++ name ++ String.join (attributes.map Attribute.text) ++ "/>"
  | closing name => "</" ++ name ++ ">"

/-- A number as a signed word of 64 bits holds it, which is what all lengths of a document
are computed in. A number that does not fit loses its upper bits. -/
def word (n : Int) : Int := (Int64.ofInt n).toInt

/-- A segment as it lies in the document. -/
def Segment.drawn (style : Style) (s : Segment) : Segment :=
  ⟨word (s.x1 * style.unitSize), word (s.y1 * style.unitSize), word (s.x2 * style.unitSize),
    word (s.y2 * style.unitSize)⟩

/-- The attributes of a line that lies in the document. -/
def Style.lineAttributes (style : Style) (line : Segment) : List Attribute :=
  [⟨"x1", toString line.x1⟩, ⟨"y1", toString line.y1⟩, ⟨"x2", toString line.x2⟩,
    ⟨"y2", toString line.y2⟩, ⟨"stroke", style.stroke⟩,
    ⟨"stroke-width", toString style.lineWidth⟩, ⟨"stroke-linecap", "round"⟩]

def Segment.tag (style : Style) (s : Segment) : Tag :=
  .empty "line" (style.lineAttributes (s.drawn style))

/-- A length of the figure in the document, with padding on both sides. -/
def Style.extent (style : Style) (length : Int) : Int :=
  word (word (length * style.unitSize) + word (style.padding * 2))

/-- The tags of a document of the given extents with lines in it. -/
def Style.document (style : Style) (width height : Int) (lines : List Tag) : List Tag :=
  let padding := toString style.padding
  [.opening "svg"
      [⟨"xmlns", "http://www.w3.org/2000/svg"⟩, ⟨"width", toString width⟩,
        ⟨"height", toString height⟩, ⟨"preserveAspectRatio", "xMidYMid meet"⟩],
    .empty "rect" [⟨"width", "100%"⟩, ⟨"height", "100%"⟩, ⟨"fill", style.background⟩],
    .opening "g" [⟨"transform", "translate(" ++ padding ++ ", " ++ padding ++ ")"⟩]] ++
    lines ++ [.closing "g", .closing "svg"]

def Figure.tags (style : Style) (figure : Figure) : List Tag :=
  style.document (style.extent figure.width) (style.extent figure.height)
    (figure.segments.map (·.tag style))

def Figure.svg (style : Style) (figure : Figure) : String :=
  String.join ((figure.tags style).map Tag.text)

end ChurchScript.Diagram
