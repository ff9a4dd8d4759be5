import ChurchScript.Number.Decimal
import ChurchScript.Text.Blank
import ChurchScript.Text.Word

/-!
# Strokes of an SVG text

Finds the line elements of a text and keeps those that run along an axis. An
element reaches from `<line`, unless a word character follows, to the next `>`.
Inside of it, each coordinate is a name that no word character precedes, an
equals sign and a quoted value; the last value of a name counts, and a value
that is no number reads as zero.
-/
namespace ChurchScript.Diagram

/-- The stretches of a text that a `>` ends, behind the characters of `current`
in reverse. -/
def stretches (current : List Char) : List Char → List (List Char)
  | [] => []
  | c :: cs => if c == '>' then current.reverse :: stretches [] cs else stretches (c :: current) cs

/-- What follows the first `<line` that is a word of its own. -/
def lineElement? : List Char → Option (List Char)
  | [] => none
  | c :: cs =>
    match ['<', 'l', 'i', 'n', 'e'].isPrefixOf? (c :: cs) with
    | some rest => if Text.startsWord rest then lineElement? cs else some rest
    | none => lineElement? cs

inductive Coordinate where
  | x1 | y1 | x2 | y2
  deriving DecidableEq, Repr

def Coordinate.read? : List Char → Option (Coordinate × List Char)
  | 'x' :: '1' :: rest => some (.x1, rest)
  | 'y' :: '1' :: rest => some (.y1, rest)
  | 'x' :: '2' :: rest => some (.x2, rest)
  | 'y' :: '2' :: rest => some (.y2, rest)
  | _ => none

/-- What follows a character with blanks in front of it. -/
def afterMark? (mark : Char) (cs : List Char) : Option (List Char) :=
  match cs.dropWhile Text.isBlank with
  | c :: rest => if c == mark then some rest else none
  | [] => none

/-- A coordinate with its quoted value at the start of a text, and what follows. -/
def assignment? (cs : List Char) : Option ((Coordinate × List Char) × List Char) := do
  let (coordinate, rest) ← Coordinate.read? cs
  let rest ← afterMark? '=' rest
  let rest ← afterMark? '"' rest
  match rest.dropWhile (· != '"') with
  | _ :: behind => some ((coordinate, rest.takeWhile (· != '"')), behind)
  | [] => none

theorem length_dropWhile_le (p : Char → Bool) (cs : List Char) :
    (cs.dropWhile p).length ≤ cs.length :=
  (List.dropWhile_suffix p).length_le

theorem length_lt_of_afterMark? {mark : Char} {cs rest : List Char}
    (h : afterMark? mark cs = some rest) : rest.length < cs.length := by
  have bound := length_dropWhile_le Text.isBlank cs
  unfold afterMark? at h
  split at h
  next c tail eq =>
    rw [eq] at bound
    simp only [List.length_cons] at bound
    split at h
    · cases h
      omega
    · cases h
  next => cases h

theorem length_lt_of_read? {cs rest : List Char} {coordinate : Coordinate}
    (h : Coordinate.read? cs = some (coordinate, rest)) : rest.length < cs.length := by
  unfold Coordinate.read? at h
  split at h <;> cases h <;> simp only [List.length_cons] <;> omega

theorem length_lt_of_assignment? {cs behind : List Char} {found : Coordinate × List Char}
    (h : assignment? cs = some (found, behind)) : behind.length < cs.length := by
  simp only [assignment?, Option.bind_eq_bind, Option.bind_eq_some_iff] at h
  obtain ⟨⟨coordinate, rest⟩, hread, rest', hequals, rest'', hquote, hvalue⟩ := h
  have h1 := length_lt_of_read? hread
  have h2 : rest'.length < rest.length := length_lt_of_afterMark? hequals
  have h3 := length_lt_of_afterMark? hquote
  have h4 := length_dropWhile_le (· != '"') rest''
  split at hvalue
  next eq =>
    cases hvalue
    rw [eq] at h4
    simp only [List.length_cons] at h4
    omega
  next => cases hvalue

/-- The coordinates in a text, `inWord` telling whether a word character precedes it. -/
def assignments (inWord : Bool) (cs : List Char) : List (Coordinate × List Char) :=
  match cs with
  | [] => []
  | c :: rest =>
    if inWord then assignments (Text.isWord c) rest
    else
      match h : assignment? (c :: rest) with
      | some (found, behind) =>
        have := length_lt_of_assignment? h
        found :: assignments false behind
      | none => assignments (Text.isWord c) rest
termination_by cs.length
decreasing_by all_goals simp only [List.length_cons] at *; omega

structure Line where
  x1 : Binary64 := .finite false 0
  y1 : Binary64 := .finite false 0
  x2 : Binary64 := .finite false 0
  y2 : Binary64 := .finite false 0
  deriving DecidableEq, Repr

namespace Line

def set (line : Line) (coordinate : Coordinate) (value : Binary64) : Line :=
  match coordinate with
  | .x1 => { line with x1 := value }
  | .y1 => { line with y1 := value }
  | .x2 => { line with x2 := value }
  | .y2 => { line with y2 := value }

def readValue (text : List Char) : Binary64 :=
  (Decimal.read? (Text.trim text)).getD (.finite false 0)

/-- The line that an element's text behind `<line` describes. -/
def ofElement (cs : List Char) : Line :=
  (assignments true cs).foldl (fun line found => line.set found.1 (readValue found.2)) {}

end Line

/-- A stretch along an axis, at a level of the other axis. -/
structure Span where
  level : Int
  low : Int
  high : Int
  deriving DecidableEq, Repr

/-- The span between two coordinates; one that is no number counts like the other. -/
def Span.between (level a b : Binary64) : Span :=
  let ends := [a, b].filterMap Binary64.toInt?
  ⟨level.toInt?.getD 0, ends.min?.getD 0, ends.max?.getD 0⟩

inductive Stroke where
  | horizontal (span : Span)
  | vertical (span : Span)
  deriving DecidableEq, Repr

/-- A line is level if its ends are less than one apart in height, upright if they
are so in width, and otherwise no stroke. -/
def Stroke.ofLine? (line : Line) : Option Stroke :=
  if line.y1.near line.y2 then some (.horizontal (.between line.y1 line.x1 line.x2))
  else if line.x1.near line.x2 then some (.vertical (.between line.x1 line.y1 line.y2))
  else none

def strokes (svg : String) : List Stroke :=
  (stretches [] svg.toList).filterMap fun stretch =>
    (lineElement? stretch).bind fun element => Stroke.ofLine? (Line.ofElement element)

end ChurchScript.Diagram
