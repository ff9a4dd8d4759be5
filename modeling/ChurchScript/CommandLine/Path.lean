/-!
# Paths

The parts of a path that name a file, and the text file that goes with an
output file. Slashes and single dots behind a name do not change what it names.
-/
namespace ChurchScript.CommandLine.Path

/-- Removes the slashes and single dots behind a name, of a path in reverse. -/
def dropTrailing : List Char → List Char
  | '/' :: rest => dropTrailing rest
  | '.' :: '/' :: rest => dropTrailing ('/' :: rest)
  | cs => cs
termination_by cs => cs.length

/-- The path up to and with its last slash, and what the path names. -/
def split (path : List Char) : List Char × List Char :=
  let cs := dropTrailing path.reverse
  ((cs.dropWhile (· != '/')).reverse, (cs.takeWhile (· != '/')).reverse)

/-- The name of the file at the end of a path, if it ends in one. -/
def fileName? (path : List Char) : Option (List Char) :=
  let name := (split path).2
  if name.isEmpty || name == ['.'] || name == ['.', '.'] then none else some name

/-- A file name up to its last dot, and what follows the dot. A name whose only dot
comes first has no extension. -/
def splitExtension (name : List Char) : List Char × Option (List Char) :=
  let cs := name.reverse
  match cs.dropWhile (· != '.') with
  | _ :: stem =>
    if stem.isEmpty then (name, none) else (stem.reverse, some (cs.takeWhile (· != '.')).reverse)
  | [] => (name, none)

def extension? (path : List Char) : Option (List Char) := do
  (splitExtension (← fileName? path)).2

/-- The path with another extension. The old extension's length is cut off first,
and where no file name is left then, nothing is added. -/
def withExtension (path extension : List Char) : List Char :=
  let cut := match extension? path with
    | some old => path.take (path.length - old.length)
    | none => path
  match fileName? cut with
  | some name => (split cut).1 ++ (splitExtension name).1 ++ '.' :: extension
  | none => cut

/-- A step along a path. A single dot counts only at the start. -/
inductive Component where
  | root | current | parent
  | name (text : List Char)
  deriving DecidableEq, Repr

/-- The stretches between slashes, behind `current` in reverse. -/
def pieces (current : List Char) : List Char → List (List Char)
  | [] => [current.reverse]
  | c :: cs => if c == '/' then current.reverse :: pieces [] cs else pieces (c :: current) cs

def component? (piece : List Char) : Option Component :=
  if piece.isEmpty || piece == ['.'] then none
  else if piece == ['.', '.'] then some .parent
  else some (.name piece)

def components (path : List Char) : List Component :=
  let start := match path with
    | '/' :: _ => [.root]
    | ['.'] => [.current]
    | '.' :: '/' :: _ => [.current]
    | _ => []
  start ++ (pieces [] path).filterMap component?

/-- Where the lambda text goes that belongs to an output file: next to it with the
extension `txt`, or behind its whole name if that is the output file itself. -/
def textFile (output : String) : String :=
  let path := output.toList
  let neighbour := withExtension path ['t', 'x', 't']
  if components neighbour = components path then output ++ ".lambda.txt"
  else String.ofList neighbour

end ChurchScript.CommandLine.Path
