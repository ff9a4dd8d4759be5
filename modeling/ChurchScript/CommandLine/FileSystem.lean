import ChurchScript.CommandLine.Path

/-!
# Files as values

A file system held as a value: files by their names from the root down, and the directory
where a run works. There are the directories on the way to a file or to that one, and there
are no links.
-/
namespace ChurchScript.CommandLine

inductive FileFault where
  | notFound | notDirectory | isDirectory | invalidText
  deriving DecidableEq, Repr

def FileFault.describe : FileFault → String
  | .notFound => "No such file or directory (os error 2)"
  | .notDirectory => "Not a directory (os error 20)"
  | .isDirectory => "Is a directory (os error 21)"
  | .invalidText => "stream did not contain valid UTF-8"

/-- The files of a directory, by their names from it down. -/
structure Directory where
  files : List (List String × ByteArray)

/-- All files, by their names from the root down, and the names of the directory where a run
works. -/
structure FileSystem where
  home : List String
  files : List (List String × ByteArray)

namespace FileSystem

def file? (disk : FileSystem) (place : List String) : Option ByteArray :=
  disk.files.lookup place

def hasDirectory (disk : FileSystem) (place : List String) : Bool :=
  place.isPrefixOf disk.home ||
    disk.files.any fun file => place.isPrefixOf file.1 && place != file.1

/-- The place one step further, whether it exists or not. The root is above itself. -/
def step (place : List String) (piece : List Char) : List String :=
  match Path.component? piece with
  | some .parent => place.dropLast
  | some (.name text) => place ++ [String.ofList text]
  | _ => place

/-- Goes one step further into a directory. -/
def enter (disk : FileSystem) (place : List String) (piece : List Char) :
    Except FileFault (List String) :=
  let there := step place piece
  if disk.hasDirectory there then .ok there
  else if (disk.file? there).isSome then .error .notDirectory
  else .error .notFound

/-- Where a path starts: at the root or where the run works. -/
def start (disk : FileSystem) (path : List Char) : List String :=
  if path.head? == some '/' then [] else disk.home

/-- Where a path leads, if there are directories all along to its last piece. -/
def locate (disk : FileSystem) (path : List Char) : Except FileFault (List String) :=
  if path.isEmpty then .error .notFound
  else do
    let pieces := Path.pieces [] path
    let parent ← pieces.dropLast.foldlM disk.enter (disk.start path)
    return step parent (pieces.getLastD [])

def read (disk : FileSystem) (path : String) : Except FileFault ByteArray := do
  let place ← disk.locate path.toList
  if disk.hasDirectory place then throw .isDirectory
  match disk.file? place with
  | some contents => return contents
  | none => throw .notFound

def put (disk : FileSystem) (place : List String) (contents : ByteArray) : FileSystem :=
  { disk with files := (place, contents) :: disk.files.filter (·.1 != place) }

/-- Replaces or makes a file. A path with a slash at its end can only be a directory. -/
def write (disk : FileSystem) (path : String) (contents : ByteArray) :
    Except FileFault FileSystem := do
  let cs := path.toList
  if cs.getLast? == some '/' then
    let name := (cs.reverse.dropWhile (· == '/')).reverse
    if !name.isEmpty then
      let _ ← disk.locate name
    throw .isDirectory
  let place ← disk.locate cs
  if disk.hasDirectory place then throw .isDirectory
  return disk.put place contents

/-- A file system that holds one directory, where a run works. -/
def ofDirectory (directory : Directory) : FileSystem where
  home := ["working directory"]
  files := directory.files.map fun file => ("working directory" :: file.1, file.2)

/-- The files of the directory where a run works. -/
def directory (disk : FileSystem) : Directory where
  files := (disk.files.filter fun file => disk.home.isPrefixOf file.1).map fun file =>
    (file.1.drop disk.home.length, file.2)

end FileSystem
end ChurchScript.CommandLine
