import ChurchScript.CommandLine.FileSystem
import ChurchScript.CommandLine.Options
import ChurchScript.Demo

/-!
# Running the command

A run reads at most one text, works out all that is to be written, and only
then writes: to standard output, or to the output file and the text file that
goes with it. What a run reads from and writes to is given as a host, so the
same run works on files held as values and on real ones.
-/
namespace ChurchScript.CommandLine

/-- What a run works on. -/
structure Host (m : Type → Type) where
  readInput : m ByteArray
  readFile : String → m (Except FileFault ByteArray)
  writeFile : String → String → m (Except FileFault Unit)

inductive Failure where
  | readInput (fault : FileFault)
  | readFile (path : String) (fault : FileFault)
  | writeFile (path : String) (fault : FileFault)
  | work (error : Error)
  deriving DecidableEq, Repr

def Failure.message : Failure → String
  | .readInput fault => "error: cannot read stdin: " ++ fault.describe
  | .readFile path fault => s!"error: cannot read '{path}': " ++ fault.describe
  | .writeFile path fault => s!"error: cannot write '{path}': " ++ fault.describe
  | .work error => "error: " ++ error.message

/-- All that a run gives back: a document, and a lambda text of its own beside it. -/
structure Product where
  document : String
  lambda : Option String := none
  deriving DecidableEq, Repr

def draw (options : Options) (lambda : String) : Except Error String :=
  match options.drawn with
  | .svg => do return (← drawSvg options.style lambda) ++ "\n"
  | .ascii => drawPicture options.style lambda

/-- Draws a lambda text, or compiles a script, or does both one after the other. -/
def work (options : Options) (text : String) : Except Error Product := do
  if options.visualize && !options.transpile then
    return { document := ← draw options (String.ofList (Text.trim text.toList)) }
  let lambda ← lambdaText text
  if options.transpile && !options.visualize then
    return { document := lambda ++ "\n" }
  let drawing ← draw options lambda
  if options.output.isSome then return { document := drawing, lambda := some lambda }
  return { document := lambda ++ "\n\n" ++ drawing }

/-- The files that a product is written to, in order. -/
def Product.files (product : Product) (output : String) : List (String × String) :=
  (output, product.document) ::
    (product.lambda.map fun lambda => (Path.textFile output, lambda ++ "\n")).toList

section

variable {m : Type → Type} [Monad m]

def readText (host : Host m) (input : Option String) : ExceptT Failure m String := do
  match input with
  | none =>
    match String.fromUTF8? (← host.readInput) with
    | some text => return text
    | none => throw (.readInput .invalidText)
  | some path =>
    match ← host.readFile path with
    | .error fault => throw (.readFile path fault)
    | .ok bytes =>
      match String.fromUTF8? bytes with
      | some text => return text
      | none => throw (.readFile path .invalidText)

def produce (host : Host m) (options : Options) : ExceptT Failure m Product := do
  if options.examples then
    match demonstrations options.style with
    | .ok document => return { document }
    | .error error => throw (.work error)
  else
    let text ← readText host options.input
    match work options text with
    | .ok product => return product
    | .error error => throw (.work error)

/-- Writes files one after the other, up to the first that cannot be written. -/
def writeFiles (host : Host m) : List (String × String) → ExceptT Failure m Unit
  | [] => return ()
  | (path, contents) :: rest => do
    match ← host.writeFile path contents with
    | .ok () => writeFiles host rest
    | .error fault => throw (.writeFile path fault)

/-- Does what the options ask for and gives back the text for standard output. -/
def perform (host : Host m) (options : Options) : ExceptT Failure m String := do
  let product ← produce host options
  match options.output with
  | none => return product.document
  | some output =>
    writeFiles host (product.files output)
    return ""

/-- How a run ended. A command line that makes no sense has no message of its own. -/
inductive Outcome where
  | done (output : String)
  | failed (message : String)
  | misused
  deriving DecidableEq, Repr

def Outcome.exitCode : Outcome → Nat
  | done _ => 0
  | failed _ => 1
  | misused => 2

/-- What a run puts on standard output. -/
def Outcome.printed : Outcome → String
  | done output => output
  | failed _ => ""
  | misused => ""

def run (host : Host m) (args : List String) : m Outcome := do
  match Options.parse? args with
  | none => return .misused
  | some options =>
    match ← (perform host options).run with
    | .ok output => return .done output
    | .error failure => return .failed failure.message

end

/-- A file system held as a value, with the bytes of standard input. -/
def Host.ofFileSystem (input : ByteArray) : Host (StateM FileSystem) where
  readInput := return input
  readFile path := do return (← get).read path
  writeFile path contents := do
    match (← get).write path contents.toUTF8 with
    | .ok disk =>
      set disk
      return .ok ()
    | .error fault => return .error fault

/-- Runs the command in a directory held as a value, and the directory after it. -/
def runIn (directory : Directory) (input : ByteArray) (args : List String) : Outcome × Directory :=
  let (outcome, disk) := (run (Host.ofFileSystem input) args).run (.ofDirectory directory)
  (outcome, disk.directory)

end ChurchScript.CommandLine
