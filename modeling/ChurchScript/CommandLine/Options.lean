import ChurchScript.Diagram.Style
import ChurchScript.Number.Digits
import ChurchScript.Number.Power

/-!
# Command-line options

Flags stand alone and short ones combine; a setting takes a value, attached to
it or as the next argument. Only `--verbose` may be repeated, and the
demonstrations exclude an input and a choice of work.
-/
namespace ChurchScript.CommandLine

inductive Format where
  | svg | ascii
  deriving DecidableEq, Repr

inductive Flag where
  | transpile | visualize | ascii | quiet | examples | verbose
  deriving DecidableEq, Repr

inductive Setting where
  | format | output | unitSize | lineWidth | padding | background | stroke
  deriving DecidableEq, Repr

/-- A part of the command line. -/
inductive Item where
  | flag (flag : Flag)
  | setting (setting : Setting) (value : String)
  | input (path : String)
  deriving DecidableEq, Repr

def Flag.ofLong? (name : String) : Option Flag :=
  match name with
  | "transpile" => some .transpile
  | "visualize" => some .visualize
  | "ascii" => some .ascii
  | "quiet" => some .quiet
  | "examples" => some .examples
  | "verbose" => some .verbose
  | _ => none

def Flag.ofShort? (c : Char) : Option Flag :=
  if c == 't' then some .transpile
  else if c == 'v' then some .visualize
  else if c == 'a' then some .ascii
  else if c == 'q' then some .quiet
  else none

def Setting.ofLong? (name : String) : Option Setting :=
  match name with
  | "format" => some .format
  | "output" => some .output
  | "unit-size" => some .unitSize
  | "line-width" => some .lineWidth
  | "padding" => some .padding
  | "background" => some .background
  | "stroke" => some .stroke
  | _ => none

def Setting.ofShort? (c : Char) : Option Setting :=
  if c == 'f' then some .format
  else if c == 'o' then some .output
  else none

/-- What one argument that starts with a dash says: its flags, and a setting at its
end with the value attached to it, if there is one. -/
structure Dashed where
  flags : List Flag := []
  setting : Option (Setting × Option (List Char)) := none
  deriving DecidableEq, Repr

/-- The argument `--name` or `--name=value` without its dashes. -/
def Dashed.ofLong? (cs : List Char) : Option Dashed :=
  let name := String.ofList (cs.takeWhile (· != '='))
  let value := (cs.dropWhile (· != '=')).tail?
  match Flag.ofLong? name, Setting.ofLong? name with
  | some flag, _ => if value.isNone then some { flags := [flag] } else none
  | none, some setting => some { setting := some (setting, value) }
  | none, none => none

/-- Short flags, and a setting behind which everything is its value. -/
def Dashed.ofShort? : List Char → Option Dashed
  | [] => some {}
  | c :: cs =>
    match Flag.ofShort? c, Setting.ofShort? c with
    | some flag, _ => (ofShort? cs).map fun rest => { rest with flags := flag :: rest.flags }
    | none, some setting =>
      let value := match cs with
        | [] => none
        | '=' :: value => some value
        | value => some value
      some { setting := some (setting, value) }
    | none, none => none

/-- The argument after its first dash, if it starts with one and has more. -/
def dashed? (arg : String) : Option (List Char) :=
  match arg.toList with
  | '-' :: c :: cs => some (c :: cs)
  | _ => none

def items? : List String → Option (List Item)
  | [] => some []
  | arg :: rest =>
    match dashed? arg with
    | none => (items? rest).map (.input arg :: ·)
    | some ['-'] => some (rest.map .input)
    | some cs => do
      let read ← match cs with
        | '-' :: name => Dashed.ofLong? name
        | cs => Dashed.ofShort? cs
      let flags := read.flags.map Item.flag
      match read.setting with
      | none => return flags ++ (← items? rest)
      | some (setting, some value) =>
        return flags ++ .setting setting (String.ofList value) :: (← items? rest)
      | some (setting, none) =>
        match rest with
        | [] => none
        | value :: rest =>
          if (dashed? value).isSome then none
          else return flags ++ .setting setting value :: (← items? rest)

structure Options where
  input : Option String := none
  examples : Bool := false
  transpile : Bool := false
  visualize : Bool := false
  format : Option Format := none
  output : Option String := none
  style : Diagram.Style := {}
  deriving DecidableEq, Repr

def Format.read? (value : String) : Option Format :=
  match value with
  | "svg" => some .svg
  | "ascii" => some .ascii
  | _ => none

/-- A size of at most 32 bits, with an optional sign; minus suits zero alone. -/
def size? (value : String) : Option Nat :=
  let (negative, digits) := Digits.takeSign value.toList
  let n := Digits.value digits
  if Digits.isNumber digits && n < pow2 32 && (!negative || n == 0) then some n else none

namespace Options

def apply (options : Options) : Item → Option Options
  | .flag .transpile => some { options with transpile := true }
  | .flag .visualize => some { options with visualize := true }
  | .flag .ascii => some { options with style := options.style.withCharset .ascii }
  | .flag .examples => some { options with examples := true }
  | .flag .quiet => some options
  | .flag .verbose => some options
  | .setting .format value => do return { options with format := some (← Format.read? value) }
  | .setting .output value => some { options with output := some value }
  | .setting .unitSize value => do
    return { options with style := options.style.withUnitSize (← size? value) }
  | .setting .lineWidth value => do
    return { options with style := options.style.withLineWidth (← size? value) }
  | .setting .padding value => do
    return { options with style := options.style.withPadding (← size? value) }
  | .setting .background value =>
    some { options with style := options.style.withBackground value }
  | .setting .stroke value => some { options with style := options.style.withStroke value }
  | .input path => some { options with input := some path }

/-- What may not stand twice on a command line: each flag but one, each setting, and
the input. -/
inductive Key where
  | flag (flag : Flag)
  | setting (setting : Setting)
  | input
  deriving DecidableEq, Repr

def key? : Item → Option Key
  | .flag .verbose => none
  | .flag flag => some (.flag flag)
  | .setting setting _ => some (.setting setting)
  | .input _ => some .input

def ofItems? (items : List Item) : Option Options := do
  let keys := items.filterMap key?
  guard (keys.eraseDups.length == keys.length)
  let options ← items.foldlM apply {}
  guard (!options.examples ||
    (options.input.isNone && !options.transpile && !options.visualize))
  return options

def parse? (args : List String) : Option Options :=
  (items? args).bind ofItems?

/-- Text pictures go to standard output and SVG to files, unless told otherwise. -/
def drawn (options : Options) : Format :=
  options.format.getD (if options.output.isSome then .svg else .ascii)

end Options
end ChurchScript.CommandLine
