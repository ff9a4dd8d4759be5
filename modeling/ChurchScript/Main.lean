import ChurchScript.CommandLine.Run

/-!
# The command

Connects a run to the process: arguments, files and standard streams.
-/
namespace ChurchScript

open CommandLine

def faultOfCode (code : UInt32) : FileFault :=
  if code == 20 then .notDirectory else if code == 21 then .isDirectory else .notFound

def faultOf : IO.Error → FileFault
  | .inappropriateType _ code _ => faultOfCode code
  | .resourceVanished code _ => faultOfCode code
  | .otherError code _ => faultOfCode code
  | _ => .notFound

def attempt {α : Type} (action : IO α) : IO (Except FileFault α) := do
  try return .ok (← action) catch e => return .error (faultOf e)

def processHost : Host IO where
  readInput := do (← IO.getStdin).readBinToEnd
  readFile path := attempt (IO.FS.readBinFile path)
  writeFile path contents := attempt (IO.FS.writeFile path contents)

end ChurchScript

def main (args : List String) : IO UInt32 := do
  let outcome ← ChurchScript.CommandLine.run ChurchScript.processHost args
  IO.print outcome.printed
  match outcome with
  | .done _ => pure ()
  | .failed message => IO.eprintln message
  | .misused => IO.eprintln "error: the arguments make no sense"
  return outcome.exitCode.toUInt32
