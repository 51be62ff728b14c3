/-
  MinCostFlow.Main — the program.

  Reads the files that are named on the command line and prints what the session
  answers. The log goes to standard error, without a time.
-/

import MinCostFlow.CommandLine.Session

namespace MinCostFlow.Program

/-- The verbosity that a name stands for. The empty name stands for errors, and any other text that
is no level for silence. -/
def verbosityNamed (name : String) : Log.Verbosity :=
  if name = "" then some .error
  else [Log.Level.error, .warn, .info, .debug, .trace].find? (·.name = name.toUpper)

/-- What the system calls an error of this number. -/
def systemText (number : Nat) (otherwise : String) : String :=
  match number with
  | 2 => "No such file or directory"
  | 13 => "Permission denied"
  | 20 => "Not a directory"
  | 21 => "Is a directory"
  | 36 => "File name too long"
  | 40 => "Too many levels of symbolic links"
  | _ => otherwise

/-- The reason with its number, which some calls give with a minus sign. -/
def reasonNumbered (code : UInt32) (otherwise : String) : String :=
  let number := min code.toNat (-code).toNat
  s!"{systemText number otherwise} (os error {number})"

/-- The reason that the system gives for not reading a file. -/
def reason : IO.Error → String
  | .noFileOrDirectory .. => reasonNumbered 2 ""
  | .permissionDenied _ code detail => reasonNumbered code detail
  | .inappropriateType _ code detail => reasonNumbered code detail
  | .invalidArgument _ code detail => reasonNumbered code detail
  | .otherError code detail => reasonNumbered code detail
  | e => toString e

/-- The bytes of a file, or the reason why there are none. -/
def contentsOf (path : String) : IO (Except String ByteArray) := do
  try
    return .ok (← IO.FS.readBinFile path)
  catch e =>
    return .error (reason e)

/-- Run the session on the files as they are, print what it answers, and end with its code. -/
def run (args : List String) : IO UInt32 := do
  let verbosity := ((← IO.getEnv "RUST_LOG").map verbosityNamed).getD (some .warn)
  let files := match CommandLine.request args with
    | .solve o => o.files
    | _ => []
  let contents ← files.mapM fun path => return (path, ← contentsOf path)
  let x := CommandLine.run args fun path => (contents.lookup path).getD (.error "not read")
  IO.print x.output
  for record in Log.shown verbosity x.log do
    IO.eprint ("[" ++ record.text)
  match x.ending with
  | .exit code => return code.toUInt32
  | .stopped f =>
    IO.eprintln f.message
    return 101

end MinCostFlow.Program

def main (args : List String) : IO UInt32 := MinCostFlow.Program.run args
