/-
  MinCostFlow.CommandLine.Session — solving the files that are named on the command
  line.

  Every file has a section of its own in the output, whatever happens to the others. A
  file that cannot be solved is skipped with a record in the log, and the run fails in
  the end. A fault ends the run at once, after what has been printed until then.
-/

import MinCostFlow.CommandLine.Options
import MinCostFlow.Log.Solving
import MinCostFlow.Network.Cut
import MinCostFlow.NetworkFile.Reader
import MinCostFlow.Report.Summary
import MinCostFlow.Report.Table

namespace MinCostFlow.CommandLine

/-- Capacities, costs and flows have 64 bits. -/
def range : IntRange := IntRange.ofBits 64

def programTarget : String := "remcf"

def versionText : String := "remcf 0.1.0\n"

/-- Why a file could not be solved. -/
inductive FileError where
  | read (e : NetworkFile.ReadError)
  | terminals (e : ArcError)
  | solve (e : SolveError)
  deriving DecidableEq, Repr

/-- The error and what caused it, from the outside in. -/
def FileError.messages : FileError → List String
  | .read e => e.message :: e.causes
  | .terminals e => ["invalid terminals", e.message]
  | .solve e => [e.message]

/-- Carry a failure of one step into the failures of the whole. -/
def wrap {ε δ α : Type} (f : ε → δ) : Except (Failure ε) α → Except (Failure δ) α :=
  Except.mapError fun
    | .error e => .error (f e)
    | .fault x => .fault x

/-- What a file adds to the output and to the log, and whether it was solved. -/
structure Section where
  output : String
  log : List Log.Record
  ending : Except (Failure FileError) Unit

def tables {n : Nat} (g : Network n) : String :=
  Report.labeledTable "Edge Cost" g.cost ++ "\n" ++ Report.labeledTable "Capacity" g.capacity ++ "\n"

/-- The summary of a solve that has succeeded. -/
def conclusion {n : Nat} (x : Solution n) : Except (Failure FileError) String := do
  let result ← wrap .solve x.outcome
  let cut ← orError ((x.network.minimumCut x.network.source).mapError .terminals)
  orFault (Report.summary range x.network result (cut.map (·.val)))

/-- Solve a network between its terminals, after `output` has been printed. -/
def solveNetwork {n : Nat} (output : String) (log : List Log.Record) (g : Network n) : Section :=
  let x := g.solve range
  let log := log ++ Log.solution g.source g.sink x
  match conclusion x with
  | .error e => ⟨output, log, .error e⟩
  | .ok text => ⟨output ++ text, log, .ok ()⟩

def solveFile (o : Options) (path : String) (contents : Except String ByteArray) : Section :=
  let header := s!"\n****Find Flow {path}\n"
  match wrap .read (NetworkFile.load range contents) with
  | .error e => ⟨header, [], .error e⟩
  | .ok ⟨n, g⟩ =>
    let log := [⟨.info, programTarget, s!"Read {n} vertices from \"{path}\""⟩]
    match g.setTerminals (o.source.getD g.source) (o.sink.getD g.sink) with
    | .error e => ⟨header, log, .error (.error (.terminals e))⟩
    | .ok g => solveNetwork (if o.noMatrices then header else header ++ tables g) log g

/-- How a run ended. -/
inductive Ending where
  | exit (code : Nat)
  | stopped (f : Fault)
  deriving DecidableEq, Repr

structure Transcript where
  output : String
  log : List Log.Record
  ending : Ending
  deriving DecidableEq, Repr

def skipping (path : String) (e : FileError) : Log.Record :=
  let reasons := String.intercalate ": " e.messages
  ⟨.error, programTarget, s!"Skipping \"{path}\": {reasons}"⟩

/-- The end of a run over `total` files of which `failed` were skipped. -/
def closing (failed total : Nat) : Transcript :=
  if failed = 0 then ⟨"", [], .exit 0⟩
  else ⟨"", [⟨.error, programTarget, s!"{failed} of {total} files could not be solved"⟩], .exit 1⟩

/-- What came before, and then the rest. -/
def Transcript.after (output : String) (log : List Log.Record) (x : Transcript) : Transcript :=
  ⟨output ++ x.output, log ++ x.log, x.ending⟩

/-- Solve the files one after the other, when `failed` others have been skipped. A command line never holds
`counterLimit` files, so there are never too many to count. -/
def solveFiles (o : Options) (contents : String → Except String ByteArray) (failed : Nat) :
    List String → Transcript
  | [] => closing failed o.files.length
  | path :: rest =>
    let s := solveFile o path (contents path)
    match s.ending with
    | .ok () => (solveFiles o contents failed rest).after s.output s.log
    | .error (.error e) =>
      (solveFiles o contents (failed + 1) rest).after s.output (s.log ++ [skipping path e])
    | .error (.fault f) => ⟨s.output, s.log, .stopped f⟩

def helpText : String :=
  "Usage: remcf [OPTIONS] <FILES>...\n\n" ++
  "Each file holds a vertex count followed by arcs, written as four integers: tail, head,\n" ++
  "capacity and cost. Flow is sent from the first to the last vertex unless specified\n" ++
  "otherwise.\n\n" ++
  "Options:\n" ++
  "      --source <SOURCE>  Vertex at which all flow starts\n" ++
  "      --sink <SINK>      Vertex at which all flow ends\n" ++
  "      --no-matrices      Leave the cost and capacity matrices out\n" ++
  "  -h, --help             Print help\n" ++
  "  -V, --version          Print version\n"

/-- The run that the arguments ask for, where `contents` reads a file. -/
def run (args : List String) (contents : String → Except String ByteArray) : Transcript :=
  match request args with
  | .refused => ⟨"", [], .exit 2⟩
  | .version => ⟨versionText, [], .exit 0⟩
  | .help => ⟨helpText, [], .exit 0⟩
  | .solve o => solveFiles o contents 0 o.files

end MinCostFlow.CommandLine
