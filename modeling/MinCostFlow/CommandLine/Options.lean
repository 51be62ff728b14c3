/-
  MinCostFlow.CommandLine.Options — the arguments of a run.

  Arguments are taken from left to right. One that starts with a dash is an option,
  `-` itself is a file, and everything after `--` is a file. The value of an option
  follows behind an equals sign or as the next argument, which then must not look like
  an option. No option may be given twice. The first argument that is wrong refuses the
  run, and the first request for the version or for help answers it.
-/

import MinCostFlow.Decimal

namespace MinCostFlow.CommandLine

structure Options where
  files : List String
  source : Option Nat
  sink : Option Nat
  /-- Leave the tables of costs and capacities out. -/
  noMatrices : Bool
  deriving DecidableEq, Repr

inductive Request where
  | solve (o : Options)
  | version
  | help
  | refused
  deriving DecidableEq, Repr

/-! ## Single arguments -/

inductive Argument where
  | plain (text : String)
  /-- An option by name, with the value that is attached to it. -/
  | long (name : String) (value : Option String)
  | short (letter : Char)
  deriving DecidableEq, Repr

/-- The name before the first equals sign, and the value after it. -/
def splitName (text : List Char) : String × Option String :=
  let name := String.ofList (text.takeWhile (· ≠ '='))
  match text.dropWhile (· ≠ '=') with
  | [] => (name, none)
  | _ :: value => (name, some (String.ofList value))

def Argument.ofString (arg : String) : Argument :=
  match arg.toList with
  | '-' :: '-' :: rest =>
    let (name, value) := splitName rest
    .long name value
  | '-' :: letter :: _ => .short letter
  | _ => .plain arg

/-! ## Options -/

inductive Terminal where
  | source
  | sink
  deriving DecidableEq, Repr

namespace Options

def none : Options := ⟨[], .none, .none, false⟩

def addFile (o : Options) (file : String) : Option Options :=
  if file = "" then .none else some { o with files := o.files ++ [file] }

def setTerminal (o : Options) (t : Terminal) (value : String) : Option Options :=
  match t, Decimal.index? value with
  | .source, some v => if o.source = .none then some { o with source := some v } else .none
  | .sink, some v => if o.sink = .none then some { o with sink := some v } else .none
  | _, .none => .none

def dropMatrices (o : Options) : Option Options :=
  if o.noMatrices then .none else some { o with noMatrices := true }

end Options

/-! ## Reading the arguments -/

/-- What has been read: options, and the terminal that the next argument is the value of. -/
inductive Progress where
  | reading (o : Options) (awaited : Option Terminal)
  | answered (x : Request)
  deriving DecidableEq, Repr

def Progress.ofOptions : Option Options → Progress
  | none => .answered .refused
  | some o => .reading o none

def readTerminal (o : Options) (t : Terminal) : Option String → Progress
  | none => .reading o (some t)
  | some value => .ofOptions (o.setTerminal t value)

def readArgument (o : Options) : Argument → Progress
  | .plain file => .ofOptions (o.addFile file)
  | .long "source" value => readTerminal o .source value
  | .long "sink" value => readTerminal o .sink value
  | .long "no-matrices" none => .ofOptions o.dropMatrices
  | .long "version" none => .answered .version
  | .long "help" none => .answered .help
  | .short 'V' => .answered .version
  | .short 'h' => .answered .help
  | _ => .answered .refused

def readValue (o : Options) (t : Terminal) : Argument → Progress
  | .plain value => .ofOptions (o.setTerminal t value)
  | _ => .answered .refused

/-- The request when all options have been read. -/
def conclude (o : Options) (files : List String) : Request :=
  match files.foldlM Options.addFile o with
  | none => .refused
  | some o => if o.files = [] then .refused else .solve o

def requestFrom : Progress → List String → Request
  | .answered x, _ => x
  | .reading o none, [] => conclude o []
  | .reading _ (some _), [] => .refused
  | .reading o none, arg :: rest =>
    if arg = "--" then conclude o rest
    else requestFrom (readArgument o (.ofString arg)) rest
  | .reading o (some t), arg :: rest => requestFrom (readValue o t (.ofString arg)) rest

def request (args : List String) : Request := requestFrom (.reading Options.none none) args

end MinCostFlow.CommandLine
