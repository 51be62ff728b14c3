/-
  MinCostFlow.NetworkFile.Error — why a network file is refused.

  Faults in the form of a file are described together with the line they are on. An arc
  of good form that the network does not take is reported with the line it starts on,
  and what the network says against it is the cause.
-/

import MinCostFlow.Network.Basic
import MinCostFlow.NetworkFile.Token

namespace MinCostFlow.NetworkFile

/-- A description of what is wrong, and the line where it is if that is known. -/
structure Diagnostic where
  description : String
  line : Option Line
  deriving DecidableEq, Repr

def Diagnostic.message (d : Diagnostic) : String :=
  match d.line with
  | none => d.description
  | some line => s!"{d.description}\n\tCaused at line\t{line.number}:\t{line.text}"

/-- What a token stands for. -/
inductive Field where
  | vertexCount
  | tail
  | head
  | capacity
  | cost
  deriving DecidableEq, Repr

def Field.name : Field → String
  | .vertexCount => "vertex count"
  | .tail => "tail vertex"
  | .head => "head vertex"
  | .capacity => "capacity"
  | .cost => "cost"

/-- The greatest number of vertices that a file may ask for. -/
def maxVertexCount : Nat := 4096

inductive FormatError where
  | missingVertexCount
  | invalid (field : Field) (token : Token)
  | tooManyVertices (vertexCount : Nat) (line : Line)
  /-- The file ends before this field of an arc that starts on `line`. -/
  | truncated (field : Field) (line : Line)
  deriving DecidableEq, Repr

def FormatError.diagnostic : FormatError → Diagnostic
  | .missingVertexCount => ⟨"The vertex count is missing", none⟩
  | .invalid field token => ⟨s!"Invalid {field.name}: \"{token.text}\"", some token.line⟩
  | .tooManyVertices vertexCount line =>
    ⟨s!"The vertex count {vertexCount} exceeds the maximum of {maxVertexCount}", some line⟩
  | .truncated field line =>
    ⟨s!"Input ends before the {field.name} of the arc starting on this line", some line⟩

inductive ReadError where
  /-- The file could not be read, for a reason that the system gives. -/
  | unreadable (reason : String)
  | format (e : FormatError)
  | arc (lineNumber : Nat) (e : ArcError)
  deriving DecidableEq, Repr

namespace ReadError

def message : ReadError → String
  | unreadable _ => "could not read the file"
  | format e => e.diagnostic.message
  | arc lineNumber _ => s!"invalid arc on line {lineNumber}"

/-- What led to the error, in words that are not part of its own message. -/
def causes : ReadError → List String
  | unreadable reason => [reason]
  | format _ => []
  | arc _ e => [e.message]

def lineNumber? : ReadError → Option Nat
  | unreadable _ => none
  | format e => e.diagnostic.line.map (·.number)
  | arc lineNumber _ => some lineNumber

end ReadError

end MinCostFlow.NetworkFile
