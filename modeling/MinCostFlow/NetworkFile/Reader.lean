/-
  MinCostFlow.NetworkFile.Reader — from the text of a file to a network.

  The first token is the number of vertices. Every four tokens after it are an arc: its
  tail, head, capacity and cost. Tokens are read in order and the first fault is
  reported; an arc is added as soon as it is read.
-/

import MinCostFlow.Decimal
import MinCostFlow.NetworkFile.Error

namespace MinCostFlow.NetworkFile

/-- Read a token as a field whose form `read` knows. -/
def Token.readAs {α : Type} (t : Token) (field : Field) (read : String → Option α) :
    Except (Failure ReadError) α :=
  expect (.error (.format (.invalid field t))) (read t.text)

/-- The failure to add an arc that starts on this line. -/
def atLine (number : Nat) : Failure ArcError → Failure ReadError
  | .error e => .error (.arc number e)
  | .fault f => .fault f

/-- An arc that lacks its fields from `field` on. -/
def cutShort {α : Type} (field : Field) (first : Token) : Except (Failure ReadError) α :=
  .error (.error (.format (.truncated field first.line)))

/-- Add the arcs that the tokens describe. -/
def readArcs (r : IntRange) {n : Nat} (g : Network n) : List Token → Except (Failure ReadError) (Network n)
  | [] => .ok g
  | [t] => do
    let _ ← t.readAs .tail Decimal.index?
    cutShort .head t
  | [t, h] => do
    let _ ← t.readAs .tail Decimal.index?
    let _ ← h.readAs .head Decimal.index?
    cutShort .capacity t
  | [t, h, c] => do
    let _ ← t.readAs .tail Decimal.index?
    let _ ← h.readAs .head Decimal.index?
    let _ ← c.readAs .capacity (Decimal.value? r)
    cutShort .cost t
  | t :: h :: c :: k :: rest => do
    let tail ← t.readAs .tail Decimal.index?
    let head ← h.readAs .head Decimal.index?
    let capacity ← c.readAs .capacity (Decimal.value? r)
    let cost ← k.readAs .cost (Decimal.value? r)
    let g' ← (g.addArc r tail head capacity cost).mapError (atLine t.line.number)
    readArcs r g' rest

/-- The network that a text describes. -/
def read (r : IntRange) (text : String) : Except (Failure ReadError) ((n : Nat) × Network n) :=
  match tokens text with
  | [] => .error (.error (.format .missingVertexCount))
  | t :: rest => do
    let n ← t.readAs .vertexCount Decimal.index?
    demand (.error (.format (.tooManyVertices n t.line))) (n ≤ maxVertexCount)
    let g ← readArcs r (Network.empty n) rest
    return ⟨n, g⟩

/-- The text of a file of which the system gives the bytes, or a reason why it does not. -/
def decode : Except String ByteArray → Except ReadError String
  | .error reason => .error (.unreadable reason)
  | .ok bytes =>
    match String.fromUTF8? bytes with
    | some text => .ok text
    | none => .error (.unreadable "stream did not contain valid UTF-8")

/-- The network in a file. -/
def load (r : IntRange) (contents : Except String ByteArray) :
    Except (Failure ReadError) ((n : Nat) × Network n) := do
  let text ← orError (decode contents)
  read r text

end MinCostFlow.NetworkFile
