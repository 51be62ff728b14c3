/-
  MinCostFlow.Log.Record — messages about the course of a run.

  A record has a level of importance, a target that names the part it comes from, and a
  message. Further lines of a message are indented below the first. A log may be read on
  a terminal, so control functions in a record are dropped. That happens record by record
  and includes the end of the last line: a record in which a control string is left open
  takes the next record onto its line.
-/

import MinCostFlow.Text.Align
import MinCostFlow.Text.Plain

namespace MinCostFlow.Log

inductive Level where
  | error
  | warn
  | info
  | debug
  | trace
  deriving DecidableEq, Repr

namespace Level

def name : Level → String
  | error => "ERROR"
  | warn => "WARN"
  | info => "INFO"
  | debug => "DEBUG"
  | trace => "TRACE"

/-- The more detail, the higher. -/
def detail : Level → Nat
  | error => 1
  | warn => 2
  | info => 3
  | debug => 4
  | trace => 5

end Level

/-- The greatest detail that is shown; nothing is if there is none. -/
abbrev Verbosity := Option Level

def Verbosity.shows (v : Verbosity) (l : Level) : Bool := v.any (l.detail ≤ ·.detail)

structure Record where
  level : Level
  target : String
  message : String
  deriving DecidableEq, Repr

namespace Record

/-- The message behind its level and target. -/
def full (x : Record) : String :=
  let message := String.intercalate "\n    " (x.message.splitOn "\n")
  s!"{Text.alignLeft 5 x.level.name} {x.target}] {message}\n"

def text (x : Record) : String := Text.plain x.full

end Record

/-- The records that are shown. -/
def shown (v : Verbosity) (records : List Record) : List Record := records.filter (v.shows ·.level)

/-- The lines of a text; what follows the last line feed is one if it is not empty. -/
def linesOf (text : String) : List String :=
  let pieces := text.splitOn "\n"
  pieces.dropLast ++ pieces.getLast?.toList.filter (· ≠ "")

/-- The lines of the records that are shown. -/
def lines (v : Verbosity) (records : List Record) : List String :=
  linesOf (String.join ((shown v records).map (·.text)))

end MinCostFlow.Log
