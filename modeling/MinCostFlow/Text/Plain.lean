/-
  MinCostFlow.Text.Plain — text without control functions.

  A terminal acts on control characters and on the sequences that an escape character
  starts. `plain` drops both and keeps the text between them. White space is no
  control character here: it is kept in ordinary text, and in the part of a sequence
  that may still hold control characters too. In the latter case the sequence is
  suspended: what follows is ordinary text up to the next character that is not, and
  with that one the sequence goes on unless ordinary text outside of ASCII came between.

  Proved: only plain characters are left (`isPlain_of_mem_plainChars`), and a text of
  plain characters is left as it is (`plainChars_eq_self`).
-/

namespace MinCostFlow.Text

/-- How far a sequence has got. -/
inductive Control where
  /-- Ordinary text. -/
  | none
  | escape
  | escapeIntermediate
  /-- From `ESC [` to a final character. -/
  | sequence
  /-- After `ESC P`, before the device string. -/
  | deviceStart
  | deviceParameters
  | deviceIntermediate
  /-- A string that the byte 9C ends. -/
  | string
  /-- A string after `ESC ]`, which the bell ends. -/
  | command
  deriving DecidableEq, Repr

/-- The code of `c` is one of `low` to `high`. -/
def within (c : Char) (low high : Nat) : Bool := low ≤ c.toNat && c.toNat ≤ high

def isSpaceControl (c : Char) : Bool := c == '\t' || c == '\n' || c == '\x0c' || c == '\r'

/-- A character of ordinary text. -/
def isPlain (c : Char) : Bool := isSpaceControl c || (0x20 ≤ c.toNat && c.toNat != 0x7F)

/-- Whether one of the bytes of `c` is 9C, the terminator of strings. -/
def hasTerminator (c : Char) : Bool := (String.utf8EncodeChar c).contains 0x9C

namespace Control

/-- What the character after an escape character starts. -/
def afterEscape (c : Char) : Control :=
  if c = '[' then .sequence
  else if c = ']' then .command
  else if c = 'P' then .deviceStart
  else if c = 'X' ∨ c = '^' ∨ c = '_' then .string
  else if within c 0x20 0x2F then .escapeIntermediate
  else if within c 0x30 0x7E then .none
  else .escape

/-- What comes after `c`. Cancel and substitute end everything, and escape starts anew. -/
def next (s : Control) (c : Char) : Control :=
  if c = '\x18' ∨ c = '\x1a' then .none
  else if c = '\x1b' then .escape
  else match s with
    | .none => .none
    | .escape => afterEscape c
    | .escapeIntermediate => if within c 0x30 0x7E then .none else s
    | .sequence => if within c 0x40 0x7E then .none else s
    | .deviceStart =>
      if within c 0x20 0x2F then .deviceIntermediate
      else if within c 0x30 0x3F then .deviceParameters
      else if within c 0x40 0x7E then .string
      else s
    | .deviceParameters =>
      if within c 0x20 0x2F then .deviceIntermediate
      else if within c 0x3C 0x7E then .string
      else s
    | .deviceIntermediate => if within c 0x30 0x7E then .string else s
    | .string => if hasTerminator c then .none else s
    | .command => if c = '\x07' then .none else s

/-- The characters that are text at this point. -/
def keeps (s : Control) (c : Char) : Bool :=
  match s with
  | .none => isPlain c
  | .escape | .escapeIntermediate | .sequence => isSpaceControl c
  | _ => false

/-- The sequence that a kept character suspends. -/
def suspendedBy (s : Control) (c : Char) : Control := if c.toNat < 0x80 then s else .none

/-- A suspended sequence lets text pass as if there were none. -/
def unlessSuspended (s : Control) (suspended : Bool) : Control := if suspended then .none else s

end Control

/-- What is kept from the state `s` on, which may be suspended. -/
def plainFrom (suspended : Bool) (s : Control) : List Char → List Char
  | [] => []
  | c :: rest =>
    if (s.unlessSuspended suspended).keeps c then c :: plainFrom true (s.suspendedBy c) rest
    else plainFrom false (s.next c) rest

def plainChars (text : List Char) : List Char := plainFrom false .none text

def plain (text : String) : String := String.ofList (plainChars text.toList)

theorem isPlain_of_keeps {s : Control} {c : Char} (h : s.keeps c = true) : isPlain c = true := by
  cases s <;> simp_all [Control.keeps, isPlain]

theorem isPlain_of_mem_plainFrom (suspended : Bool) (s : Control) {text : List Char} {c : Char}
    (h : c ∈ plainFrom suspended s text) : isPlain c = true := by
  induction text generalizing suspended s with
  | nil => simp [plainFrom] at h
  | cons d rest ih =>
    rw [plainFrom] at h
    split at h
    · rename_i hk
      rcases List.mem_cons.mp h with rfl | h
      · exact isPlain_of_keeps hk
      · exact ih _ _ h
    · exact ih _ _ h

theorem isPlain_of_mem_plainChars {text : List Char} {c : Char} (h : c ∈ plainChars text) :
    isPlain c = true :=
  isPlain_of_mem_plainFrom false .none h

theorem plainFrom_eq_self (suspended : Bool) {text : List Char} (h : ∀ c ∈ text, isPlain c = true) :
    plainFrom suspended .none text = text := by
  induction text generalizing suspended with
  | nil => rfl
  | cons c rest ih =>
    have hk : (Control.none.unlessSuspended suspended).keeps c = true := by
      cases suspended <;> exact h c List.mem_cons_self
    have hs : Control.none.suspendedBy c = .none := by simp [Control.suspendedBy]
    rw [plainFrom, if_pos hk, hs, ih true fun d hd => h d (List.mem_cons_of_mem c hd)]

theorem plainChars_eq_self {text : List Char} (h : ∀ c ∈ text, isPlain c = true) :
    plainChars text = text :=
  plainFrom_eq_self false h

end MinCostFlow.Text
