/-
  MinCostFlow.Proofs.CommandLine.Arguments — arguments that ask for given options.

  The same can be asked for in many ways: options in any order and before, between or behind
  files, values with an equals sign or as arguments of their own. But what is accepted always
  has terminals of 64 bits and at least one file, and no file has the empty name (`Accepted`):
  every step of the reader keeps that (`readArgument_fits`, `readValue_fits`), and at the end
  there has to be a file.

  Proved: what is accepted can be asked for in one particular way, with the options first and
  the files behind a `--`, where nothing that begins with a dash is an option
  (`request_arguments`). So whatever arguments ask for some files, there are arguments that ask
  for one of them alone with the same options (`request_alone`).
-/

import MinCostFlow.CommandLine.Options
import MinCostFlow.Proofs.NetworkFile.Numerals

namespace MinCostFlow.CommandLine

variable {o o' : Options} {t : Terminal} {args files rest : List String} {file text : String} {p : Progress}

namespace Options

def terminal (o : Options) : Terminal → Option Nat
  | .source => o.source
  | .sink => o.sink

def withTerminal (o : Options) (value : Option Nat) : Terminal → Options
  | .source => { o with source := value }
  | .sink => { o with sink := value }

theorem terminal_withTerminal (o : Options) (value : Option Nat) (t t' : Terminal) :
    (o.withTerminal value t).terminal t' = if t = t' then value else o.terminal t' := by
  cases t <;> cases t' <;> rfl

theorem files_withTerminal (o : Options) (value : Option Nat) (t : Terminal) :
    (o.withTerminal value t).files = o.files := by
  cases t <;> rfl

theorem setTerminal_eq_some : o.setTerminal t text = some o' ↔
    o.terminal t = .none ∧ ∃ v, Decimal.index? text = some v ∧ o' = o.withTerminal (some v) t := by
  unfold setTerminal
  cases t <;> cases Decimal.index? text <;> simp [terminal, withTerminal, eq_comm]

theorem addFile_eq_some : o.addFile file = some o' ↔ file ≠ "" ∧ o' = { o with files := o.files ++ [file] } := by
  unfold addFile
  split
  · simp [*]
  · simp [*, eq_comm]

theorem dropMatrices_eq_some : o.dropMatrices = some o' ↔ o.noMatrices = false ∧ o' = { o with noMatrices := true } := by
  unfold dropMatrices
  cases o.noMatrices with
  | true => simp
  | false =>
    simp only [Bool.false_eq_true, if_false, Option.some.injEq, true_and]
    exact eq_comm

end Options

/-! ## What is accepted -/

namespace Options

/-- What options are like at any point of the reading. -/
structure Fits (o : Options) : Prop where
  terminal_lt : ∀ t v, o.terminal t = some v → v < indexLimit
  names : ∀ file ∈ o.files, file ≠ ""

structure Accepted (o : Options) : Prop extends Fits o where
  some_file : o.files ≠ []

theorem none_fits : Fits Options.none := by
  refine ⟨fun t v h => ?_, fun _ h => by cases h⟩
  cases t <;> cases h

theorem addFile_fits (h : o.Fits) (ha : o.addFile file = some o') : o'.Fits := by
  obtain ⟨hne, rfl⟩ := addFile_eq_some.mp ha
  refine ⟨fun t v ht => h.terminal_lt t v (by cases t <;> exact ht), fun name hname => ?_⟩
  rcases List.mem_append.mp hname with hname | hname
  · exact h.names name hname
  · rwa [List.mem_singleton.mp hname]

theorem addFiles_fits (h : o.Fits) (ha : files.foldlM addFile o = some o') : o'.Fits := by
  induction files generalizing o with
  | nil =>
    obtain rfl := Option.some.inj ha
    exact h
  | cons file files ih =>
    rw [List.foldlM_cons, Option.bind_eq_bind, Option.bind_eq_some_iff] at ha
    obtain ⟨o1, h1, ha⟩ := ha
    exact ih (addFile_fits h h1) ha

theorem setTerminal_fits (h : o.Fits) (hs : o.setTerminal t text = some o') : o'.Fits := by
  obtain ⟨-, v, hv, rfl⟩ := setTerminal_eq_some.mp hs
  refine ⟨fun t' w hw => ?_, by rw [files_withTerminal]; exact h.names⟩
  rw [terminal_withTerminal] at hw
  split at hw
  · obtain rfl := Option.some.inj hw
    exact (Decimal.index?_eq_some.mp hv).1
  · exact h.terminal_lt t' w hw

theorem dropMatrices_fits (h : o.Fits) (hd : o.dropMatrices = some o') : o'.Fits := by
  obtain ⟨-, rfl⟩ := dropMatrices_eq_some.mp hd
  exact ⟨fun t v ht => h.terminal_lt t v (by cases t <;> exact ht), h.names⟩

end Options

/-- Whatever goes on to be read or to be solved has such options. -/
def Progress.Fits : Progress → Prop
  | .reading o _ => o.Fits
  | .answered x => ∀ o, x ≠ .solve o

theorem ofOptions_fits {x : Option Options} (h : ∀ o, x = some o → o.Fits) : (Progress.ofOptions x).Fits := by
  cases x with
  | none => exact fun _ h => by cases h
  | some o => exact h o rfl

theorem readTerminal_fits (h : o.Fits) (t : Terminal) (value : Option String) : (readTerminal o t value).Fits := by
  cases value with
  | none => exact h
  | some value => exact ofOptions_fits fun _ hs => Options.setTerminal_fits h hs

theorem readArgument_fits (h : o.Fits) (a : Argument) : (readArgument o a).Fits := by
  unfold readArgument
  split
  · exact ofOptions_fits fun _ ha => Options.addFile_fits h ha
  · exact readTerminal_fits h .source _
  · exact readTerminal_fits h .sink _
  · exact ofOptions_fits fun _ hd => Options.dropMatrices_fits h hd
  all_goals exact fun _ h => by cases h

theorem readValue_fits (h : o.Fits) (t : Terminal) (a : Argument) : (readValue o t a).Fits := by
  unfold readValue
  split
  · exact ofOptions_fits fun _ hs => Options.setTerminal_fits h hs
  · exact fun _ h => by cases h

theorem conclude_accepted (h : o.Fits) (hc : conclude o files = .solve o') : o'.Accepted := by
  unfold conclude at hc
  split at hc
  · cases hc
  · rename_i o1 h1
    split at hc
    · cases hc
    · obtain rfl := Request.solve.inj hc
      exact ⟨Options.addFiles_fits h h1, ‹_›⟩

theorem requestFrom_accepted (hp : p.Fits) (h : requestFrom p args = .solve o) : o.Accepted := by
  fun_induction requestFrom p args with
  | case1 x => exact absurd h (hp o)
  | case2 o1 => exact conclude_accepted hp h
  | case3 => cases h
  | case4 o1 rest => exact conclude_accepted hp h
  | case5 o1 arg rest hne ih => exact ih (readArgument_fits hp _) h
  | case6 o1 t arg rest ih => exact ih (readValue_fits hp t _) h

theorem request_accepted (h : request args = .solve o) : o.Accepted :=
  requestFrom_accepted (p := .reading .none .none) Options.none_fits h

/-! ## Asking for it -/

def Terminal.option : Terminal → String
  | .source => "--source"
  | .sink => "--sink"

/-- The arguments that give a terminal this value. -/
def Terminal.arguments (t : Terminal) (value : Option Nat) : List String :=
  value.toList.flatMap fun v => [t.option, toString v]

/-- The options one after the other, and then the files. -/
def Options.arguments (o : Options) : List String :=
  Terminal.source.arguments o.source ++ (Terminal.sink.arguments o.sink ++
    ((if o.noMatrices then ["--no-matrices"] else []) ++ "--" :: o.files))

/-- The arguments for one file, with the same options. -/
def Options.alone (o : Options) (file : String) : List String := { o with files := [file] }.arguments

theorem ofString_toString (v : Nat) : Argument.ofString (toString v) = .plain (toString v) := by
  have hdigits : ∀ c ∈ (toString v).toList, c.isDigit = true := (Decimal.numeral_toString v).2.1
  unfold Argument.ofString
  split
  · rename_i h
    rw [h] at hdigits
    cases hdigits '-' (List.mem_cons_self ..)
  · rename_i h
    rw [h] at hdigits
    cases hdigits '-' (List.mem_cons_self ..)
  · rfl

theorem readArgument_option (o : Options) (t : Terminal) :
    t.option ≠ "--" ∧ readArgument o (.ofString t.option) = .reading o (some t) := by
  have hsource : Argument.ofString "--source" = .long "source" none := by decide
  have hsink : Argument.ofString "--sink" = .long "sink" none := by decide
  cases t with
  | source => exact ⟨by decide, by rw [Terminal.option, hsource]; rfl⟩
  | sink => exact ⟨by decide, by rw [Terminal.option, hsink]; rfl⟩

theorem requestFrom_terminal (t : Terminal) {value : Option Nat} (ho : o.terminal t = none)
    (hvalue : ∀ v, value = some v → v < indexLimit) (rest : List String) :
    requestFrom (.reading o none) (t.arguments value ++ rest) =
      requestFrom (.reading (o.withTerminal value t) none) rest := by
  cases value with
  | none =>
    have hsame : o.withTerminal none t = o := by cases t <;> cases o <;> cases ho <;> rfl
    rw [hsame]
    rfl
  | some v =>
    have hindex : Decimal.index? (toString v) = some v :=
      Decimal.index?_eq_some.mpr (Decimal.writesIndex_toString (hvalue v rfl))
    have hset : o.setTerminal t (toString v) = some (o.withTerminal (some v) t) :=
      Options.setTerminal_eq_some.mpr ⟨ho, v, hindex, rfl⟩
    obtain ⟨hne, hoption⟩ := readArgument_option o t
    show requestFrom (.reading o none) (t.option :: toString v :: rest) = _
    rw [requestFrom, if_neg hne, hoption, requestFrom, ofString_toString, readValue, hset]
    rfl

theorem requestFrom_noMatrices (ho : o.noMatrices = false) (b : Bool) (rest : List String) :
    requestFrom (.reading o none) ((if b then ["--no-matrices"] else []) ++ rest) =
      requestFrom (.reading { o with noMatrices := b } none) rest := by
  cases b with
  | false =>
    have hsame : { o with noMatrices := false } = o := by cases o; cases ho; rfl
    rw [hsame]
    rfl
  | true =>
    have hoption : Argument.ofString "--no-matrices" = .long "no-matrices" none := by decide
    have hdrop : o.dropMatrices = some { o with noMatrices := true } := Options.dropMatrices_eq_some.mpr ⟨ho, rfl⟩
    show requestFrom (.reading o none) ("--no-matrices" :: rest) = _
    rw [requestFrom, if_neg (by decide), hoption]
    show requestFrom (.ofOptions o.dropMatrices) rest = _
    rw [hdrop]
    rfl

theorem addFiles_eq_some (h : ∀ file ∈ files, file ≠ "") :
    files.foldlM Options.addFile o = some { o with files := o.files ++ files } := by
  induction files generalizing o with
  | nil => simp
  | cons file files ih =>
    have hadd : o.addFile file = some { o with files := o.files ++ [file] } :=
      Options.addFile_eq_some.mpr ⟨h file (List.mem_cons_self ..), rfl⟩
    rw [List.foldlM_cons, hadd]
    show files.foldlM Options.addFile { o with files := o.files ++ [file] } = _
    rw [ih fun name hname => h name (List.mem_cons_of_mem _ hname)]
    simp

theorem request_arguments (h : o.Accepted) : request o.arguments = .solve o := by
  have hsource : ∀ v, o.source = some v → v < indexLimit := h.terminal_lt .source
  have hsink : ∀ v, o.sink = some v → v < indexLimit := h.terminal_lt .sink
  unfold request Options.arguments
  rw [requestFrom_terminal .source rfl hsource, requestFrom_terminal .sink rfl hsink, requestFrom_noMatrices rfl,
    requestFrom, if_pos rfl, conclude, addFiles_eq_some h.names]
  exact if_neg h.some_file

/-- Whatever the arguments are like, there are some that ask for one of the files with the same options. -/
theorem request_alone (h : request args = .solve o) (hfile : file ∈ o.files) :
    request (o.alone file) = .solve { o with files := [file] } := by
  have haccepted := request_accepted h
  apply request_arguments
  refine ⟨⟨fun t v ht => haccepted.terminal_lt t v (by cases t <;> exact ht), fun name hname => ?_⟩, List.cons_ne_nil _ _⟩
  rw [List.mem_singleton.mp hname]
  exact haccepted.names file hfile

end MinCostFlow.CommandLine
