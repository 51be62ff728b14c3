/-
  MinCostFlow.Proofs.CommandLine.Files — a run over several files, and runs over each of them.

  A section depends on its file, on the terminals and on whether tables are asked for, but not on
  the other files, and all that passes from one file to the next is how many were skipped. So a
  run whose files all end without a fault is the sections one after the other, and then the
  closing record, which counts (`solveFiles_eq`). A run over one of the files has the same
  section (`run_alone`).

  Proved, of all arguments that are accepted and all contents: what a run over several files
  prints and logs, and what it ends with, is put together from the runs over each file alone
  with the same options (`run_together`). Only the closing records are not passed on.
-/

import MinCostFlow.Proofs.CommandLine.Arguments
import MinCostFlow.Proofs.CommandLine.Sections

namespace MinCostFlow.CommandLine

variable {o : Options} {contents : String → Except String ByteArray} {args paths : List String} {path : String}
  {failed total : Nat}

/-! ## One section after the other -/

namespace Section

/-- What a section adds to the log, with the record of a file that is skipped. -/
def records (x : Section) (path : String) : List Log.Record :=
  match x.ending with
  | .error (.error e) => x.log ++ [skipping path e]
  | _ => x.log

def skipped (x : Section) : Bool :=
  match x.ending with
  | .ok () => false
  | .error _ => true

def Finished (x : Section) : Prop := ∀ f, x.ending ≠ .error (.fault f)

end Section

/-- The section of a file in a run with these options. -/
def sectionOf (o : Options) (contents : String → Except String ByteArray) (path : String) : Section :=
  solveFile o path (contents path)

theorem Transcript.after_after (x : Transcript) (a b : String) (k l : List Log.Record) :
    (x.after b l).after a k = x.after (a ++ b) (k ++ l) := by
  simp [Transcript.after, String.append_assoc]

theorem solveFiles_cons (h : (sectionOf o contents path).Finished) :
    solveFiles o contents failed (path :: paths) =
      (solveFiles o contents (failed + if (sectionOf o contents path).skipped then 1 else 0) paths).after
        (sectionOf o contents path).output ((sectionOf o contents path).records path) := by
  have hsection : solveFile o path (contents path) = sectionOf o contents path := rfl
  rw [solveFiles, hsection]
  generalize sectionOf o contents path = x at h
  obtain ⟨output, log, ending⟩ := x
  cases ending with
  | ok u => rfl
  | error e =>
    cases e with
    | error e => rfl
    | fault f => exact absurd rfl (h f)

/-- Nothing passes from one section to the next but the number of files that were skipped. -/
theorem solveFiles_eq (h : ∀ path ∈ paths, (sectionOf o contents path).Finished) :
    solveFiles o contents failed paths =
      (closing (failed + paths.countP fun path => (sectionOf o contents path).skipped) o.files.length).after
        (String.join (paths.map fun path => (sectionOf o contents path).output))
        (paths.flatMap fun path => (sectionOf o contents path).records path) := by
  induction paths generalizing failed with
  | nil => simp [solveFiles, Transcript.after]
  | cons path paths ih =>
    have hcount : ∀ k, failed + (if (sectionOf o contents path).skipped then 1 else 0) + k =
        failed + (k + if (sectionOf o contents path).skipped then 1 else 0) := by omega
    rw [solveFiles_cons (h path (List.mem_cons_self ..)), ih fun p hp => h p (List.mem_cons_of_mem path hp),
      Transcript.after_after, List.countP_cons, List.map_cons, String.join_cons, List.flatMap_cons, hcount]

/-! ## A file alone -/

/-- The other files make no difference to a section. -/
theorem sectionOf_files (o : Options) (contents : String → Except String ByteArray) (files : List String) :
    sectionOf { o with files := files } contents = sectionOf o contents := rfl

theorem run_alone (h : request args = .solve o) (hpath : path ∈ o.files) :
    run (o.alone path) contents = solveFiles { o with files := [path] } contents 0 [path] := by
  rw [run, request_alone h hpath]

/-- A file that does not stop a run over it alone does not stop any run. -/
theorem finished_of_alone (h : request args = .solve o) (hpath : path ∈ o.files)
    (hend : ∀ f, (run (o.alone path) contents).ending ≠ .stopped f) : (sectionOf o contents path).Finished := by
  intro f hf
  apply hend f
  rw [run_alone h hpath, solveFiles]
  have hsection : solveFile { o with files := [path] } path (contents path) = sectionOf o contents path := rfl
  simp only [hsection, hf]

/-! ## All files together -/

/-- The record that a run ends with if files were skipped. -/
def counted (failed total : Nat) : Log.Record :=
  ⟨.error, programTarget, s!"{failed} of {total} files could not be solved"⟩

theorem closing_eq (failed total : Nat) :
    closing failed total =
      ⟨"", if failed ≠ 0 then [counted failed total] else [], .exit (if failed ≠ 0 then 1 else 0)⟩ := by
  by_cases h : failed = 0
  · simp [closing, h]
  · simp [closing, h, counted]

/-- A run over one file is its section, with a closing record if it was skipped. -/
theorem run_alone_eq (h : request args = .solve o) (hpath : path ∈ o.files)
    (hfinished : (sectionOf o contents path).Finished) :
    run (o.alone path) contents =
      ⟨(sectionOf o contents path).output,
        (sectionOf o contents path).records path ++ if (sectionOf o contents path).skipped then [counted 1 1] else [],
        .exit (if (sectionOf o contents path).skipped then 1 else 0)⟩ := by
  rw [run_alone h hpath, solveFiles_cons (by rwa [sectionOf_files]), sectionOf_files, Nat.zero_add, solveFiles,
    closing_eq, Transcript.after]
  cases (sectionOf o contents path).skipped <;> simp

theorem skipped_iff (h : request args = .solve o) (hpath : path ∈ o.files)
    (hfinished : (sectionOf o contents path).Finished) :
    (run (o.alone path) contents).ending = .exit 1 ↔ (sectionOf o contents path).skipped = true := by
  rw [run_alone_eq h hpath hfinished]
  cases (sectionOf o contents path).skipped <;> simp

theorem solved_iff (h : request args = .solve o) (hpath : path ∈ o.files)
    (hfinished : (sectionOf o contents path).Finished) :
    (run (o.alone path) contents).ending = .exit 0 ↔ (sectionOf o contents path).ending = .ok () := by
  rw [run_alone_eq h hpath hfinished]
  unfold Section.skipped
  cases (sectionOf o contents path).ending <;> simp

/-- Errors are shown at every level. -/
theorem shown_counted (level : Log.Level) (records : List Log.Record) (failed total : Nat) (c : Prop) [Decidable c] :
    Log.shown (some level) (records ++ if c then [counted failed total] else []) =
      Log.shown (some level) records ++ if c then [counted failed total] else [] := by
  have herror : Log.shown (some level) [counted failed total] = [counted failed total] := by cases level <;> rfl
  rw [Log.shown, List.filter_append]
  split
  · exact congrArg (_ ++ ·) herror
  · rfl

/-- How a run over files is put together from the runs over each of them alone, where the records up to
a level are shown: of their outputs, one after the other, and of their logs, whose closing records give way to
one for all files. -/
structure Together (level : Log.Level) (files : List String) (alone : String → Transcript) (whole : Transcript) :
    Prop where
  output : whole.output = String.join (files.map fun path => (alone path).output)
  ending : whole.ending = .exit (if ∃ path ∈ files, (alone path).ending = .exit 1 then 1 else 0)
  summaries : ∀ path ∈ files, ∃ body, (alone path).output = heading path ++ body ∧
    (HoldsSummary body ↔ (alone path).ending = .exit 0)
  log : ∃ own : String → List Log.Record,
    (∀ path ∈ files, Log.shown (some level) (alone path).log =
      own path ++ if (alone path).ending = .exit 1 then [counted 1 1] else []) ∧
    Log.shown (some level) whole.log = files.flatMap own ++
      if ∃ path ∈ files, (alone path).ending = .exit 1 then
        [counted (files.countP fun path => (alone path).ending = .exit 1) files.length] else []

/-- Files are processed independently: there are arguments for each of them alone, with the same options, and
the run over all of them does and logs what the runs over each alone do and log. -/
theorem run_together (h : request args = .solve o)
    (hend : ∀ path ∈ o.files, ∀ f, (run (o.alone path) contents).ending ≠ .stopped f) (level : Log.Level) :
    (∀ path ∈ o.files, request (o.alone path) = .solve { o with files := [path] }) ∧
      Together level o.files (fun path => run (o.alone path) contents) (run args contents) := by
  have hfinished := fun path hpath => finished_of_alone h hpath (hend path hpath)
  have hrun : run args contents = solveFiles o contents 0 o.files := by rw [run, h]
  have hcount : (o.files.countP fun path => (run (o.alone path) contents).ending = .exit 1) =
      o.files.countP fun path => (sectionOf o contents path).skipped := by
    refine List.countP_congr fun path hpath => ?_
    rw [decide_eq_true_iff]
    exact skipped_iff h hpath (hfinished path hpath)
  have hsome : (∃ path ∈ o.files, (run (o.alone path) contents).ending = .exit 1) ↔
      (o.files.countP fun path => (sectionOf o contents path).skipped) ≠ 0 := by
    rw [← hcount, ← Nat.pos_iff_ne_zero, List.countP_pos_iff]
    simp
  rw [hrun, solveFiles_eq hfinished, closing_eq, Nat.zero_add]
  refine ⟨fun path hpath => request_alone h hpath, ?_, ?_, ?_, ?_⟩
  · rw [List.map_congr_left fun path hpath => congrArg (·.output) (run_alone_eq h hpath (hfinished path hpath))]
    exact String.append_empty
  · simp only [hsome, Transcript.after]
  · intro path hpath
    obtain ⟨body, houtput, hbody⟩ := solveFile_honest o path (contents path)
    rw [solved_iff h hpath (hfinished path hpath), run_alone_eq h hpath (hfinished path hpath)]
    exact ⟨body, houtput, hbody⟩
  · refine ⟨fun path => Log.shown (some level) ((sectionOf o contents path).records path), fun path hpath => ?_, ?_⟩
    · simp only [skipped_iff h hpath (hfinished path hpath)]
      rw [run_alone_eq h hpath (hfinished path hpath)]
      exact shown_counted level _ 1 1 _
    · simp only [hsome, hcount, Transcript.after, shown_counted]
      rw [Log.shown, List.filter_flatMap]
      rfl

/-- A file that can be solved, and no other. -/
def pairContents (path : String) : Except String ByteArray :=
  if path = "pair" then .ok "2\n0 1 5 3\n".toUTF8 else .error "No such file or directory (os error 2)"

def pairOptions : Options := ⟨["pair", "gone", "pair"], none, some 1, true⟩

theorem pair_together : request ["pair", "--sink=1", "gone", "--no-matrices", "pair"] = .solve pairOptions ∧
    Together .warn pairOptions.files (fun path => run (pairOptions.alone path) pairContents)
      (run ["pair", "--sink=1", "gone", "--no-matrices", "pair"] pairContents) := by
  have hrequest : request ["pair", "--sink=1", "gone", "--no-matrices", "pair"] = .solve pairOptions := by decide +kernel
  have hpair : (run (pairOptions.alone "pair") pairContents).ending = .exit 0 := by decide +kernel
  have hgone : (run (pairOptions.alone "gone") pairContents).ending = .exit 1 := by decide +kernel
  have hend : ∀ path ∈ pairOptions.files, ∀ f, (run (pairOptions.alone path) pairContents).ending ≠ .stopped f := by
    intro path hpath f hstopped
    simp only [pairOptions, List.mem_cons, List.not_mem_nil, or_false] at hpath
    rcases hpath with rfl | rfl | rfl
    · cases hpair.symm.trans hstopped
    · cases hgone.symm.trans hstopped
    · cases hpair.symm.trans hstopped
  exact ⟨hrequest, (run_together hrequest hend .warn).2⟩

end MinCostFlow.CommandLine
