/-
  MinCostFlow.Proofs.Augmentation.Trace — the path that predecessors describe.

  Going back from a vertex by predecessors until the source is met gives one path at most
  (`Traced.unique`), because nothing is chosen on the way. So no vertex comes twice
  (`Traced.nodup`): from its second visit on the way back would be the same again.

  Proved: what `traceBack` answers is such a path (`traceBack_eq_ok`), and its hops are a
  simple walk whose every arc is a predecessor and its vertex. Where it fails, the way back
  has stopped at a vertex that is not the source, and the error tells at which
  (`traceBack_eq_error`).
-/

import Mathlib.Data.List.Basic
import MinCostFlow.Flow.Augmentation
import MinCostFlow.Proofs.Walk.Basic

namespace MinCostFlow

variable {predecessors : Array (Option Nat)} {source sink u v x : Nat} {path other rest : List Nat}

/-- `path` leads from the source to `v`, each vertex being the predecessor of the next. -/
inductive Traced (predecessors : Array (Option Nat)) (source : Nat) : Nat → List Nat → Prop
  | source : Traced predecessors source source [source]
  | step {u v : Nat} {path : List Nat} : v ≠ source → predecessors[v]? = some (some u) →
      Traced predecessors source u path → Traced predecessors source v (path ++ [v])

namespace Traced

theorem unique (h : Traced predecessors source v path) (h' : Traced predecessors source v other) :
    path = other := by
  induction h generalizing other with
  | source =>
    cases h' with
    | source => rfl
    | step hne => exact absurd rfl hne
  | step hne hu _ ih =>
    cases h' with
    | source => exact absurd rfl hne
    | step _ hu' h' =>
      obtain rfl : _ = _ := Option.some.inj (Option.some.inj (hu.symm.trans hu'))
      rw [ih h']

theorem eq_snoc (h : Traced predecessors source v path) : ∃ front, path = front ++ [v] := by
  cases h with
  | source => exact ⟨[], rfl⟩
  | step => exact ⟨_, rfl⟩

/-- The path to a vertex on the way is where this path begins. -/
theorem path_to (h : Traced predecessors source v path) {u : Nat} (hu : u ∈ path) :
    ∃ front, Traced predecessors source u front ∧ front.length ≤ path.length := by
  induction h with
  | source =>
    obtain rfl := List.mem_singleton.mp hu
    exact ⟨_, .source, le_rfl⟩
  | step hne hp h ih =>
    rcases List.mem_append.mp hu with hu | hu
    · obtain ⟨front, hf, hl⟩ := ih hu
      exact ⟨front, hf, by simp; omega⟩
    · obtain rfl := List.mem_singleton.mp hu
      exact ⟨_, .step hne hp h, le_rfl⟩

theorem not_mem (hne : v ≠ source) (hp : predecessors[v]? = some (some u))
    (h : Traced predecessors source u path) : v ∉ path := by
  intro hv
  obtain ⟨front, hf, hl⟩ := h.path_to hv
  rw [hf.unique (.step hne hp h), List.length_append, List.length_singleton] at hl
  omega

theorem nodup (h : Traced predecessors source v path) : path.Nodup := by
  induction h with
  | source => exact List.nodup_singleton _
  | step hne hp h ih =>
    rw [List.nodup_append]
    refine ⟨ih, List.nodup_singleton _, fun a ha b hb hab => ?_⟩
    rw [List.mem_singleton] at hb
    exact h.not_mem hne hp (hb ▸ hab ▸ ha)

end Traced

/-! ## Hops -/

theorem hops_snoc {α : Type} (front : List α) (u v : α) :
    hops (front ++ [u] ++ [v]) = hops (front ++ [u]) ++ [(u, v)] := by
  induction front with
  | nil => rfl
  | cons x front ih =>
    cases front with
    | nil => rfl
    | cons y front => exact congrArg ((x, y) :: ·) ih

theorem map_fst_hops {α : Type} : ∀ path : List α, (hops path).map Prod.fst = path.dropLast
  | [] => rfl
  | [_] => rfl
  | x :: y :: path => congrArg (x :: ·) (map_fst_hops (y :: path))

theorem mem_of_mem_hops {α : Type} {path : List α} {a : α × α} (ha : a ∈ hops path) : a.1 ∈ path ∧ a.2 ∈ path := by
  obtain ⟨hfirst, hsecond⟩ := List.of_mem_zip ha
  exact ⟨hfirst, List.mem_of_mem_tail hsecond⟩

/-- A path that visits no vertex twice does not go back on any of its hops. -/
theorem swap_not_mem_hops {α : Type} {path : List α} (hpath : path.Nodup) {x y : α} (hxy : (x, y) ∈ hops path) :
    (y, x) ∉ hops path := by
  induction path with
  | nil => cases hxy
  | cons a path ih =>
    cases path with
    | nil => cases hxy
    | cons b path =>
      obtain ⟨ha, hpath⟩ := List.nodup_cons.mp hpath
      intro hyx
      rcases List.mem_cons.mp hxy with hfirst | hrest
      · obtain ⟨rfl, rfl⟩ := Prod.mk.inj hfirst
        rcases List.mem_cons.mp hyx with hfirst | hrest
        · exact ha ((Prod.mk.inj hfirst).2 ▸ List.mem_cons_self ..)
        · exact ha (mem_of_mem_hops hrest).2
      · rcases List.mem_cons.mp hyx with hfirst | hrest'
        · obtain ⟨rfl, rfl⟩ := Prod.mk.inj hfirst
          exact ha (mem_of_mem_hops hrest).2
        · exact ih hpath hrest hrest'

/-- A path starts and ends where its hops do, if it has any. -/
theorem ends_of_hops {α : Type} {path : List α} {u v : α} (h : Leads u (hops path) v) (hne : hops path ≠ []) :
    path.head? = some u ∧ path.getLast? = some v := by
  induction path generalizing u with
  | nil => exact absurd rfl hne
  | cons x path ih =>
    cases path with
    | nil => exact absurd rfl hne
    | cons y path =>
      obtain ⟨rfl, h⟩ := h
      refine ⟨rfl, ?_⟩
      rw [List.getLast?_cons_cons]
      by_cases hlast : hops (y :: path) = []
      · -- the hop was the only one
        cases path with
        | nil => exact congrArg some h
        | cons => cases hlast
      · exact (ih h hlast).2

namespace Traced

theorem leads (h : Traced predecessors source v path) : Leads source (hops path) v := by
  induction h with
  | source => rfl
  | step _ _ h ih =>
    obtain ⟨front, rfl⟩ := h.eq_snoc
    rw [hops_snoc]
    exact leads_snoc.mpr ⟨ih, rfl⟩

theorem simple (h : Traced predecessors source v path) : Simple (hops path) := by
  rw [Simple, map_fst_hops]
  exact h.nodup.sublist (List.dropLast_sublist path)

theorem of_mem_hops (h : Traced predecessors source v path) {a : Nat × Nat} (ha : a ∈ hops path) :
    predecessors[a.2]? = some (some a.1) ∧ a.1 ≠ a.2 := by
  induction h with
  | source => cases ha
  | step hne hp h ih =>
    have hv := h.not_mem hne hp
    obtain ⟨front, rfl⟩ := h.eq_snoc
    rw [hops_snoc] at ha
    rcases List.mem_append.mp ha with ha | ha
    · exact ih ha
    · obtain rfl := List.mem_singleton.mp ha
      refine ⟨hp, fun he => hv ?_⟩
      simp only at he
      simp [he]

end Traced

/-! ## Walking back -/

theorem predecessor_eq_ok {p : Option Nat} :
    predecessor predecessors v = .ok p ↔ predecessors[v]? = some p := by
  unfold predecessor
  split <;> simp_all

theorem walkBack_eq_ok {remaining : Nat}
    (h : walkBack predecessors source sink remaining v (v :: rest) = .ok path) :
    ∃ front, Traced predecessors source v front ∧ path = front ++ rest := by
  induction remaining generalizing v rest with
  | zero =>
    rw [walkBack] at h
    split at h
    · obtain rfl := Except.ok.inj h
      subst v
      exact ⟨[source], .source, rfl⟩
    · obtain ⟨_, -, h⟩ := bind_eq_ok.mp h
      cases h
  | succ remaining ih =>
    rw [walkBack] at h
    split at h
    · obtain rfl := Except.ok.inj h
      subst v
      exact ⟨[source], .source, rfl⟩
    · rename_i hne
      simp only [bind_eq_ok, orFault_eq_ok, predecessor_eq_ok] at h
      obtain ⟨p, hp, h⟩ := h
      cases p with
      | none => cases h
      | some u =>
        obtain ⟨front, hf, rfl⟩ := ih h
        exact ⟨front ++ [v], .step hne hp hf, by simp⟩

theorem traceBack_eq_ok (h : traceBack predecessors source sink = .ok path) :
    Traced predecessors source sink path := by
  obtain ⟨front, hf, rfl⟩ := walkBack_eq_ok h
  simpa using hf

theorem predecessor_eq_error {f : Fault} :
    predecessor predecessors v = .error f ↔
      predecessors[v]? = none ∧ .predecessorOutOfRange v predecessors.size = f := by
  unfold predecessor
  split <;> simp_all

/-- The vertex `u` at which a walk back ended, for want of a predecessor or of steps, and the way
from there. -/
structure Stopped (predecessors : Array (Option Nat)) (source v remaining u : Nat) (w : List (Nat × Nat)) : Prop where
  leads : Leads u w v
  linked : ∀ a ∈ w, predecessors[a.2]? = some (some a.1)
  length_le : w.length ≤ remaining
  ne_source : u ≠ source

theorem Stopped.snoc {remaining : Nat} {w : List (Nat × Nat)} (hp : predecessors[v]? = some (some x))
    (h : Stopped predecessors source x remaining u w) :
    Stopped predecessors source v (remaining + 1) u (w ++ [(x, v)]) := by
  refine ⟨leads_snoc.mpr ⟨h.leads, rfl⟩, fun a ha => ?_, by simpa using h.length_le, h.ne_source⟩
  rcases List.mem_append.mp ha with ha | ha
  · exact h.linked a ha
  · obtain rfl := List.mem_singleton.mp ha
    exact hp

theorem walkBack_eq_error {remaining : Nat} {e : Failure SolveError} (hle : remaining ≤ predecessors.size)
    (h : walkBack predecessors source sink remaining v path = .error e) :
    ∃ u w, Stopped predecessors source v remaining u w ∧
      (predecessors[u]? = none ∧ e = .fault (.predecessorOutOfRange u predecessors.size) ∨
        (predecessors[u]? = some none ∨ w.length = remaining) ∧
          e = .error (.brokenTree sink u (predecessors.size - remaining + w.length))) := by
  induction remaining generalizing v path with
  | zero =>
    rw [walkBack] at h
    split at h
    · cases h
    rename_i hne
    refine ⟨v, [], ⟨rfl, by simp, le_rfl, hne⟩, ?_⟩
    rcases bind_eq_error.mp h with h | ⟨_, -, h⟩
    · obtain ⟨f, hf, rfl⟩ := orFault_eq_error.mp h
      obtain ⟨hp, rfl⟩ := predecessor_eq_error.mp hf
      exact Or.inl ⟨hp, rfl⟩
    · exact Or.inr ⟨Or.inr rfl, (Except.error.inj h).symm⟩
  | succ remaining ih =>
    rw [walkBack] at h
    split at h
    · cases h
    rename_i hne
    rcases bind_eq_error.mp h with h | ⟨p, hp, h⟩
    · obtain ⟨f, hf, rfl⟩ := orFault_eq_error.mp h
      obtain ⟨hp, rfl⟩ := predecessor_eq_error.mp hf
      exact ⟨v, [], ⟨rfl, by simp, Nat.zero_le _, hne⟩, Or.inl ⟨hp, rfl⟩⟩
    rw [orFault_eq_ok, predecessor_eq_ok] at hp
    cases p with
    | none => exact ⟨v, [], ⟨rfl, by simp, Nat.zero_le _, hne⟩, Or.inr ⟨Or.inl hp, (Except.error.inj h).symm⟩⟩
    | some x =>
      obtain ⟨u, w, hw, he⟩ := ih (by omega) h
      refine ⟨u, w ++ [(x, v)], hw.snoc hp, ?_⟩
      have hsteps : predecessors.size - remaining + w.length =
          predecessors.size - (remaining + 1) + (w ++ [(x, v)]).length := by
        simp only [List.length_append, List.length_singleton]
        omega
      rw [← hsteps, List.length_append, List.length_singleton, Nat.add_right_cancel_iff]
      exact he

/-- A walk back that fails has come to a number outside of the list, to a vertex without a
predecessor, or to the end of its steps. -/
theorem traceBack_eq_error {e : Failure SolveError} (h : traceBack predecessors source sink = .error e) :
    ∃ u w, Stopped predecessors source sink predecessors.size u w ∧
      (predecessors[u]? = none ∧ e = .fault (.predecessorOutOfRange u predecessors.size) ∨
        (predecessors[u]? = some none ∨ w.length = predecessors.size) ∧ e = .error (.brokenTree sink u w.length)) := by
  have := walkBack_eq_error le_rfl h
  simpa only [Nat.sub_self, Nat.zero_add] using this

/-- Predecessors that go round in a circle are given up. -/
example : traceBack #[none, some 0, some 3, some 2] 0 1 = .ok [0, 1] ∧
    traceBack #[none, some 0, some 3, some 2] 0 2 = .error (.error (.brokenTree 2 2 4)) := by
  decide

end MinCostFlow
