/-
  MinCostFlow.Proofs.Augmentation.WalkBack — how a walk back through predecessors ends.

  Each vertex of a walk back decides the next one (`ancestor`), so from the second visit of a
  vertex on the walk repeats itself (`ancestor_repeats`). A walk that comes to an end, be it at
  the source, at a number outside of the list or at a vertex without a predecessor, has therefore
  not visited a vertex twice (`ancestor_ne`). All vertices that it has gone on from are in the list,
  so it has taken at most as many steps as the list is long (`length_le_size`), and the limit on
  the steps never cuts it off. A walk that is still under way after so many steps has visited some
  vertex twice and goes round for ever.

  Proved: the walk ends in one of four ways (`exists_ends`), and `traceBack` answers with the one
  that it is; a path has no repetitions, and a walk is given up before the limit for want of a
  predecessor, or at the limit on a cycle (`traceBack_exact`).
-/

import Mathlib.Data.Finset.Card
import MinCostFlow.Proofs.Augmentation.Trace

namespace MinCostFlow

variable {predecessors : Array (Option Nat)} {source sink u v x : Nat} {path : List Nat} {i j k m : Nat}

/-- The vertex that `k` lookups lead to from `v`, if none of them is out of range or finds nothing. -/
def ancestor (predecessors : Array (Option Nat)) (v : Nat) : Nat → Option Nat
  | 0 => some v
  | k + 1 => (ancestor predecessors v k).bind fun u => predecessors[u]?.join

theorem ancestor_succ : ancestor predecessors v (k + 1) = some x ↔
    ∃ u, ancestor predecessors v k = some u ∧ predecessors[u]? = some (some x) := by
  simp only [ancestor, Option.bind_eq_some_iff, Option.join_eq_some_iff]

theorem ancestor_add (predecessors : Array (Option Nat)) (v i j : Nat) :
    ancestor predecessors v (i + j) = (ancestor predecessors v i).bind fun u => ancestor predecessors u j := by
  induction j with
  | zero => simp [ancestor]
  | succ j ih => rw [← Nat.add_assoc, ancestor, ih, Option.bind_assoc]; rfl

theorem ancestor_isSome (h : ancestor predecessors v k ≠ none) (hi : i ≤ k) : ∃ u, ancestor predecessors v i = some u := by
  obtain ⟨j, rfl⟩ := Nat.exists_eq_add_of_le hi
  cases hu : ancestor predecessors v i with
  | none => simp [ancestor_add, hu] at h
  | some u => exact ⟨u, rfl⟩

/-- A walk only goes on from a vertex in the list. -/
theorem ancestor_lt_size (h : ancestor predecessors v k ≠ none) (hi : i < k) :
    ∃ u, ancestor predecessors v i = some u ∧ u < predecessors.size := by
  obtain ⟨x, hx⟩ := ancestor_isSome h (Nat.succ_le_of_lt hi)
  obtain ⟨u, hu, hp⟩ := ancestor_succ.mp hx
  exact ⟨u, hu, (Array.getElem?_eq_some_iff.mp hp).1⟩

/-! ## Visiting a vertex twice -/

theorem ancestor_repeats (h : ancestor predecessors v i = ancestor predecessors v j) (k : Nat) :
    ancestor predecessors v (i + k) = ancestor predecessors v (j + k) := by
  rw [ancestor_add, ancestor_add, h]

/-- Up to the first time that something holds, a walk visits no vertex twice: it would hold sooner. -/
theorem ancestor_ne {P : Option Nat → Prop} (hk : P (ancestor predecessors v k))
    (hfirst : ∀ i < k, ¬P (ancestor predecessors v i)) (hij : i < j) (hj : j ≤ k) :
    ancestor predecessors v i ≠ ancestor predecessors v j := by
  intro h
  have hsooner := ancestor_repeats h (k - j)
  rw [Nat.add_sub_cancel' hj] at hsooner
  exact hfirst (i + (k - j)) (by omega) (hsooner ▸ hk)

/-- Different vertices in the list are no more than the list is long. -/
theorem length_le_size (hin : ∀ i < m, ∃ u, ancestor predecessors v i = some u ∧ u < predecessors.size)
    (hne : ∀ i j, i < j → j < m → ancestor predecessors v i ≠ ancestor predecessors v j) :
    m ≤ predecessors.size := by
  have hcard : (Finset.range m).card ≤ (Finset.range predecessors.size).card := by
    refine Finset.card_le_card_of_injOn (fun i => (ancestor predecessors v i).getD 0) ?_ ?_
    · intro i hi
      obtain ⟨u, hu, hlt⟩ := hin i (by simpa using hi)
      simpa [hu] using hlt
    · intro i hi j hj h
      have hi : i < m := by simpa using hi
      have hj : j < m := by simpa using hj
      obtain ⟨u, hu, -⟩ := hin i hi
      obtain ⟨x, hx, -⟩ := hin j hj
      simp only [hu, hx, Option.getD_some] at h
      have hsame : ancestor predecessors v i = ancestor predecessors v j := by rw [hu, hx, h]
      rcases Nat.lt_trichotomy i j with hij | hij | hij
      · exact absurd hsame (hne i j hij hj)
      · exact hij
      · exact absurd hsame.symm (hne j i hij hi)
  simpa using hcard

/-- A walk that does not end is on a cycle after as many steps as the list is long. -/
theorem ancestor_cycle (h : ∀ k, ancestor predecessors v k ≠ none)
    (hu : ancestor predecessors v predecessors.size = some u) : ∃ m, 0 < m ∧ ancestor predecessors u m = some u := by
  have hrepeat : ∃ i j, i < j ∧ j < predecessors.size + 1 ∧ ancestor predecessors v i = ancestor predecessors v j := by
    by_contra hno
    push Not at hno
    have hle := length_le_size (fun i _ => ancestor_lt_size (h (i + 1)) (Nat.lt_succ_self i)) hno
    omega
  obtain ⟨i, j, hij, hj, he⟩ := hrepeat
  -- what is repeated is repeated from then on, so also at the end of the steps
  have hround := ancestor_repeats he (predecessors.size - i)
  rw [Nat.add_sub_cancel' (by omega), hu, show j + (predecessors.size - i) = predecessors.size + (j - i) by omega,
    ancestor_add, hu] at hround
  exact ⟨j - i, by omega, hround.symm⟩

/-! ## Ends -/

/-- After `k` lookups the walk back is at `v`, and it has not visited the source. -/
def Astray (predecessors : Array (Option Nat)) (source sink k v : Nat) : Prop :=
  ancestor predecessors sink k = some v ∧ ∀ i ≤ k, ancestor predecessors sink i ≠ some source

/-- How a walk back from the sink ends, with the answer that tells it. -/
inductive Ends (predecessors : Array (Option Nat)) (source sink : Nat) : Except (Failure SolveError) (List Nat) → Prop
  /-- The source is visited, and the path is what was visited until then, in the other direction. -/
  | arrives {k : Nat} {path : List Nat} : ancestor predecessors sink k = some source →
      (∀ i < k, ancestor predecessors sink i ≠ some source) →
      path.reverse.map some = (List.range (k + 1)).map (ancestor predecessors sink) →
      Ends predecessors source sink (.ok path)
  /-- The predecessor of a number outside of the list is needed. -/
  | leaves {k v : Nat} : Astray predecessors source sink k v → predecessors.size ≤ v →
      Ends predecessors source sink (.error (.fault (.predecessorOutOfRange v predecessors.size)))
  /-- A vertex has no predecessor. -/
  | stops {k v : Nat} : Astray predecessors source sink k v → predecessors[v]? = some none →
      Ends predecessors source sink (.error (.error (.brokenTree sink v k)))
  /-- Neither the source nor an end is ever met. -/
  | circles {v : Nat} : (∀ k, ∃ u, Astray predecessors source sink k u) →
      ancestor predecessors sink predecessors.size = some v →
      Ends predecessors source sink (.error (.error (.brokenTree sink v predecessors.size)))

theorem Astray.ne_source (h : Astray predecessors source sink k v) : v ≠ source := by
  rintro rfl
  exact h.2 k le_rfl h.1

/-- A walk that cannot go on has taken no more steps than the list is long, and fewer if it is in the list. -/
theorem Astray.steps_le (h : Astray predecessors source sink k v) (hp : predecessors[v]?.join = none) :
    k ≤ predecessors.size ∧ (v < predecessors.size → k < predecessors.size) := by
  have hstop : ancestor predecessors sink (k + 1) = none := by
    rw [ancestor, h.1]
    exact hp
  have hsome : ancestor predecessors sink k ≠ none := by simp [h.1]
  have hon : ∀ i < k + 1, ¬ancestor predecessors sink i = none := by
    intro i hi
    obtain ⟨u, hu⟩ := ancestor_isSome hsome (Nat.le_of_lt_succ hi)
    simp [hu]
  have hne := fun i j (hij : i < j) => ancestor_ne (P := (· = none)) hstop hon hij
  constructor
  · exact length_le_size (fun i hi => ancestor_lt_size hsome hi) fun i j hij hj => hne i j hij (by omega)
  · intro hv
    refine length_le_size (fun i hi => ?_) fun i j hij hj => hne i j hij (by omega)
    rcases Nat.lt_succ_iff_lt_or_eq.mp hi with hi | rfl
    · exact ancestor_lt_size hsome hi
    · exact ⟨v, h.1, hv⟩

/-- The source is met in time. -/
theorem steps_to_source (hk : ancestor predecessors sink k = some source)
    (hfirst : ∀ i < k, ancestor predecessors sink i ≠ some source) : k ≤ predecessors.size := by
  have hsome : ancestor predecessors sink k ≠ none := by simp [hk]
  refine length_le_size (fun i hi => ancestor_lt_size hsome hi) fun i j hij hj => ?_
  exact ancestor_ne (P := (· = some source)) hk hfirst hij hj.le

/-! ## Walking back step by step -/

theorem walkBack_source {remaining : Nat} : walkBack predecessors source sink remaining source path = .ok path := by
  cases remaining <;> simp [walkBack]

theorem walkBack_next {remaining : Nat} (hv : v ≠ source) (hp : predecessors[v]? = some (some u)) :
    walkBack predecessors source sink (remaining + 1) v path = walkBack predecessors source sink remaining u (u :: path) := by
  rw [walkBack, if_neg hv, predecessor_eq_ok.mpr hp]
  rfl

theorem walkBack_outside {remaining : Nat} (hv : v ≠ source) (hp : predecessors[v]? = none) :
    walkBack predecessors source sink remaining v path = .error (.fault (.predecessorOutOfRange v predecessors.size)) := by
  have hlookup := predecessor_eq_error.mpr ⟨hp, rfl⟩
  cases remaining <;> rw [walkBack, if_neg hv, hlookup] <;> rfl

theorem walkBack_lost {remaining : Nat} {p : Option Nat} (hv : v ≠ source) (hp : predecessors[v]? = some p)
    (hlost : p = none ∨ remaining = 0) : walkBack predecessors source sink remaining v path =
      .error (.error (.brokenTree sink v (predecessors.size - remaining))) := by
  have hlookup := predecessor_eq_ok.mpr hp
  cases remaining with
  | zero =>
    rw [walkBack, if_neg hv, hlookup]
    rfl
  | succ remaining =>
    obtain rfl : p = none := by simpa using hlost
    rw [walkBack, if_neg hv, hlookup]
    rfl

/-- After `k` lookups the walk is at the `k`th ancestor, with the vertices that it has visited as its path. -/
theorem traceBack_after (hk : ancestor predecessors sink k = some v)
    (hsource : ∀ i < k, ancestor predecessors sink i ≠ some source) (hle : k ≤ predecessors.size) :
    ∃ path, path.reverse.map some = (List.range (k + 1)).map (ancestor predecessors sink) ∧
      traceBack predecessors source sink = walkBack predecessors source sink (predecessors.size - k) v path := by
  induction k generalizing v with
  | zero =>
    obtain rfl := Option.some.inj hk
    exact ⟨[sink], rfl, rfl⟩
  | succ k ih =>
    obtain ⟨u, hu, hp⟩ := ancestor_succ.mp hk
    obtain ⟨path, hpath, hwalk⟩ := ih hu (fun i hi => hsource i (by omega)) (by omega)
    have hne : u ≠ source := by
      rintro rfl
      exact hsource k (by omega) hu
    refine ⟨v :: path, ?_, ?_⟩
    · rw [List.range_succ, List.map_append, ← hpath, List.map_singleton, hk]
      simp
    · rw [hwalk, show predecessors.size - k = predecessors.size - (k + 1) + 1 by omega, walkBack_next hne hp]

namespace Ends

variable {answer : Except (Failure SolveError) (List Nat)}

theorem traceBack_eq (h : Ends predecessors source sink answer) : traceBack predecessors source sink = answer := by
  cases h with
  | arrives hk hfirst hpath =>
    obtain ⟨other, hother, hwalk⟩ := traceBack_after hk hfirst (steps_to_source hk hfirst)
    rw [hwalk, walkBack_source]
    have hsame := (List.map_injective_iff.mpr (Option.some_injective Nat)) (hother.trans hpath.symm)
    rw [List.reverse_injective hsame]
  | leaves h hv =>
    have hp := Array.getElem?_eq_none hv
    have hle := (h.steps_le (by rw [hp]; rfl)).1
    obtain ⟨path, -, hwalk⟩ := traceBack_after h.1 (fun i hi => h.2 i hi.le) hle
    rw [hwalk, walkBack_outside h.ne_source hp]
  | stops h hp =>
    have hlt := (h.steps_le (by rw [hp]; rfl)).2 (Array.getElem?_eq_some_iff.mp hp).1
    obtain ⟨path, -, hwalk⟩ := traceBack_after h.1 (fun i hi => h.2 i hi.le) hlt.le
    rw [hwalk, walkBack_lost h.ne_source hp (Or.inl rfl), Nat.sub_sub_self hlt.le]
  | circles hall hv =>
    obtain ⟨u, hu, hsource⟩ := hall predecessors.size
    obtain rfl := Option.some.inj (hu.symm.trans hv)
    obtain ⟨x, hx, -⟩ := hall (predecessors.size + 1)
    obtain ⟨y, hy, hp⟩ := ancestor_succ.mp hx
    obtain rfl := Option.some.inj (hy.symm.trans hu)
    obtain ⟨path, -, hwalk⟩ := traceBack_after hu (fun i hi => hsource i hi.le) le_rfl
    rw [hwalk, walkBack_lost (Astray.ne_source ⟨hu, hsource⟩) hp (Or.inr (Nat.sub_self _)), Nat.sub_self, Nat.sub_zero]

end Ends

/-- There is no other way for a walk to go. -/
theorem exists_ends (predecessors : Array (Option Nat)) (source sink : Nat) :
    ∃ answer, Ends predecessors source sink answer := by
  classical
  by_cases hsource : ∃ k, ancestor predecessors sink k = some source
  · have hk := Nat.find_spec hsource
    have hfirst := fun i (hi : i < Nat.find hsource) => Nat.find_min hsource hi
    obtain ⟨path, hpath, -⟩ := traceBack_after hk hfirst (steps_to_source hk hfirst)
    exact ⟨_, .arrives hk hfirst hpath⟩
  have hnever : ∀ k, ancestor predecessors sink k ≠ some source := by simpa using hsource
  by_cases hend : ∃ k, ancestor predecessors sink k = none
  · have hk := Nat.find_spec hend
    have hfirst := fun i (hi : i < Nat.find hend) => Nat.find_min hend hi
    generalize Nat.find hend = k at hk hfirst
    cases k with
    | zero => cases hk
    | succ k =>
      obtain ⟨v, hv⟩ := Option.ne_none_iff_exists'.mp (hfirst k (Nat.lt_succ_self k))
      have hastray : Astray predecessors source sink k v := ⟨hv, fun i _ => hnever i⟩
      rw [ancestor, hv, Option.bind_some] at hk
      cases hp : predecessors[v]? with
      | none => exact ⟨_, .leaves hastray (Array.getElem?_eq_none_iff.mp hp)⟩
      | some p =>
        obtain rfl : p = none := by simpa [hp] using hk
        exact ⟨_, .stops hastray hp⟩
  · have hall : ∀ k, ∃ u, Astray predecessors source sink k u := by
      intro k
      obtain ⟨u, hu⟩ := Option.ne_none_iff_exists'.mp fun h => hend ⟨k, h⟩
      exact ⟨u, hu, fun i _ => hnever i⟩
    obtain ⟨v, hv, -⟩ := hall predecessors.size
    exact ⟨_, .circles hall hv⟩

/-- Walking back answers with the end of the walk, whatever the predecessors are. A path has no repetitions;
and a walk is given up at a vertex without a predecessor before the limit on the steps, or just at the limit,
at a vertex that it would come back to for ever. -/
theorem traceBack_exact (predecessors : Array (Option Nat)) (source sink : Nat) :
    (∀ answer, traceBack predecessors source sink = answer ↔ Ends predecessors source sink answer) ∧
    (∀ path, traceBack predecessors source sink = .ok path → path.Nodup) ∧
    ∀ reached steps, traceBack predecessors source sink = .error (.error (.brokenTree sink reached steps)) →
      predecessors[reached]? = some none ∧ steps < predecessors.size ∨
      steps = predecessors.size ∧ (∀ k, ∃ u, Astray predecessors source sink k u) ∧
        ∃ m, 0 < m ∧ ancestor predecessors reached m = some reached := by
  have hends : ∀ answer, traceBack predecessors source sink = answer ↔ Ends predecessors source sink answer := by
    intro answer
    constructor
    · rintro rfl
      obtain ⟨answer, h⟩ := exists_ends predecessors source sink
      rwa [h.traceBack_eq]
    · exact Ends.traceBack_eq
  refine ⟨hends, fun path h => (traceBack_eq_ok h).nodup, fun reached steps h => ?_⟩
  cases (hends _).mp h with
  | stops hastray hp =>
    have hin := (Array.getElem?_eq_some_iff.mp hp).1
    exact Or.inl ⟨hp, (hastray.steps_le (by rw [hp]; rfl)).2 hin⟩
  | circles hall hv =>
    refine Or.inr ⟨rfl, hall, ancestor_cycle (fun k hk => ?_) hv⟩
    obtain ⟨u, hu, -⟩ := hall k
    cases hk.symm.trans hu

/-- A source outside of the list is met just in time. -/
example : traceBack #[some 2, some 0] 2 1 = .ok [2, 0, 1] ∧
    traceBack #[some 2, some 0] 3 1 = .error (.fault (.predecessorOutOfRange 2 2)) := by
  decide

end MinCostFlow
