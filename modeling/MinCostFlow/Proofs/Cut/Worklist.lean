/-
  MinCostFlow.Proofs.Cut.Worklist — whatever is expanded next, the same vertices are found.

  Exploring takes the vertices that it has found from a queue, and the queue decides which of
  them is expanded next. Here the queue is anything that hands out what was put into it and
  keeps nothing back (`Worklist`), and the vertices are marked one by one: a turn takes a vertex
  out and goes over all others, and each that is not marked yet and has residual capacity from
  there is marked and put in (`Sweep.turn`). Nothing counts the turns.

  Every vertex that is put in was not marked before, so the marked vertices are those that were
  expanded and those that wait. Each turn expands one more, and there are no more than all
  vertices, so the turns come to an end. At the end nothing waits: all that is marked was
  expanded, and no residual capacity leads out of it.

  Proved: whatever the worklist, the turns end, each vertex that is found has had one of them,
  and what is found is what `reachable` answers, the vertices to which positive residual
  capacities lead, in increasing order (`reachable_closure`).
-/

import Mathlib.Data.Multiset.ZeroCons
import MinCostFlow.Proofs.Cut.Reachable
import MinCostFlow.Proofs.Reach.Basic

namespace MinCostFlow

/-- Something to put elements into and to take them out of, in an order of its own. Putting in what it
already holds may have no effect. -/
structure Worklist (α : Type) where
  State : Type
  single : α → State
  push : State → α → State
  pop : State → Option (α × State)
  /-- What was put in and not taken out yet. -/
  contents : State → Multiset α
  contents_single : ∀ a, contents (single a) = {a}
  contents_push : ∀ q a, a ∉ contents q → contents (push q a) = a ::ₘ contents q
  contents_of_pop_none : ∀ q, pop q = none → contents q = 0
  contents_of_pop_some : ∀ q a q', pop q = some (a, q') → contents q = a ::ₘ contents q'

namespace Worklist

variable {α : Type} [DecidableEq α]

/-- First in, first out, and nothing twice. -/
def queue : Worklist α where
  State := List α
  single a := [a]
  push q a := if a ∈ q then q else q ++ [a]
  pop
    | [] => none
    | a :: q => some (a, q)
  contents q := q
  contents_single _ := rfl
  contents_push q a h := by
    have hnot : a ∉ q := h
    rw [if_neg hnot, Multiset.cons_coe, Multiset.coe_eq_coe]
    exact List.perm_append_singleton a q
  contents_of_pop_none q h := by
    cases q with
    | nil => rfl
    | cons => cases h
  contents_of_pop_some q a q' h := by
    cases q with
    | nil => cases h
    | cons =>
      cases h
      rfl

/-- Last in, first out. -/
def stack : Worklist α where
  State := List α
  single a := [a]
  push q a := a :: q
  pop
    | [] => none
    | a :: q => some (a, q)
  contents q := q
  contents_single _ := rfl
  contents_push _ _ _ := rfl
  contents_of_pop_none q h := by
    cases q with
    | nil => rfl
    | cons => cases h
  contents_of_pop_some q a q' h := by
    cases q with
    | nil => cases h
    | cons =>
      cases h
      rfl

end Worklist

variable {n : Nat} {w : Worklist (Fin n)} {g : Network n} {u v start : Fin n}

/-- From `u` to `v` some residual capacity is left. -/
def Network.LeadsTo (g : Network n) (u v : Fin n) : Prop := 0 < g.residual u v

instance (g : Network n) (u v : Fin n) : Decidable (g.LeadsTo u v) := inferInstanceAs (Decidable (_ < _))

/-- How far a search has got: the vertices that are marked, and those of them that wait to be expanded. -/
structure Sweep (w : Worklist (Fin n)) where
  marked : Finset (Fin n)
  waiting : w.State

namespace Sweep

variable {s s' t : Sweep w} {l : List (Fin n)} {k : Nat}

def initial (w : Worklist (Fin n)) (v : Fin n) : Sweep w := ⟨{v}, w.single v⟩

def visit (g : Network n) (u : Fin n) (s : Sweep w) (v : Fin n) : Sweep w :=
  if v ∉ s.marked ∧ g.LeadsTo u v then ⟨insert v s.marked, w.push s.waiting v⟩ else s

/-- Expand one of the vertices that wait, if there are any. -/
def turn (g : Network n) (s : Sweep w) : Option (Sweep w) :=
  (w.pop s.waiting).map fun (u, waiting) => (List.finRange n).foldl (visit g u) ⟨s.marked, waiting⟩

/-- After `k` turns, nothing waits any more. -/
inductive Ends (g : Network n) : Sweep w → Nat → Sweep w → Prop
  | idle {s : Sweep w} : s.turn g = none → Ends g s 0 s
  | turn {s s' t : Sweep w} {k : Nat} : s.turn g = some s' → Ends g s' k t → Ends g s (k + 1) t

/-- The marked vertices in increasing order. -/
def found (s : Sweep w) : List (Fin n) := (List.finRange n).filter (· ∈ s.marked)

/-! ## One turn -/

/-- What visiting the vertices of `l` from `u` has changed: those with residual capacity from `u` are marked,
and just those that were not marked before have come to wait. -/
structure Visited (g : Network n) (u : Fin n) (l : List (Fin n)) (s s' : Sweep w) : Prop where
  mono : s.marked ⊆ s'.marked
  offered : ∀ v ∈ l, g.LeadsTo u v → v ∈ s'.marked
  led : ∀ v ∈ s'.marked, v ∈ s.marked ∨ g.LeadsTo u v
  waits : ∀ v, v ∈ w.contents s'.waiting ↔ v ∈ w.contents s.waiting ∨ v ∈ s'.marked ∧ v ∉ s.marked
  count : s'.marked.card + (w.contents s.waiting).card = s.marked.card + (w.contents s'.waiting).card

/-- All that wait are marked. -/
def Tidy (s : Sweep w) : Prop := ∀ v ∈ w.contents s.waiting, v ∈ s.marked

theorem Visited.tidy {l : List (Fin n)} (h : Visited g u l s s') (hs : s.Tidy) : s'.Tidy := by
  intro v hv
  rcases (h.waits v).mp hv with hold | hnew
  · exact h.mono (hs v hold)
  · exact hnew.1

theorem visit_visited (hs : s.Tidy) (u v : Fin n) : Visited g u [v] s (visit g u s v) := by
  unfold visit
  split
  · rename_i h
    obtain ⟨hnew, hled⟩ := h
    have hcontents := w.contents_push s.waiting v fun hwaits => hnew (hs v hwaits)
    constructor
    · exact Finset.subset_insert v s.marked
    · intro x hx _
      rw [List.mem_singleton.mp hx]
      exact Finset.mem_insert_self v s.marked
    · intro x hx
      rcases Finset.mem_insert.mp hx with rfl | hx
      · exact Or.inr hled
      · exact Or.inl hx
    · intro x
      simp only [hcontents, Multiset.mem_cons, Finset.mem_insert]
      by_cases hx : x = v
      · subst hx
        simp [hnew]
      · simp [hx]
    · simp only [hcontents, Multiset.card_cons, Finset.card_insert_of_notMem hnew]
      omega
  · rename_i h
    constructor
    · exact subset_rfl
    · intro x hx hled
      rw [List.mem_singleton.mp hx] at hled ⊢
      by_contra hnew
      exact h ⟨hnew, hled⟩
    · exact fun _ hx => Or.inl hx
    · intro x
      simp
    · rfl

theorem visits_visited (hs : s.Tidy) (u : Fin n) (l : List (Fin n)) : Visited g u l s (l.foldl (visit g u) s) := by
  induction l generalizing s with
  | nil => exact ⟨subset_rfl, by simp, fun _ hx => Or.inl hx, by simp, rfl⟩
  | cons v l ih =>
    have hfirst : Visited g u [v] s (visit g u s v) := visit_visited hs u v
    have hrest := ih (hfirst.tidy hs)
    rw [List.foldl_cons]
    constructor
    · exact hfirst.mono.trans hrest.mono
    · intro x hx hled
      rcases List.mem_cons.mp hx with rfl | hx
      · exact hrest.mono (hfirst.offered x (List.mem_singleton_self x) hled)
      · exact hrest.offered x hx hled
    · intro x hx
      rcases hrest.led x hx with hx | hled
      · exact hfirst.led x hx
      · exact Or.inr hled
    · intro x
      have hmono := @hrest.mono x
      have hmono' := @hfirst.mono x
      rw [hrest.waits, hfirst.waits]
      tauto
    · have h1 := hfirst.count
      have h2 := hrest.count
      omega

/-- What is true of a search from `start` at any time. -/
structure Searching (g : Network n) (start : Fin n) (s : Sweep w) : Prop where
  start_marked : start ∈ s.marked
  tidy : s.Tidy
  reached : ∀ v ∈ s.marked, Relation.ReflTransGen g.LeadsTo start v
  /-- From a vertex that was expanded, all that residual capacity leads to is marked. -/
  expanded : ∀ u ∈ s.marked, u ∉ w.contents s.waiting → ∀ v, g.LeadsTo u v → v ∈ s.marked

theorem initial_searching (g : Network n) (start : Fin n) : Searching g start (Sweep.initial w start) := by
  have hcontents : w.contents (Sweep.initial w start).waiting = {start} := w.contents_single start
  constructor
  · exact Finset.mem_singleton_self start
  · intro v hv
    rw [hcontents, Multiset.mem_singleton] at hv
    exact Finset.mem_singleton.mpr hv
  · intro v hv
    rw [Finset.mem_singleton.mp hv]
  · intro u hu hnot
    rw [hcontents, Multiset.mem_singleton] at hnot
    exact absurd (Finset.mem_singleton.mp hu) hnot

/-- A turn expands one vertex: of the marked vertices, one less than before waits. -/
theorem turn_searching (hs : Searching g start s) (h : s.turn g = some s') : Searching g start s' ∧
    s'.marked.card + (w.contents s.waiting).card = s.marked.card + (w.contents s'.waiting).card + 1 := by
  obtain ⟨⟨u, waiting⟩, hpop, hturn⟩ := Option.map_eq_some_iff.mp h
  replace hturn : (List.finRange n).foldl (visit g u) ⟨s.marked, waiting⟩ = s' := hturn
  have hcontents := w.contents_of_pop_some s.waiting u waiting hpop
  have hu : u ∈ s.marked := hs.tidy u (hcontents ▸ Multiset.mem_cons_self u _)
  have htidy : (⟨s.marked, waiting⟩ : Sweep w).Tidy := fun v hv => hs.tidy v (hcontents ▸ Multiset.mem_cons_of_mem hv)
  have hvisited := visits_visited (g := g) htidy u (List.finRange n)
  rw [hturn] at hvisited
  refine ⟨⟨hvisited.mono hs.start_marked, hvisited.tidy htidy, ?_, ?_⟩, ?_⟩
  · intro v hv
    rcases hvisited.led v hv with hold | hled
    · exact hs.reached v hold
    · exact (hs.reached u hu).tail hled
  · intro x hx hnot v hled
    obtain ⟨hwaits, hold⟩ := not_or.mp (mt (hvisited.waits x).mpr hnot)
    by_cases hxu : x = u
    · exact hvisited.offered v (List.mem_finRange v) (hxu ▸ hled)
    · have hnot' : x ∉ w.contents s.waiting := by
        rw [hcontents, Multiset.mem_cons]
        exact not_or.mpr ⟨hxu, hwaits⟩
      have hxs : x ∈ s.marked := by
        by_contra hnew
        exact hold ⟨hx, hnew⟩
      exact hvisited.mono (hs.expanded x hxs hnot' v hled)
  · have hcount := hvisited.count
    rw [hcontents, Multiset.card_cons]
    simp only at hcount
    omega

/-! ## All turns -/

/-- The turns end, for the vertices that were expanded, which are those that are marked and do not wait, become
more with each. -/
theorem searching_ends (hs : Searching g start s) : ∃ k t, Ends g s k t ∧ Searching g start t ∧
    w.contents t.waiting = 0 ∧ t.marked.card + (w.contents s.waiting).card = s.marked.card + k := by
  induction hm : n + (w.contents s.waiting).card - s.marked.card generalizing s with
  | zero =>
    have hle : s.marked.card ≤ n := by simpa using s.marked.card_le_univ
    have hnone : w.contents s.waiting = 0 := Multiset.card_eq_zero.mp (by omega)
    have hidle : s.turn g = none := by
      cases hpop : w.pop s.waiting with
      | none => rw [turn, hpop, Option.map_none]
      | some x =>
        have hcontents := w.contents_of_pop_some s.waiting x.1 x.2 hpop
        rw [hnone] at hcontents
        exact absurd hcontents.symm Multiset.cons_ne_zero
    exact ⟨0, s, .idle hidle, hs, hnone, by rw [hnone]; rfl⟩
  | succ m ih =>
    cases hturn : s.turn g with
    | none =>
      have hnone := w.contents_of_pop_none s.waiting (Option.map_eq_none_iff.mp hturn)
      exact ⟨0, s, .idle hturn, hs, hnone, by rw [hnone]; rfl⟩
    | some s' =>
      obtain ⟨hs', hcount⟩ := turn_searching hs hturn
      obtain ⟨k, t, hends, ht, hnone, hmarked⟩ := ih hs' (by omega)
      exact ⟨k + 1, t, .turn hturn hends, ht, hnone, by omega⟩

theorem Searching.mem_marked (h : Searching g start t) (hnone : w.contents t.waiting = 0) :
    v ∈ t.marked ↔ Relation.ReflTransGen g.LeadsTo start v := by
  refine ⟨h.reached v, fun hled => ?_⟩
  induction hled with
  | refl => exact h.start_marked
  | tail _ hstep ih => exact h.expanded _ ih (by rw [hnone]; exact Multiset.notMem_zero _) _ hstep

theorem length_found (s : Sweep w) : s.found.length = s.marked.card := by
  have hnodup : s.found.Nodup := (List.nodup_finRange n).filter _
  rw [← List.toFinset_card_of_nodup hnodup]
  congr 1
  ext v
  simp [found]

end Sweep

/-! ## The same vertices -/

namespace Network

theorem exists_walk_iff : (∃ y, Walk g.residual start y v) ↔ Relation.ReflTransGen g.LeadsTo start v := by
  constructor
  · rintro ⟨y, hy⟩
    induction y using List.reverseRecOn generalizing v with
    | nil =>
      obtain rfl := hy.leads
      exact .refl
    | append_singleton y a ih =>
      obtain ⟨hleads, rfl⟩ := leads_snoc.mp hy.leads
      have hopen := hy.isOpen a (List.mem_append_right y (List.mem_singleton_self a))
      exact (ih ⟨hleads, fun b hb => hy.isOpen b (List.mem_append_left [a] hb)⟩).tail hopen.2
  · intro hled
    induction hled with
    | refl => exact ⟨[], .nil⟩
    | @tail b c _ hstep ih =>
      obtain ⟨y, hy⟩ := ih
      by_cases hbc : b = c
      · exact ⟨y, hbc ▸ hy⟩
      · exact ⟨_, hy.snoc ⟨hbc, hstep⟩⟩

theorem mem_reachableFrom_iff : v ∈ g.reachableFrom start ↔ Relation.ReflTransGen g.LeadsTo start v :=
  mem_reachableFrom.trans exists_walk_iff

theorem reachableFrom_sorted (g : Network n) (start : Fin n) : (g.reachableFrom start).Pairwise (· < ·) :=
  (List.pairwise_lt_finRange n).filter _

end Network

theorem Sweep.Searching.found_eq {t : Sweep w} (h : Searching g start t) (hnone : w.contents t.waiting = 0) :
    t.found = g.reachableFrom start := by
  refine ((List.pairwise_lt_finRange n).filter _).eq_of_mem_iff (g.reachableFrom_sorted start) fun v => ?_
  rw [Network.mem_reachableFrom_iff, ← h.mem_marked hnone]
  simp

/-- A vertex gives the vertices to which residual capacities lead from there, in increasing order, and any
worklist comes to the same with one turn for each of them. A number that names no vertex is refused. -/
theorem reachable_closure (w : Worklist (Fin n)) (g : Network n) (start : Nat) :
    (∃ s : Fin n, s.val = start ∧ ∃ vs, g.reachable start = .ok vs ∧ vs.Pairwise (· < ·) ∧
      (∀ v, v ∈ vs ↔ Relation.ReflTransGen (fun a b => 0 < g.residual a b) s v) ∧
      ∃ last, Sweep.Ends g (Sweep.initial w s) vs.length last ∧ last.found = vs) ∨
    n ≤ start ∧ g.reachable start = .error (.outOfRange start n) := by
  rcases Nat.lt_or_ge start n with hlt | hge
  · let s : Fin n := ⟨start, hlt⟩
    obtain ⟨k, last, hends, hlast, hnone, hcount⟩ := Sweep.searching_ends (Sweep.initial_searching (w := w) g s)
    have hfound := hlast.found_eq hnone
    have hk : (g.reachableFrom s).length = k := by
      have hone : (w.contents (Sweep.initial w s).waiting).card = 1 := by
        rw [Sweep.initial, w.contents_single, Multiset.card_singleton]
      have hone' : (Sweep.initial w s).marked.card = 1 := Finset.card_singleton s
      rw [← hfound, Sweep.length_found]
      omega
    have hvertex : Network.vertex n start = .ok s := Network.vertex_eq_ok.mpr rfl
    refine Or.inl ⟨s, rfl, g.reachableFrom s, ?_, g.reachableFrom_sorted s, fun _ => Network.mem_reachableFrom_iff,
      last, ?_, hfound⟩
    · rw [Network.reachable, hvertex]
      rfl
    · rw [hk]
      exact hends
  · refine Or.inr ⟨hge, ?_⟩
    rw [Network.reachable, Network.vertex_eq_error.mpr ⟨hge, rfl⟩]
    rfl

/-- The arc from `1` to `3` is saturated, and the way to `2` is open again. -/
theorem refilled_closure : Reach (.ofBits 32) refilled ∧
    Relation.ReflTransGen (fun a b => 0 < refilled.residual a b) 0 2 ∧
    ¬Relation.ReflTransGen (fun a b => 0 < refilled.residual a b) 0 3 ∧
    (∃ last, Sweep.Ends refilled (Sweep.initial .queue 0) 3 last ∧ last.found = [0, 1, 2]) ∧
    (∃ last, Sweep.Ends refilled (Sweep.initial .stack 0) 3 last ∧ last.found = [0, 1, 2]) ∧
    refilled.reachable 4 = .error (.outOfRange 4 4) := by
  have hanswer : refilled.reachable 0 = .ok [0, 1, 2] := by decide +kernel
  have hclosure : ∀ w : Worklist (Fin 4),
      (∀ v, v ∈ [0, 1, 2] ↔ Relation.ReflTransGen (fun a b => 0 < refilled.residual a b) 0 v) ∧
      ∃ last, Sweep.Ends refilled (Sweep.initial w 0) 3 last ∧ last.found = [0, 1, 2] := by
    intro w
    rcases reachable_closure w refilled 0 with ⟨s, hs, vs, hvs, -, hmem, last, hends, hfound⟩ | ⟨hout, -⟩
    · obtain rfl : s = 0 := Fin.ext hs
      obtain rfl := Except.ok.inj (hanswer.symm.trans hvs)
      exact ⟨hmem, last, hends, hfound⟩
    · omega
  obtain ⟨hmem, hqueue⟩ := hclosure .queue
  refine ⟨refilled_reach, (hmem 2).mp (by decide), fun h => absurd ((hmem 3).mpr h) (by decide), hqueue,
    (hclosure .stack).2, ?_⟩
  rcases reachable_closure .queue refilled 4 with ⟨s, hs, -⟩ | ⟨-, herror⟩
  · exact absurd hs s.isLt.ne
  · exact herror

end MinCostFlow
