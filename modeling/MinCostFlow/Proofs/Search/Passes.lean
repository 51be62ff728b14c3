/-
  MinCostFlow.Proofs.Search.Passes — what a search ends with.

  After `k` passes the end of every walk of `k` arcs at most is labelled with its cost or
  less, and if a pass improved nothing that holds of all walks (`correct_walk`). A simple
  walk has no more arcs than there are vertices, and passes, so a search that does not
  fail labels exactly the vertices that walks lead to (`search_labelled`), whatever the
  costs. Where no cycle of negative cost can be reached, the labels are settled
  (`search_settled`): no arc offers an improvement, and what a vertex is labelled with is
  what its parent is labelled with plus the cost between them (`Settled.tight`).
-/

import MinCostFlow.Proofs.Search.Relaxation

namespace MinCostFlow

open Labels

variable {n : Nat} {r : IntRange} {g : Network n} {arcs w : List (Fin n × Fin n)} {k : Nat}
  {labels final : Labels n} {s t u v : Fin n} {c : Int}

/-- Labels that none of the arcs of a walk improves are within the cost of the walk. -/
theorem Labels.Within.walk {k : Matrix n} (hu : labels.Within u c) (hw : Leads u w v)
    (hs : ∀ a ∈ w, ∀ c, labels.Within a.1 c → labels.Within a.2 (c + k a.1 a.2)) :
    labels.Within v (c + costOf k w) := by
  induction w generalizing u c with
  | nil =>
    obtain rfl := hw
    simpa using hu
  | cons a w ih =>
    obtain ⟨rfl, hw⟩ := hw
    have ha := hs a (List.mem_cons_self ..) c hu
    rw [costOf_cons, ← Int.add_assoc]
    exact ih ha hw fun b hb => hs b (List.mem_cons_of_mem a hb)

namespace Network

theorem correct_succ (h : (correct r g arcs (k + 1) labels).labels = .ok final) :
    ∃ p, relaxes r g arcs ⟨labels, 0⟩ = .ok p ∧
      (p.improved = 0 ∧ final = p.labels ∨ (correct r g arcs k p.labels).labels = .ok final) := by
  cases hp : relaxes r g arcs ⟨labels, 0⟩ with
  | error e =>
    rw [correct_failed hp] at h
    cases h
  | ok p =>
    refine ⟨p, rfl, ?_⟩
    by_cases h0 : p.improved = 0
    · rw [correct_last hp h0] at h
      exact Or.inl ⟨h0, (Except.ok.inj h).symm⟩
    · rw [correct_next hp h0] at h
      exact Or.inr h

/-- What every relaxation keeps, a search keeps. -/
theorem correct_keeps {P : Labels n → Prop}
    (hP : ∀ a ∈ arcs, ∀ p q, P p.labels → relax r g p a.1 a.2 = .ok q → P q.labels)
    (h : (correct r g arcs k labels).labels = .ok final) (hl : P labels) : P final := by
  induction k generalizing labels with
  | zero =>
    obtain rfl := Except.ok.inj h
    exact hl
  | succ k ih =>
    obtain ⟨p, hp, h⟩ := correct_succ h
    have hpl : P p.labels := relaxes_keeps hP hp hl
    rcases h with ⟨-, rfl⟩ | h
    · exact hpl
    · exact ih h hpl

theorem correct_within (h : (correct r g arcs k labels).labels = .ok final)
    (hv : labels.Within v c) : final.Within v c :=
  correct_keeps (P := fun l => l.Within v c) (fun _ _ _ _ hp hr => relax_within hr hp) h hv

theorem correct_walk (h : (correct r g arcs k labels).labels = .ok final) (hw : Leads u w v)
    (hsub : ∀ a ∈ w, a ∈ arcs) (hlen : w.length ≤ k) (hu : labels.Within u c) :
    final.Within v (c + costOf g.cost w) := by
  induction k generalizing labels u c w with
  | zero =>
    obtain rfl := List.eq_nil_of_length_eq_zero (Nat.le_zero.mp hlen)
    obtain rfl := hw
    simpa using correct_within h hu
  | succ k ih =>
    obtain ⟨p, hp, h⟩ := correct_succ h
    have hoffer := fun a ha c => relaxes_offer (a := a) (b := c) hp ha
    rcases h with ⟨h0, rfl⟩ | h
    · obtain rfl := (relaxes_improved hp).2 h0
      exact hu.walk hw fun a ha => hoffer a (hsub a ha)
    cases w with
    | nil =>
      obtain rfl := hw
      simpa using correct_within h (relaxes_within hp hu)
    | cons a w =>
      obtain ⟨rfl, hw⟩ := hw
      have ha := hoffer a (hsub a (List.mem_cons_self ..)) c hu
      rw [costOf_cons, ← Int.add_assoc]
      exact ih h hw (fun b hb => hsub b (List.mem_cons_of_mem a hb)) (Nat.le_of_succ_le_succ hlen) ha

/-! ## A search among residual capacities -/

theorem mem_residualArcs (hres : ∀ u v, 0 ≤ g.residual u v) {a : Fin n × Fin n} :
    a ∈ g.residualArcs ↔ Open g.residual a.1 a.2 := by
  obtain ⟨u, v⟩ := a
  have := hres u v
  simp only [residualArcs, Matrix.mem_pairsWhere, Bool.and_eq_true, bne_iff_ne, Open]
  omega

variable (hres : ∀ u v, 0 ≤ g.residual u v) (h : (g.search r s).labels = .ok final)

include hres h

theorem search_grounded : Grounded g s final :=
  correct_keeps (P := Grounded g s)
    (fun _ ha _ _ hp hr => relax_grounded ((mem_residualArcs hres).mp ha) hp hr) h (start_grounded g s)

theorem search_simple (hw : Walk g.residual s w v) (hs : Simple w) : final.Within v (costOf g.cost w) := by
  have := correct_walk h hw.leads (fun a ha => (mem_residualArcs hres).mpr (hw.isOpen a ha)) hs.length_le
    (start_grounded g s).source
  simpa using this

/-- Whatever the costs, the vertices with a label are those that walks lead to. -/
theorem search_labelled : (∃ l, final.label v = some l) ↔ ∃ w, Walk g.residual s w v := by
  constructor
  · intro h'
    obtain ⟨l, hl⟩ := h'
    obtain ⟨w, hw, -⟩ := (search_grounded hres h).walk v l hl
    exact ⟨w, hw⟩
  · intro h'
    obtain ⟨w, hw⟩ := h'
    obtain ⟨y, hy, hs, -⟩ := exists_simple_walk hw
    obtain ⟨l, hl, -⟩ := search_simple hres h hy hs
    exact ⟨l, hl⟩

end Network

/-! ## Settled labels -/

/-- No open pair offers an improvement. -/
def Labels.SettledOn (labels : Labels n) (m k : Matrix n) : Prop :=
  ∀ u v c, Open m u v → labels.Within u c → labels.Within v (c + k u v)

theorem Labels.SettledOn.walk {m k : Matrix n} (h : labels.SettledOn m k) (hw : Walk m u w v)
    (hu : labels.Within u c) : labels.Within v (c + costOf k w) :=
  hu.walk hw.leads fun a ha c => h a.1 a.2 c (hw.isOpen a ha)

/-- Labels that no residual arc improves, so that every parent explains its child's. -/
structure Settled (g : Network n) (s : Fin n) (labels : Labels n) : Prop extends Grounded g s labels where
  source_zero : ∀ l, labels.label s = some l → l.cost = 0
  settled : labels.SettledOn g.residual g.cost

theorem Network.search_settled (hres : ∀ u v, 0 ≤ g.residual u v) (h : (g.search r s).labels = .ok final)
    (hk : NoNegativeCycleFrom g.residual g.cost s) : Settled g s final := by
  have hg := search_grounded hres h
  refine ⟨hg, ?_, ?_⟩
  · intro l hl
    obtain ⟨w, hw, hc⟩ := hg.walk s l hl
    have := hg.source.le hl
    have := closed_nonneg hk hw
    omega
  · intro u v c huv hu
    obtain ⟨l, hl, hlc⟩ := hu
    obtain ⟨w, hw, hc⟩ := hg.walk u l hl
    obtain ⟨y, hy, hs, hle⟩ := exists_simple_walk (hw.snoc huv)
    have := hle g.cost hk
    simp only [costOf_append, hc, costOf_cons, costOf_nil, Int.add_zero] at this
    exact (search_simple hres h hy hs).mono (by omega)

theorem Settled.tight (h : Settled g s labels) {l : Label n} (hl : labels.label v = some l)
    (hu : l.parent = some u) : ∃ m, labels.label u = some m ∧ m.cost + g.cost u v = l.cost := by
  obtain ⟨huv, m, hm, hle⟩ := h.parent v l u hl hu
  have hle' := (h.settled u v m.cost huv ⟨m, hm, le_rfl⟩).le hl
  exact ⟨m, hm, by omega⟩

theorem Settled.costAt_source (h : Settled g s labels) : labels.costAt s = 0 := by
  obtain ⟨l, hl, -⟩ := h.source
  rw [costAt_eq hl, h.source_zero l hl]

/-- A walk from each parent to its child costs what its end is labelled with: the labels climb
by just what the arcs cost. -/
theorem Settled.cost_of_parents (h : Settled g s labels) (hw : Leads s w v) (hd : labels.Descends w) {l : Label n}
    (hl : labels.label v = some l) : l.cost = costOf g.cost w := by
  have hclimb : ∀ a ∈ w, labels.costAt a.2 = labels.costAt a.1 + g.cost a.1 a.2 := by
    intro a ha
    obtain ⟨m, hm, hpar⟩ := hd a ha
    obtain ⟨q, hq, he⟩ := h.tight hm hpar
    rw [costAt_eq hm, costAt_eq hq]
    omega
  have hend := potential_eq hw hclimb
  rwa [costAt_eq hl, h.costAt_source, Int.zero_add] at hend

/-! ## The tree of a search -/

theorem Labels.treeTo_eq_some {tree : PredecessorTree} :
    labels.treeTo t = some tree ↔
      ∃ c u, labels.label t = some ⟨c, some u⟩ ∧ tree = ⟨labels.predecessors, c⟩ := by
  unfold Labels.treeTo
  split
  · rename_i c u hl
    simp only [hl, Option.some.injEq, Label.mk.injEq]
    exact ⟨fun h => ⟨c, u, ⟨rfl, rfl⟩, h.symm⟩, fun ⟨_, _, ⟨rfl, _⟩, h⟩ => h.symm⟩
  · rename_i hno
    simp only [reduceCtorEq, false_iff]
    intro h
    obtain ⟨c, u, hl, -⟩ := h
    exact hno c u hl

theorem Labels.treeTo_eq_none : labels.treeTo t = none ↔ ∀ l, labels.label t = some l → l.parent = none := by
  unfold Labels.treeTo
  split
  · rename_i c u hl
    simp [hl]
  · rename_i hno
    simp only [true_iff]
    intro l hl
    obtain ⟨c, parent⟩ := l
    cases parent with
    | none => rfl
    | some u => exact absurd hl (hno c u)

@[simp] theorem Labels.size_predecessors (labels : Labels n) : labels.predecessors.size = n := by
  simp [Labels.predecessors]

theorem Labels.predecessors_getElem? (labels : Labels n) (v : Fin n) :
    labels.predecessors[v.val]? = some ((labels.label v).bind fun l => l.parent.map (·.val)) := by
  simp [Labels.predecessors, Labels.label]

theorem Labels.predecessors_eq_some {x : Nat} :
    labels.predecessors[v.val]? = some (some x) ↔ ∃ l u, labels.label v = some l ∧ l.parent = some u ∧ u.val = x := by
  simp only [Labels.predecessors_getElem?, Option.some.injEq, Option.bind_eq_some_iff, Option.map_eq_some_iff]
  constructor
  · intro h
    obtain ⟨l, hl, u, hu, hx⟩ := h
    exact ⟨l, u, hl, hu, hx⟩
  · intro h
    obtain ⟨l, u, hl, hu, hx⟩ := h
    exact ⟨l, hl, u, hu, hx⟩

/-- Predecessors are those of vertices, and name vertices. -/
theorem Labels.exists_of_predecessor {x y : Nat} (h : labels.predecessors[x]? = some (some y)) :
    ∃ v u l, v.val = x ∧ u.val = y ∧ labels.label v = some l ∧ l.parent = some u := by
  have hlt : x < n := by
    have := (Array.getElem?_eq_some_iff.mp h).1
    rwa [size_predecessors] at this
  obtain ⟨v, rfl⟩ : ∃ v : Fin n, v.val = x := ⟨⟨x, hlt⟩, rfl⟩
  obtain ⟨l, u, hl, hu, huy⟩ := Labels.predecessors_eq_some.mp h
  exact ⟨v, u, l, rfl, huy, hl, hu⟩

theorem Search.treeTo_eq_ok {x : Search n} {tree? : Option PredecessorTree} :
    x.treeTo t = .ok tree? ↔ ∃ labels, x.labels = .ok labels ∧ labels.treeTo t = tree? := map_eq_ok

theorem Search.treeTo_eq_error {x : Search n} {e : Failure SolveError} : x.treeTo t = .error e ↔ x.labels = .error e := by
  unfold Search.treeTo
  cases x.labels <;> simp [Except.map]

end MinCostFlow
