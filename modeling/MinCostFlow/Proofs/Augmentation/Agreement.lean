/-
  MinCostFlow.Proofs.Augmentation.Agreement — an augmentation finds what the search has promised.

  Parents are overwritten while labels above them keep falling, so the way through the parents
  need not be a walk by which some label was found. Where no cycle of negative cost can be
  reached, this comes right at the end.
  - Cycles of parents have a negative cost, so there is none (`search_acyclic`), and the parents
    of every labelled vertex lead back to the source (`search_leads`), which has no parent
    itself (`search_source`).
  - The labels are settled, so on the way down each is the one above it plus the cost between
    them: the sums of the costs along the path are the labels on it (`Settled.sums_fit`). Labels
    have been stored (`search_stored`), so no sum overflows (`search_unitCost`).

  Proved, of every network that callers can come to: the path that a tree describes is one of
  open arcs, which costs what the tree says, and augmenting along it fails only where the flow
  does not fit (`cheapestPath_augments`).
-/

import MinCostFlow.Proofs.Augmentation.Plan
import MinCostFlow.Proofs.Search.Cheapest
import MinCostFlow.Proofs.Solve.Resumption

namespace MinCostFlow

variable {n : Nat} {r : IntRange} {g : Network n} {s t u v : Fin n} {arcs : List (Fin n × Fin n)}
  {labels : Labels n} {l : Label n} {tree : PredecessorTree}

/-! ## Labels that can be stored -/

namespace Labels

variable {p q : Pass n}

def Stored (r : IntRange) (labels : Labels n) : Prop := ∀ v l, labels.label v = some l → l.cost ∈ r

theorem start_stored (r : IntRange) (s : Fin n) : (start s).Stored r := by
  intro v l hl
  rw [label_start] at hl
  split at hl
  · obtain rfl := Option.some.inj hl
    exact r.zero_mem
  · cases hl

theorem relax_stored (hp : p.labels.Stored r) (h : relax r g p u v = .ok q) : q.labels.Stored r := by
  rcases relax_cases h with ⟨-, rfl⟩ | ⟨l, -, hfits, ⟨-, rfl⟩ | ⟨-, rfl⟩⟩
  · exact hp
  · exact hp
  · intro x m hm
    rw [Pass.take, label_put] at hm
    split at hm
    · obtain rfl := Option.some.inj hm
      exact hfits
    · exact hp x m hm

end Labels

open Labels

theorem Network.search_stored (h : (g.search r s).labels = .ok labels) : labels.Stored r :=
  correct_keeps (P := Labels.Stored r) (fun _ _ _ _ hp hr => relax_stored hp hr) h (start_stored r s)

/-! ## Sums along the parents -/

/-- The sums on the way down are the labels on it. -/
theorem Settled.sums_fit (h : Settled g s labels) (hstored : labels.Stored r) (hw : Leads u arcs v)
    (hd : labels.Descends arcs) :
    arcs.foldlM (fun total (x, y) => r.fit? (total + g.cost x y)) (labels.costAt u) = some (labels.costAt v) := by
  induction arcs generalizing u with
  | nil =>
    obtain rfl := hw
    rfl
  | cons a arcs ih =>
    obtain ⟨rfl, hw⟩ := hw
    obtain ⟨l, hl, hparent⟩ := hd a (List.mem_cons_self ..)
    obtain ⟨m, hm, hsum⟩ := h.tight hl hparent
    have hstep : r.fit? (labels.costAt a.1 + g.cost a.1 a.2) = some (labels.costAt a.2) := by
      rw [costAt_eq hm, costAt_eq hl, hsum]
      exact IntRange.fit?_eq_some.mpr ⟨hstored a.2 l hl, rfl⟩
    rw [List.foldlM_cons]
    show (r.fit? (labels.costAt a.1 + g.cost a.1 a.2) >>= _) = _
    rw [hstep]
    exact ih hw fun b hb => hd b (List.mem_cons_of_mem a hb)

/-! ## The parents at the end of a search -/

namespace Network

variable (hg : Sound r g) (h : (g.search r s).labels = .ok labels) (hk : NoNegativeCycleFrom g.residual g.cost s)

include hg h hk

/-- Going down through the parents never comes back. -/
theorem search_acyclic (v : Fin n) : ¬labels.OnCycle v := by
  intro hv
  have hgrounded := search_grounded hg.residual_nonneg h
  obtain ⟨c, hc, hsimple, hnegative⟩ := hv.exists_negative hgrounded (search_cyclesNegative hg.residual_nonneg h)
  obtain ⟨w, hne, hw, hd⟩ := hv
  -- the cycle is one that walks from the source come to, because its vertices have labels
  obtain ⟨a, w, rfl⟩ := List.exists_cons_of_ne_nil hne
  obtain ⟨rfl, -⟩ := hw
  obtain ⟨l, hl, hparent⟩ := hd a (List.mem_cons_self ..)
  obtain ⟨-, m, hm, -⟩ := hgrounded.parent a.2 l a.1 hl hparent
  obtain ⟨y, hy, -⟩ := hgrounded.walk a.1 m hm
  have := hk a.1 y c hy hc hsimple
  omega

/-- The way back from a labelled vertex comes to the source. -/
theorem search_leads (hl : labels.label v = some l) :
    ∃ path arcs, traceBack labels.predecessors s v = .ok path ∧ hops path = arcs.map (Prod.map Fin.val Fin.val) ∧
      Leads s arcs v ∧ labels.Descends arcs := by
  rcases (search_grounded hg.residual_nonneg h).traceBack_cases hl with ⟨path, arcs, hpath, harcs, hd⟩ | ⟨x, hx, -⟩
  · have hnames := (traceBack_eq_ok hpath).leads
    rw [harcs] at hnames
    exact ⟨path, arcs, hpath, harcs, leads_of_names hnames, hd⟩
  · exact absurd hx (search_acyclic hg h hk x)

/-- A parent of the source would close a cycle. -/
theorem search_source (hl : labels.label s = some l) : l.parent = none := by
  cases hparent : l.parent with
  | none => rfl
  | some u =>
    obtain ⟨-, m, hm, -⟩ := (search_grounded hg.residual_nonneg h).parent s l u hl hparent
    obtain ⟨-, arcs, -, -, hleads, hd⟩ := search_leads hg h hk hm
    have hcycle : labels.Descends (arcs ++ [(u, s)]) := by
      intro a ha
      rcases List.mem_append.mp ha with ha | ha
      · exact hd a ha
      · obtain rfl := List.mem_singleton.mp ha
        exact ⟨l, hl, hparent⟩
    exact absurd ⟨arcs ++ [(u, s)], by simp, leads_snoc.mpr ⟨hleads, rfl⟩, hcycle⟩ (search_acyclic hg h hk s)

theorem search_unitCost (hw : Leads s arcs v) (hd : labels.Descends arcs) (hl : labels.label v = some l) :
    g.unitCost? r arcs = some l.cost := by
  have hsettled := search_settled hg.residual_nonneg h hk
  have hsums := hsettled.sums_fit (search_stored h) hw hd
  rwa [hsettled.costAt_source, costAt_eq hl] at hsums

/-- Every predecessor is on a way back to the source. -/
theorem search_traced {x y : Nat} (hx : labels.predecessors[x]? = some (some y)) :
    x ≠ s ∧ ∃ path, Traced labels.predecessors s x path := by
  obtain ⟨v, u, l, rfl, -, hl, hparent⟩ := exists_of_predecessor hx
  constructor
  · intro hv
    obtain rfl := Fin.ext hv
    rw [search_source hg h hk hl] at hparent
    cases hparent
  · obtain ⟨path, -, hpath, -⟩ := search_leads hg h hk hl
    exact ⟨path, traceBack_eq_ok hpath⟩

end Network

/-! ## What an augmentation along the tree can end with -/

/-- Where no cycle of negative cost can be reached, the predecessors of a tree lead back to the source, along
open arcs that cost what the tree says of the sink; and to augment along them fails only if the total flow
or the residual capacity of a reverse arc would be out of range. -/
theorem cheapestPath_augments (hg : Reach r g) (hst : s ≠ t) (hk : SafeFrom g s)
    (h : g.cheapestPath r s t = .ok (some tree)) :
    (∀ x y : Nat, tree.predecessors[x]? = some (some y) → x ≠ s ∧ ∃ path, Traced tree.predecessors s x path) ∧
    (∃ path arcs, traceBack tree.predecessors s t = .ok path ∧ path.Nodup ∧
      hops path = arcs.map (Prod.map Fin.val Fin.val) ∧ Walk g.residual s arcs t ∧
      costOf g.cost arcs = tree.sinkCost) ∧
    ((∃ a g', g.augment r tree.predecessors s t = .ok (a, g') ∧ a.cost = tree.sinkCost) ∨
      g.augment r tree.predecessors s t = .error (.error (.overflow .totalFlow)) ∨
      g.augment r tree.predecessors s t = .error (.error (.overflow .reverseResidual))) := by
  have hsound := reach_sound hg
  have hfrom := (safeFrom_iff hsound).mp hk
  rw [Network.cheapestPath_eq] at h
  obtain ⟨labels, hl, htree⟩ := Search.treeTo_eq_ok.mp h
  obtain ⟨c, u, hlt, rfl⟩ := Labels.treeTo_eq_some.mp htree
  have hgrounded := Network.search_grounded hsound.residual_nonneg hl
  obtain ⟨path, arcs, hpath, harcs, hleads, hd⟩ := Network.search_leads hsound hl hfrom hlt
  have hopen := hgrounded.isOpen hd
  have hunit := Network.search_unitCost hsound hl hfrom hleads hd hlt
  have hcost : costOf g.cost arcs = c := (unitCost_eq hunit).symm
  refine ⟨fun x y hx => Network.search_traced hsound hl hfrom hx,
    ⟨path, arcs, hpath, (traceBack_eq_ok hpath).nodup, harcs, ⟨hleads, hopen⟩, hcost⟩, ?_⟩
  obtain ⟨b, -, hattempt⟩ := augment_attempt hsound hpath harcs hst hopen
  generalize hx : g.augment r labels.predecessors s t = x at hattempt
  cases hattempt with
  | pathCost hnone => cases hunit.symm.trans hnone
  | totalFlow => exact Or.inr (Or.inl rfl)
  | reverseResidual => exact Or.inr (Or.inr rfl)
  | sent a g' => exact Or.inl ⟨a, g', rfl, (augment_pushed hpath harcs hx).cost.trans hcost⟩

/-- Flow that was sent can be taken back, at a negative cost. -/
theorem halfway_reach : Reach (.ofBits 32) halfway := by
  have hsent : diamond.augment (.ofBits 32) #[none, some 0, some 1, some 2] 0 3 =
      .ok (⟨[0, 1, 2, 3], 1, 3⟩, halfway) := by
    decide +kernel
  exact (Reach.built diamond_built).step (.augment hsent)

theorem halfway_safe : SafeFrom halfway 0 := by
  have hnone : NoNegativeCycle halfway.residual halfway.cost :=
    noNegativeCycle_iff_potential.mpr ⟨![0, 2, 3, 6], by decide +kernel⟩
  exact (safeFrom_iff (reach_sound halfway_reach)).mpr (hnone.from 0)

theorem halfway_augments : halfway.cheapestPath (.ofBits 32) 0 3 = .ok (some ⟨#[none, some 2, some 0, some 1], 6⟩) ∧
    ∃ path arcs, traceBack #[none, some 2, some 0, some 1] 0 3 = .ok path ∧ path.Nodup ∧
      hops path = arcs.map (Prod.map Fin.val Fin.val) ∧ Walk halfway.residual 0 arcs 3 ∧
      costOf halfway.cost arcs = 6 := by
  have hfound : halfway.cheapestPath (.ofBits 32) 0 3 = .ok (some ⟨#[none, some 2, some 0, some 1], 6⟩) := by
    decide +kernel
  exact ⟨hfound, (cheapestPath_augments (s := 0) (t := 3) halfway_reach (by decide) halfway_safe hfound).2.1⟩

end MinCostFlow
