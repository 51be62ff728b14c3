/-
  MinCostFlow.Proofs.Augmentation.Attempt — how an attempt to augment can end.

  Say that the way back has given a path, and that something is left on each of its arcs.
  Then the attempt fails only if one of three sums is out of range: the cost of a unit along
  the path, the total flow, or what a reverse arc has afterwards (`Attempt`). Each comes
  with its own error. Otherwise the flow is sent: the subtractions and additions on the
  path, which nothing checks, stay in range, because the path takes no arc twice, and the
  reverse of an arc only gives back what it has just gained (`sends_ok`).

  Proved, of every network that callers can come to: an attempt along open arcs ends in one
  of these ways, and never with a fault (`augment_attempt`).
-/

import MinCostFlow.Proofs.Reach.Sound

namespace MinCostFlow

variable {n : Nat} {r : IntRange} {g : Network n} {s t u v : Fin n} {arcs : List (Fin n × Fin n)} {b : Int}
  {predecessors : Array (Option Nat)} {path : List Nat}

/-! ## Sending along a path -/

/-- All residual capacities can be stored, and none is negative. -/
def Storable (r : IntRange) (m : Matrix n) : Prop := ∀ u v, 0 ≤ m u v ∧ m u v ≤ r.top

theorem Sound.storable (h : Sound r g) : Storable r g.residual := fun u v => ⟨h.residual_nonneg u v, h.residual_le u v⟩

theorem Storable.mem {m : Matrix n} (h : Storable r m) (u v : Fin n) : m u v ∈ r := by
  have := h u v
  exact IntRange.mem_iff.mpr ⟨by omega, this.2⟩

/-- What sending on one arc makes of the residual capacities. -/
structure SentOn (b : Int) (u v : Fin n) (m m' : Matrix n) : Prop where
  forth : m' u v = m u v - b
  back : m' v u = m v u + b
  other : ∀ x y, ¬(x = u ∧ y = v) → ¬(x = v ∧ y = u) → m' x y = m x y

theorem send_ok {m : Matrix n} (hm : Storable r m) (hb : 0 ≤ b) (huv : u ≠ v) (hle : b ≤ m u v)
    (hback : m v u + b ∈ r) : ∃ m', Network.send r b m u v = .ok m' ∧ SentOn b u v m m' := by
  have hcell := hm u v
  have hleft : m u v - b ∈ r := IntRange.mem_iff.mpr ⟨by omega, by omega⟩
  have hsame : m.set u v (m u v - b) v u = m v u := Matrix.get_set_ne m _ fun h => huv h.1
  have hsend : Network.send r b m u v = .ok ((m.set u v (m u v - b)).set v u (m v u + b)) := by
    refine bind_eq_ok.mpr ⟨_, IntRange.require_eq_ok.mpr ⟨hleft, rfl⟩, bind_eq_ok.mpr ⟨m v u + b, ?_, rfl⟩⟩
    rw [hsame]
    exact IntRange.require_eq_ok.mpr ⟨hback, rfl⟩
  refine ⟨_, hsend, ?_, ?_, ?_⟩
  · rw [Matrix.get_set_ne _ _ fun h => huv h.1.symm, Matrix.get_set_self]
  · rw [Matrix.get_set_self]
  · intro x y hxy hyx
    rw [Matrix.get_set_ne _ _ fun h => hyx ⟨h.1.symm, h.2.symm⟩, Matrix.get_set_ne _ _ fun h => hxy ⟨h.1.symm, h.2.symm⟩]

namespace SentOn

variable {m m' : Matrix n} (h : SentOn b u v m m')

include h

theorem storable (hm : Storable r m) (hb : 0 ≤ b) (hle : b ≤ m u v) (hback : m v u + b ∈ r) : Storable r m' := by
  intro x y
  have hxy := hm x y
  by_cases hforth : x = u ∧ y = v
  · obtain ⟨rfl, rfl⟩ := hforth
    rw [h.forth]
    omega
  by_cases hrev : x = v ∧ y = u
  · obtain ⟨rfl, rfl⟩ := hrev
    have := (IntRange.mem_iff.mp hback).2
    rw [h.back]
    omega
  · rwa [h.other x y hforth hrev]

/-- Of the arcs that do not leave `u` only the reverse of this one is touched. -/
theorem kept {a : Fin n × Fin n} (hau : a.1 ≠ u) :
    a = (v, u) ∨ m' a.1 a.2 = m a.1 a.2 ∧ m' a.2 a.1 = m a.2 a.1 := by
  by_cases hav : a = (v, u)
  · exact Or.inl hav
  · have hrev : ¬(a.1 = v ∧ a.2 = u) := fun h => hav (Prod.ext h.1 h.2)
    exact Or.inr ⟨h.other _ _ (fun h => hau h.1) hrev, h.other _ _ (fun h => hrev h.symm) fun h => hau h.2⟩

end SentOn

theorem sends_ok {m : Matrix n} (hm : Storable r m) (hb : 0 ≤ b) (hs : Simple arcs)
    (hle : ∀ a ∈ arcs, a.1 ≠ a.2 ∧ b ≤ m a.1 a.2) (hback : ∀ a ∈ arcs, m a.2 a.1 + b ∈ r) :
    ∃ m', arcs.foldlM (fun m (u, v) => Network.send r b m u v) m = .ok m' := by
  induction arcs generalizing m with
  | nil => exact ⟨m, rfl⟩
  | cons a arcs ih =>
    obtain ⟨u, v⟩ := a
    obtain ⟨hu, hs⟩ := List.nodup_cons.mp hs
    obtain ⟨huv, hleuv⟩ : u ≠ v ∧ b ≤ m u v := hle (u, v) (List.mem_cons_self ..)
    have hbackuv : m v u + b ∈ r := hback (u, v) (List.mem_cons_self ..)
    obtain ⟨m1, hsend, hsent⟩ := send_ok hm hb huv hleuv hbackuv
    have hm1 : Storable r m1 := hsent.storable hm hb hleuv hbackuv
    have hkept : ∀ a ∈ arcs, a = (v, u) ∨ m1 a.1 a.2 = m a.1 a.2 ∧ m1 a.2 a.1 = m a.2 a.1 :=
      fun a ha => hsent.kept fun h => hu (List.mem_map.mpr ⟨a, ha, h⟩)
    have hle1 : ∀ a ∈ arcs, a.1 ≠ a.2 ∧ b ≤ m1 a.1 a.2 := by
      intro a ha
      refine ⟨(hle a (List.mem_cons_of_mem _ ha)).1, ?_⟩
      rcases hkept a ha with rfl | ⟨h, -⟩
      · have := hm v u
        rw [hsent.back]
        omega
      · rw [h]
        exact (hle a (List.mem_cons_of_mem _ ha)).2
    have hback1 : ∀ a ∈ arcs, m1 a.2 a.1 + b ∈ r := by
      intro a ha
      rcases hkept a ha with rfl | ⟨-, h⟩
      · rw [hsent.forth, Int.sub_add_cancel]
        exact hm.mem u v
      · rw [h]
        exact hback a (List.mem_cons_of_mem _ ha)
    obtain ⟨m', hm'⟩ := ih hm1 hs hle1 hback1
    refine ⟨m', ?_⟩
    exact bind_eq_ok.mpr ⟨m1, hsend, hm'⟩

/-! ## The end of an attempt -/

/-- A path on which `b` is left on each arc. -/
structure Passable (g : Network n) (s t : Fin n) (arcs : List (Fin n × Fin n)) (b : Int) : Prop where
  leads : Leads s arcs t
  simple : Simple arcs
  pos : 0 < b
  le_residual : ∀ a ∈ arcs, a.1 ≠ a.2 ∧ b ≤ g.residual a.1 a.2

theorem Passable.sendAlong_ok {path : List Nat} {c totalFlow : Int} (h : Passable g s t arcs b) (hg : Sound r g)
    (hback : ∀ a ∈ arcs, g.residual a.2 a.1 + b ∈ r) :
    ∃ g', g.sendAlong r arcs ⟨path, b, c⟩ totalFlow = .ok g' := by
  obtain ⟨m', hm'⟩ := sends_ok hg.storable h.pos.le h.simple h.le_residual hback
  exact ⟨_, bind_eq_ok.mpr ⟨m', hm', rfl⟩⟩

/-- How sending `b` along `arcs` can end, if it is tried. -/
inductive Attempt (r : IntRange) (g : Network n) (arcs : List (Fin n × Fin n)) (b : Int) :
    Except (Failure SolveError) (Augmentation × Network n) → Prop
  | pathCost : g.unitCost? r arcs = none → Attempt r g arcs b (.error (.error (.overflow .pathCost)))
  | totalFlow : g.totalFlow + b ∉ r → Attempt r g arcs b (.error (.error (.overflow .totalFlow)))
  | reverseResidual {u v : Fin n} : (u, v) ∈ arcs → g.residual v u + b ∉ r →
      Attempt r g arcs b (.error (.error (.overflow .reverseResidual)))
  | sent (a : Augmentation) (g' : Network n) : Attempt r g arcs b (.ok (a, g'))

theorem locate_map (arcs : List (Fin n × Fin n)) :
    (arcs.map (Prod.map Fin.val Fin.val)).mapM (fun (i, j) => Matrix.locate n i j) = .ok arcs := by
  induction arcs with
  | nil => rfl
  | cons a arcs ih =>
    rw [List.map_cons, List.mapM_cons, ih]
    exact bind_of_ok (Matrix.locate_eq_ok.mpr ⟨rfl, rfl⟩)

theorem exists_bottleneck (hne : arcs ≠ []) :
    ∃ b, g.bottleneck? arcs = some b ∧ (∃ a ∈ arcs, g.residual a.1 a.2 = b) ∧ ∀ a ∈ arcs, b ≤ g.residual a.1 a.2 := by
  cases hb : g.bottleneck? arcs with
  | none => exact absurd (List.map_eq_nil_iff.mp (List.min?_eq_none_iff.mp hb)) hne
  | some b =>
    obtain ⟨hmem, hle⟩ := List.min?_eq_some_iff.mp hb
    obtain ⟨a, ha, hab⟩ := List.mem_map.mp hmem
    exact ⟨b, rfl, ⟨a, ha, hab⟩, fun a ha => hle _ (List.mem_map_of_mem ha)⟩

/-- A path of open arcs has a bottleneck, which is left on each arc. -/
theorem exists_passable (hpath : traceBack predecessors s t = .ok path)
    (harcs : hops path = arcs.map (Prod.map Fin.val Fin.val)) (hst : s ≠ t)
    (hopen : ∀ a ∈ arcs, Open g.residual a.1 a.2) : ∃ b, g.bottleneck? arcs = some b ∧ Passable g s t arcs b := by
  have htraced := traceBack_eq_ok hpath
  have hnames := htraced.leads
  have hsimple := htraced.simple
  rw [harcs] at hnames hsimple
  have hleads : Leads s arcs t := leads_of_names hnames
  have hnonempty : arcs ≠ [] := by
    rintro rfl
    exact hst hleads
  obtain ⟨b, hb, ⟨a, ha, hab⟩, hle⟩ := exists_bottleneck (g := g) hnonempty
  exact ⟨b, hb, hleads, hsimple.of_map, hab ▸ (hopen a ha).2, fun a ha => ⟨(hopen a ha).1, hle a ha⟩⟩

theorem Passable.attempt (h : Passable g s t arcs b) (hg : Sound r g) (hb : g.bottleneck? arcs = some b)
    (hpath : traceBack predecessors s t = .ok path) (harcs : hops path = arcs.map (Prod.map Fin.val Fin.val)) :
    Attempt r g arcs b (g.augment r predecessors s t) := by
  have hloc : (hops path).mapM (fun (u, v) => Matrix.locate n u v) = .ok arcs := harcs ▸ locate_map arcs
  cases hresult : g.augment r predecessors s t with
  | ok x => exact .sent x.1 x.2
  | error e =>
    rw [Network.augment, bind_of_ok hpath, bind_of_ok (orFault_eq_ok.mpr hloc), bind_of_ok (expect_eq_ok.mpr hb),
      bind_of_ok ((demand_eq_ok (u := ())).mpr h.pos)] at hresult
    -- the path is known and has a bottleneck, so what has failed comes later
    rcases bind_eq_error.mp hresult with hfail | ⟨c, -, hresult⟩
    · obtain ⟨hcost, rfl⟩ := expect_eq_error.mp hfail
      exact .pathCost hcost
    rcases bind_eq_error.mp hresult with hfail | ⟨_, -, hresult⟩
    · obtain ⟨htotal, rfl⟩ := IntRange.require_eq_error.mp hfail
      exact .totalFlow htotal
    rcases bind_eq_error.mp hresult with hfail | ⟨_, hback, hresult⟩
    · obtain ⟨hback, rfl⟩ := demand_eq_error.mp hfail
      simp only [List.all_eq_true, decide_eq_true_eq, not_forall] at hback
      obtain ⟨x, hx, hback⟩ := hback
      exact .reverseResidual hx hback
    rcases bind_eq_error.mp hresult with hfail | ⟨_, -, hresult⟩
    · have hfits : ∀ a ∈ arcs, g.residual a.2 a.1 + b ∈ r := by simpa using demand_eq_ok.mp hback
      obtain ⟨g', hsent⟩ := h.sendAlong_ok hg hfits
      obtain ⟨f, hf, -⟩ := orFault_eq_error.mp hfail
      cases hsent.symm.trans hf
    · cases hresult

/-- Along a path of open arcs the bottleneck is sent, or one of the sums that are checked is out of
range. -/
theorem augment_attempt (hg : Sound r g) (hpath : traceBack predecessors s t = .ok path)
    (harcs : hops path = arcs.map (Prod.map Fin.val Fin.val)) (hst : s ≠ t)
    (hopen : ∀ a ∈ arcs, Open g.residual a.1 a.2) :
    ∃ b, Passable g s t arcs b ∧ Attempt r g arcs b (g.augment r predecessors s t) := by
  obtain ⟨b, hb, hpass⟩ := exists_passable hpath harcs hst hopen
  exact ⟨b, hpass, hpass.attempt hg hb hpath harcs⟩

end MinCostFlow
