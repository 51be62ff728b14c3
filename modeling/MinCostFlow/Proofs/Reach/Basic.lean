/-
  MinCostFlow.Proofs.Reach.Basic — the networks that callers can come to.

  A network is built when it has been created empty or read from a text, and then arcs
  were added (`Built`). From a built network any calls follow, in any order (`Step`,
  `Reach`): more arcs, other terminals, solves, and augmentations along predecessors of
  the caller's own. All values that a caller passes can be stored. A solve that fails
  leaves the augmentations of its rounds in place; any other call that fails leaves the
  network that it was given, so it is not a step. A call that ends with a fault does not
  return. Solving between the network's own terminals is solving between two vertices. Where
  none of the calls has made an augmentation, the network is untouched (`Untouched`).

  Proved: to show something of all built networks it is enough to look at the empty one
  and at one more arc (`Built.of_arcs`), because reading adds arcs in just the same way.
-/

import MinCostFlow.NetworkFile.Reader
import MinCostFlow.Proofs.Solve.Rounds

namespace MinCostFlow

variable {n : Nat} {r : IntRange} {g g' : Network n}

inductive Built (r : IntRange) : Network n → Prop
  | create {g : Network n} : Network.create n = .ok g → Built r g
  | read {g : Network n} {text : String} : NetworkFile.read r text = .ok ⟨n, g⟩ → Built r g
  | addArc {g g' : Network n} {tail head : Nat} {c k : Int} : Built r g → c ∈ r → k ∈ r →
      g.addArc r tail head c k = .ok g' → Built r g'

/-- A call that returns, with the augmentations that it has made. -/
inductive Step (r : IntRange) (g : Network n) : List Augmentation → Network n → Prop
  | addArc {g' : Network n} {tail head : Nat} {c k : Int} : c ∈ r → k ∈ r →
      g.addArc r tail head c k = .ok g' → Step r g [] g'
  | setTerminals {g' : Network n} {source sink : Nat} : g.setTerminals source sink = .ok g' → Step r g [] g'
  | solve (source sink : Nat) : (∀ f, (g.solveBetween r source sink).outcome ≠ .error (.fault f)) →
      Step r g (g.solveBetween r source sink).augmentations (g.solveBetween r source sink).network
  | augment {g' : Network n} {a : Augmentation} {predecessors : Array (Option Nat)} {source sink : Nat} :
      g.augment r predecessors source sink = .ok (a, g') → Step r g [a] g'

inductive Reach (r : IntRange) : Network n → Prop
  | built {g : Network n} : Built r g → Reach r g
  | step {g g' : Network n} {as : List Augmentation} : Reach r g → Step r g as g' → Reach r g'

/-- Come to by calls that have made no augmentation. -/
inductive Untouched (r : IntRange) : Network n → Prop
  | built {g : Network n} : Built r g → Untouched r g
  | step {g g' : Network n} : Untouched r g → Step r g [] g' → Untouched r g'

theorem Untouched.reach (h : Untouched r g) : Reach r g := by
  induction h with
  | built h => exact .built h
  | step _ hs ih => exact ih.step hs

/-! ## Built networks -/

theorem create_eq_ok : Network.create n = .ok g ↔ n * n < indexLimit ∧ g = Network.empty n := by
  simp only [Network.create, Matrix.create, Network.empty]
  split
  · rename_i hn
    simp only [Except.map, Except.ok.injEq, hn, true_and]
    exact eq_comm
  · rename_i hn
    simp [Except.map, hn]

theorem value_mem {text : String} {c : Int} (h : Decimal.value? r text = some c) : c ∈ r := by
  simp only [Decimal.value?, Option.filter_eq_some_iff] at h
  simpa using h.2

namespace NetworkFile

theorem readAs_eq_ok {α : Type} {t : Token} {field : Field} {read : String → Option α} {x : α} :
    t.readAs field read = .ok x ↔ read t.text = some x := expect_eq_ok

/-- What every added arc keeps, reading arcs keeps. -/
theorem readArcs_keeps {P : Network n → Prop}
    (hP : ∀ g g' tail head c k, P g → c ∈ r → k ∈ r → g.addArc r tail head c k = .ok g' → P g')
    {ts : List Token} (h : readArcs r g ts = .ok g') (hg : P g) : P g' := by
  fun_induction readArcs r g ts with
  | case1 =>
    obtain rfl := Except.ok.inj h
    exact hg
  | case2 =>
    obtain ⟨_, -, h⟩ := bind_eq_ok.mp h
    cases h
  | case3 =>
    simp only [bind_eq_ok] at h
    obtain ⟨_, -, _, -, h⟩ := h
    cases h
  | case4 =>
    simp only [bind_eq_ok] at h
    obtain ⟨_, -, _, -, _, -, h⟩ := h
    cases h
  | case5 g t h c k rest ih =>
    simp only [bind_eq_ok, readAs_eq_ok, mapError_eq_ok] at h
    obtain ⟨tail, -, head, -, capacity, hc, cost, hk, g1, hadd, h⟩ := h
    exact ih g1 h (hP g g1 tail head capacity cost hg (value_mem hc) (value_mem hk) hadd)

theorem read_eq_ok {text : String} (h : NetworkFile.read r text = .ok ⟨n, g⟩) :
    ∃ ts, readArcs r (Network.empty n) ts = .ok g := by
  unfold NetworkFile.read at h
  split at h
  · cases h
  · simp only [bind_eq_ok, pure_eq_ok] at h
    obtain ⟨_, -, _, -, _, hg, h⟩ := h
    cases h
    exact ⟨_, hg⟩

end NetworkFile

/-- Whatever the empty network has, and one more arc keeps, every built network has. -/
theorem Built.of_arcs {P : Network n → Prop} (h0 : P (Network.empty n))
    (hP : ∀ g g' tail head c k, P g → c ∈ r → k ∈ r → g.addArc r tail head c k = .ok g' → P g')
    (h : Built r g) : P g := by
  induction h with
  | create h =>
    obtain ⟨-, rfl⟩ := create_eq_ok.mp h
    exact h0
  | read h =>
    obtain ⟨ts, h⟩ := NetworkFile.read_eq_ok h
    exact NetworkFile.readArcs_keeps hP h h0
  | addArc _ hc hk h ih => exact hP _ _ _ _ _ _ ih hc hk h

theorem Built.setArc (h : Built r g) (u v : Fin n) (c k : Int) (hck : 0 ≤ c ∧ c ∈ r ∧ k ∈ r ∧ -k ∈ r) :
    Built r (g.setArc u v c k) :=
  h.addArc hck.2.1 hck.2.2.1 (Network.addArc_eq_ok.mpr ⟨u, v, rfl, rfl, hck.1, hck.2.2.2, rfl⟩)

theorem built_empty (h : n * n < indexLimit) : Built r (Network.empty n) := .create (create_eq_ok.mpr ⟨h, rfl⟩)

theorem Built.setArcs (hg : Built r g) (arcs : List (Fin n × Fin n × Int × Int))
    (h : ∀ a ∈ arcs, match a with | (_, _, c, k) => 0 ≤ c ∧ c ∈ r ∧ k ∈ r ∧ -k ∈ r) :
    Built r (arcs.foldl (fun g (u, v, c, k) => g.setArc u v c k) g) := by
  induction arcs generalizing g with
  | nil => exact hg
  | cons a arcs ih =>
    have ha := h a (List.mem_cons_self ..)
    exact ih (hg.setArc a.1 a.2.1 a.2.2.1 a.2.2.2 ha) fun b hb => h b (List.mem_cons_of_mem a hb)

/-! ## Networks to look at -/

/-- Sending as much as possible from `0` to `3` first takes the arc `1 -> 2`, and then takes it back. -/
def diamond : Network 4 :=
  (((((Network.empty 4).setArc 0 1 1 1).setArc 0 2 1 3).setArc 1 2 1 1).setArc 1 3 1 4).setArc 2 3 1 1

theorem diamond_built : Built (.ofBits 32) diamond :=
  (built_empty (by decide)).setArcs [(0, 1, 1, 1), (0, 2, 1, 3), (1, 2, 1, 1), (1, 3, 1, 4), (2, 3, 1, 1)] (by decide)

theorem diamond_noNegativeCycle : NoNegativeCycle diamond.residual diamond.cost :=
  noNegativeCycle_iff_potential.mpr ⟨![0, 1, 2, 3], by decide⟩

theorem diamond_solved : (diamond.solveBetween (.ofBits 32) 0 3).outcome =
    .ok ⟨2, 9, [⟨[0, 1, 2, 3], 1, 3⟩, ⟨[0, 2, 1, 3], 1, 6⟩]⟩ := by
  decide +kernel

/-- The diamond, where the way through `1 -> 2` is not worth it. -/
def dearDiamond : Network 4 := diamond.setArc 1 2 1 9

theorem dearDiamond_built : Built (.ofBits 32) dearDiamond := diamond_built.setArc 1 2 1 9 (by decide)

/-- The diamond after a solve, where the arc `0 -> 1` gets a capacity again, at a cost that closes a
cycle of negative cost through `2`. -/
def refilled : Network 4 := (diamond.solveBetween (.ofBits 32) 0 3).network.setArc 0 1 2 (-9)

theorem refilled_reach : Reach (.ofBits 32) refilled := by
  have hsolve : ∀ f, (diamond.solveBetween (.ofBits 32) 0 3).outcome ≠ .error (.fault f) := by
    rw [diamond_solved]
    exact fun _ h => by cases h
  have hadd : (diamond.solveBetween (.ofBits 32) 0 3).network.addArc (.ofBits 32) 0 1 2 (-9) = .ok refilled :=
    Network.addArc_eq_ok.mpr ⟨0, 1, rfl, rfl, by decide, by decide, rfl⟩
  have hsolved := (Reach.built diamond_built).step (.solve 0 3 hsolve)
  exact hsolved.step (.addArc (by decide) (by decide) hadd)

/-- Over `1` and over `2` a unit goes up at a cost of 100, and down again for the same. -/
def seesaw : Network 4 :=
  ((((Network.empty 4).setArc 0 1 1 100).setArc 0 2 1 100).setArc 1 3 1 (-100)).setArc 2 3 1 (-100)

theorem seesaw_built : Built (.ofBits 8) seesaw :=
  (built_empty (by decide)).setArcs [(0, 1, 1, 100), (0, 2, 1, 100), (1, 3, 1, -100), (2, 3, 1, -100)] (by decide)

end MinCostFlow
