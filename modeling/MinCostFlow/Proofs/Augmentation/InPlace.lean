/-
  MinCostFlow.Proofs.Augmentation.InPlace — an augmentation that is written into the network.

  An augmentation hands out a network of its own, so one that fails cannot be seen to leave
  anything behind. Here the network is kept in one place (`Memory`), and an edit reads it and
  writes it, one cell after the other. What was written stays written when a later step fails,
  and writes are counted. `InPlace.augment` takes the steps of an augmentation in this way: first
  what is settled before flow is sent, then for each arc of the path its residual capacity and
  that of its reverse, each of which is calculated from what stands there at that moment, and the
  total flow at the end.

  It answers what `Network.augment` answers, and leaves the network that this gives
  (`augment_follows`), whatever network and predecessors it is given. But a failure of the
  calculations between two writes would leave the path half augmented.

  Proved, of every network that callers can come to, and of any predecessors: an augmentation that
  fails, with an error or with a fault, has written nothing; and one that succeeds has sent the
  least residual capacity along the path that the predecessors describe, has written each cell
  of that path once, and nothing else (`augment_all_or_nothing`). No cell comes twice, because
  no vertex does, and so the path does not go back on its own hops either.
-/

import Mathlib.Order.Bounds.Basic
import MinCostFlow.Proofs.Augmentation.Plan

namespace MinCostFlow

variable {n : Nat} {r : IntRange} {g g' : Network n} {s t u v : Fin n} {arcs : List (Fin n × Fin n)} {b : Int}
  {m : Matrix n} {f : Fault} {e : Failure SolveError} {predecessors : Array (Option Nat)} {source sink k : Nat}
  {a : Augmentation} {totalFlow : Int}

/-! ## Edits of a network in one place -/

structure Memory (n : Nat) where
  network : Network n
  /-- How often something was written. -/
  writes : Nat
  deriving DecidableEq, Repr

/-- A failing edit keeps the memory as it is at that moment. -/
abbrev Edit (n : Nat) (α : Type) := ExceptT (Failure SolveError) (StateM (Memory n)) α

namespace Edit

variable {α β : Type} {x : Edit n α} {y : α → Edit n β} {memory memory' : Memory n} {c : α}

def on (x : Edit n α) (memory : Memory n) : Except (Failure SolveError) α × Memory n := (ExceptT.run x).run memory

/-- Go on with what is calculated from the network, or fail with it. -/
def read (calculate : Network n → Except (Failure SolveError) α) : Edit n α :=
  ExceptT.mk fun memory => (calculate memory.network, memory)

def write (change : Network n → Network n) : Edit n Unit :=
  ExceptT.mk fun memory => (.ok (), ⟨change memory.network, memory.writes + 1⟩)

theorem on_bind_ok (h : x.on memory = (.ok c, memory')) : (x >>= y).on memory = (y c).on memory' := by
  show (ExceptT.bindCont y (x.on memory).1 : StateM (Memory n) _) (x.on memory).2 = _
  rw [h]
  rfl

theorem on_bind_error (h : x.on memory = (.error e, memory')) : (x >>= y).on memory = (.error e, memory') := by
  show (ExceptT.bindCont y (x.on memory).1 : StateM (Memory n) _) (x.on memory).2 = _
  rw [h]
  rfl

theorem on_read_ok {calculate : Network n → Except (Failure SolveError) α} (h : calculate memory.network = .ok c) :
    (read calculate >>= y).on memory = (y c).on memory := by
  apply on_bind_ok
  show (calculate memory.network, memory) = _
  rw [h]

theorem on_read_error {calculate : Network n → Except (Failure SolveError) α} (h : calculate memory.network = .error e) :
    (read calculate >>= y).on memory = (.error e, memory) := by
  apply on_bind_error
  show (calculate memory.network, memory) = _
  rw [h]

theorem on_write (change : Network n → Network n) (y : Unit → Edit n β) (memory : Memory n) :
    (write change >>= y).on memory = (y ()).on ⟨change memory.network, memory.writes + 1⟩ :=
  on_bind_ok rfl

end Edit

open Edit

namespace InPlace

/-- Write both cells of an arc. -/
def send (r : IntRange) (amount : Int) (u v : Fin n) : Edit n Unit := do
  let left ← read fun g => orFault (r.require .subtractionOverflow (g.residual u v - amount))
  write fun g => { g with residual := g.residual.set u v left }
  let back ← read fun g => orFault (r.require .additionOverflow (g.residual v u + amount))
  write fun g => { g with residual := g.residual.set v u back }

def augment (r : IntRange) (predecessors : Array (Option Nat)) (source sink : Nat) : Edit n Augmentation := do
  let (arcs, a, totalFlow) ← read fun g => g.prepare r predecessors source sink
  arcs.forM fun (u, v) => send r a.bottleneck u v
  write fun g => { g with totalFlow }
  return a

/-! ## The same answers -/

theorem on_send_ok (h : Network.send r b g.residual u v = .ok m) :
    (send r b u v).on ⟨g, k⟩ = (.ok (), ⟨{ g with residual := m }, k + 2⟩) := by
  simp only [Network.send, bind_eq_ok, pure_eq_ok] at h
  obtain ⟨left, hleft, back, hback, rfl⟩ := h
  unfold send
  rw [on_read_ok (orFault_eq_ok.mpr hleft), on_write, on_read_ok (orFault_eq_ok.mpr hback)]
  rfl

theorem on_send_error (h : Network.send r b g.residual u v = .error f) :
    ((send r b u v).on ⟨g, k⟩).1 = .error (.fault f) := by
  unfold send
  rcases bind_eq_error.mp h with hleft | ⟨left, hleft, h⟩
  · rw [on_read_error (orFault_eq_error.mpr ⟨f, hleft, rfl⟩)]
  · rw [on_read_ok (orFault_eq_ok.mpr hleft), on_write]
    rcases bind_eq_error.mp h with hback | ⟨_, -, h⟩
    · rw [on_read_error (orFault_eq_error.mpr ⟨f, hback, rfl⟩)]
    · cases h

theorem on_sends_ok (h : arcs.foldlM (fun m (u, v) => Network.send r b m u v) g.residual = .ok m) :
    (arcs.forM fun (u, v) => send r b u v).on ⟨g, k⟩ = (.ok (), ⟨{ g with residual := m }, k + 2 * arcs.length⟩) := by
  induction arcs generalizing g k with
  | nil =>
    obtain rfl := Except.ok.inj h
    rfl
  | cons a arcs ih =>
    rw [List.foldlM_cons] at h
    obtain ⟨m1, hsend, h⟩ := bind_eq_ok.mp h
    show (send r b a.1 a.2 >>= fun _ => arcs.forM fun (u, v) => send r b u v).on ⟨g, k⟩ = _
    rw [on_bind_ok (on_send_ok hsend), ih (g := { g with residual := m1 }) h, List.length_cons, Nat.mul_succ,
      Nat.add_assoc, Nat.add_comm 2]

theorem on_sends_error (h : arcs.foldlM (fun m (u, v) => Network.send r b m u v) g.residual = .error f) :
    ((arcs.forM fun (u, v) => send r b u v).on ⟨g, k⟩).1 = .error (.fault f) := by
  induction arcs generalizing g k with
  | nil => cases h
  | cons a arcs ih =>
    rw [List.foldlM_cons] at h
    show ((send r b a.1 a.2 >>= fun _ => arcs.forM fun (u, v) => send r b u v).on ⟨g, k⟩).1 = _
    rcases bind_eq_error.mp h with hsend | ⟨m1, hsend, h⟩
    · rw [on_bind_error (Prod.ext (on_send_error hsend) rfl)]
    · rw [on_bind_ok (on_send_ok hsend), ih (g := { g with residual := m1 }) h]

theorem on_augment_error (h : g.prepare r predecessors source sink = .error e) :
    (augment r predecessors source sink).on ⟨g, k⟩ = (.error e, ⟨g, k⟩) :=
  on_read_error h

theorem on_augment_ok (h : g.prepare r predecessors source sink = .ok (arcs, a, totalFlow))
    (hm : arcs.foldlM (fun m (u, v) => Network.send r a.bottleneck m u v) g.residual = .ok m) :
    (augment r predecessors source sink).on ⟨g, k⟩ =
      (.ok a, ⟨{ g with residual := m, totalFlow := totalFlow }, k + 2 * arcs.length + 1⟩) := by
  unfold augment
  rw [on_read_ok h]
  show ((arcs.forM fun (u, v) => send r a.bottleneck u v) >>= _).on ⟨g, k⟩ = _
  rw [on_bind_ok (on_sends_ok hm), on_write]
  rfl

theorem on_augment_fault (h : g.prepare r predecessors source sink = .ok (arcs, a, totalFlow))
    (hm : arcs.foldlM (fun m (u, v) => Network.send r a.bottleneck m u v) g.residual = .error f) :
    ((augment r predecessors source sink).on ⟨g, k⟩).1 = .error (.fault f) := by
  unfold augment
  rw [on_read_ok h]
  show (((arcs.forM fun (u, v) => send r a.bottleneck u v) >>= _).on ⟨g, k⟩).1 = _
  rw [on_bind_error (Prod.ext (on_sends_error hm) rfl)]

/-- What is answered in place, and what is left there, is what the other way gives. -/
def Follows (done : Except (Failure SolveError) Augmentation × Memory n) :
    Except (Failure SolveError) (Augmentation × Network n) → Prop
  | .error e => done.1 = .error e
  | .ok (a, g') => done.1 = .ok a ∧ done.2.network = g'

theorem augment_follows (r : IntRange) (g : Network n) (predecessors : Array (Option Nat)) (source sink k : Nat) :
    Follows ((augment r predecessors source sink).on ⟨g, k⟩) (g.augment r predecessors source sink) := by
  rw [Network.augment_eq_prepare]
  cases h : g.prepare r predecessors source sink with
  | error e => exact congrArg Prod.fst (on_augment_error h)
  | ok x =>
    obtain ⟨arcs, a, totalFlow⟩ := x
    show Follows _ (orFault (g.sendAlong r arcs a totalFlow) >>= _)
    cases hm : arcs.foldlM (fun m (u, v) => Network.send r a.bottleneck m u v) g.residual with
    | error f =>
      have hstopped : g.sendAlong r arcs a totalFlow = .error f := bind_eq_error.mpr (Or.inl hm)
      rw [hstopped]
      exact on_augment_fault h hm
    | ok m =>
      have hsent : g.sendAlong r arcs a totalFlow = .ok { g with residual := m, totalFlow := totalFlow } :=
        bind_eq_ok.mpr ⟨m, hm, rfl⟩
      rw [hsent, on_augment_ok h hm]
      exact ⟨rfl, rfl⟩

end InPlace

/-! ## What has been sent -/

/-- What an augmentation along `arcs` has made of a network: each of its cells has been changed once. -/
structure Sent (g : Network n) (arcs : List (Fin n × Fin n)) (a : Augmentation) (g' : Network n) : Prop where
  one_le : 1 ≤ a.bottleneck
  bottleneck : IsLeast {x | ∃ p ∈ arcs, g.residual p.1 p.2 = x} a.bottleneck
  cost : a.cost = costOf g.cost arcs
  forth : ∀ p ∈ arcs, g'.residual p.1 p.2 = g.residual p.1 p.2 - a.bottleneck
  back : ∀ p ∈ arcs, g'.residual p.2 p.1 = g.residual p.2 p.1 + a.bottleneck
  emptied : ∃ p ∈ arcs, g'.residual p.1 p.2 = 0
  other : ∀ u v, (u, v) ∉ arcs → (v, u) ∉ arcs → g'.residual u v = g.residual u v
  frame : g' = { g with residual := g'.residual, totalFlow := g.totalFlow + a.bottleneck }

/-- An arc that is taken once, and never in the other direction. -/
theorem net_eq_one (hs : Simple arcs) (huv : (u, v) ∈ arcs) (hvu : (v, u) ∉ arcs) : net arcs u v = 1 := by
  have honce : arcs.count (u, v) = 1 := le_antisymm (hs.count_le_one (u, v)) (List.count_pos_iff.mpr huv)
  rw [net, honce, List.count_eq_zero_of_not_mem hvu]
  rfl

theorem net_eq_zero (huv : (u, v) ∉ arcs) (hvu : (v, u) ∉ arcs) : net arcs u v = 0 := by
  rw [net, List.count_eq_zero_of_not_mem huv, List.count_eq_zero_of_not_mem hvu]
  rfl

theorem Pushed.sent (h : Pushed r g s t arcs a g') (hpath : a.path.Nodup) : Sent g arcs a g' := by
  have hback : ∀ p ∈ arcs, (p.2, p.1) ∉ arcs := by
    intro p hp hswap
    have hmem : ∀ q ∈ arcs, (q.1.val, q.2.val) ∈ hops a.path := fun q hq => h.hops_path ▸ List.mem_map_of_mem hq
    exact swap_not_mem_hops hpath (hmem p hp) (hmem _ hswap)
  have hnet : ∀ p ∈ arcs, net arcs p.1 p.2 = 1 := fun p hp => net_eq_one h.simple hp (hback p hp)
  have hforth : ∀ p ∈ arcs, g'.residual p.1 p.2 = g.residual p.1 p.2 - a.bottleneck := by
    intro p hp
    rw [h.residual, hnet p hp, Int.mul_one]
  obtain ⟨p, hp, hleast⟩ := h.attained
  refine ⟨h.pos, ⟨⟨p, hp, hleast⟩, ?_⟩, h.cost, hforth, ?_, ⟨p, hp, ?_⟩, ?_, h.frame⟩
  · rintro x ⟨q, hq, rfl⟩
    exact (h.le_residual q hq).2
  · intro q hq
    rw [h.residual, net_swap arcs q.1 q.2, hnet q hq]
    omega
  · rw [hforth p hp, hleast, Int.sub_self]
  · intro u v huv hvu
    rw [h.residual, net_eq_zero huv hvu, Int.mul_zero, Int.sub_zero]

/-- An augmentation is made as a whole or not at all, whatever predecessors it is given: one that fails has
not begun to write, and what one that succeeds has written is its path, and the total flow. -/
theorem augment_all_or_nothing (hg : Reach r g) (predecessors : Array (Option Nat)) (source sink : Nat) :
    (∀ e, g.augment r predecessors source sink = .error e →
      (InPlace.augment r predecessors source sink).on ⟨g, 0⟩ = (.error e, ⟨g, 0⟩)) ∧
    ∀ a g', g.augment r predecessors source sink = .ok (a, g') →
      ∃ arcs, (InPlace.augment r predecessors source sink).on ⟨g, 0⟩ = (.ok a, ⟨g', 2 * arcs.length + 1⟩) ∧
        Traced predecessors source sink a.path ∧ a.path.Nodup ∧ hops a.path = arcs.map (Prod.map Fin.val Fin.val) ∧
        Sent g arcs a g' := by
  cases h : g.prepare r predecessors source sink with
  | error e =>
    have hrefused : g.augment r predecessors source sink = .error e := by
      rw [Network.augment_eq_prepare, h]
      rfl
    rw [hrefused]
    constructor
    · intro e' he
      obtain rfl := Except.error.inj he
      exact InPlace.on_augment_error h
    · intro a g' ha
      cases ha
  | ok x =>
    obtain ⟨arcs, a, totalFlow⟩ := x
    obtain ⟨htraced, harcs, -⟩ := Network.prepare_eq_ok h
    obtain ⟨m, hm, hsent⟩ := augment_of_prepare (reach_sound hg) h
    constructor
    · intro e he
      cases hsent.symm.trans he
    · intro a' g' ha
      obtain ⟨rfl, rfl⟩ := Prod.mk.inj (Except.ok.inj (hsent.symm.trans ha))
      obtain ⟨-, s, t, arcs', -, -, hpushed⟩ := augment_eq_ok ha
      obtain rfl := eq_of_names (hpushed.hops_path.symm.trans harcs)
      have hwritten := InPlace.on_augment_ok (k := 0) h hm
      rw [Nat.zero_add] at hwritten
      exact ⟨arcs', hwritten, htraced, htraced.nodup, harcs, hpushed.sent htraced.nodup⟩

/-- Predecessors of a caller's own: they go round in a circle, but not below `1`. -/
theorem diamond_all_or_nothing :
    (InPlace.augment (.ofBits 32) #[none, some 0, some 3, some 2] 0 2).on ⟨diamond, 0⟩ =
      (.error (.error (.brokenTree 2 2 4)), ⟨diamond, 0⟩) ∧
    (InPlace.augment (.ofBits 32) #[none, some 0, some 3, some 9] 0 2).on ⟨diamond, 0⟩ =
      (.error (.fault (.predecessorOutOfRange 9 4)), ⟨diamond, 0⟩) ∧
    ∃ g', (InPlace.augment (.ofBits 32) #[none, some 0, some 3, some 2] 0 1).on ⟨diamond, 0⟩ =
        (.ok ⟨[0, 1], 1, 1⟩, ⟨g', 3⟩) ∧
      Sent diamond [(0, 1)] ⟨[0, 1], 1, 1⟩ g' := by
  have hreach : Reach (.ofBits 32) diamond := .built diamond_built
  refine ⟨?_, ?_, ?_⟩
  · exact (augment_all_or_nothing hreach #[none, some 0, some 3, some 2] 0 2).1 _ (by decide +kernel)
  · exact (augment_all_or_nothing hreach #[none, some 0, some 3, some 9] 0 2).1 _ (by decide +kernel)
  · obtain ⟨arcs, hdone, -, -, harcs, hsent⟩ :=
      (augment_all_or_nothing hreach #[none, some 0, some 3, some 2] 0 1).2 ⟨[0, 1], 1, 1⟩
        { diamond with residual := (diamond.residual.set 0 1 0).set 1 0 1, totalFlow := 1 } (by decide +kernel)
    obtain rfl : [(0, 1)] = arcs := eq_of_names harcs
    exact ⟨_, hdone, hsent⟩

end MinCostFlow
