/-
  MinCostFlow.Proofs.Arcs.LastCall — what is left of arcs that were added one after the other.

  Each arc that is added writes four cells: the capacity and the residual capacity of its pair,
  the cost of its pair, and the opposite cost at the opposite pair. Arcs in both directions
  between two vertices share the last two, and of a loop they are one and the same cell. So what
  a cell holds in the end comes from the last arc that wrote it.

  A call that is refused has not begun to write. To see this the network is kept in one place
  (`Filling`) and its cells are written one by one, where whatever was written before a failure
  would stay. What is answered and what is left is the same as when a network is handed out
  (`addArc_follows`).

  Whether a call is refused, and whether it returns at all, depends on the arc and on the number
  of vertices, and not on the calls before (`callArc_eq_ok`).

  Proved, of any calls on a new network that return: each cell holds what the last successful
  call for it says, and zero if there was none; refused calls change nothing; and calls that
  join pairwise different pairs of vertices may come in any order (`addEach_last_wins`).
-/

import Mathlib.Data.List.Perm.Basic
import Mathlib.Data.Sym.Sym2
import MinCostFlow.Proofs.NetworkFile.Grammar
import MinCostFlow.Proofs.Reach.Basic

namespace MinCostFlow

variable {n : Nat} {r : IntRange} {g g0 g' : Network n} {a b : Arc} {calls : List Arc} {u v : Fin n}
  {x : Except ArcError Unit} {answers : List (Except ArcError Unit)}

/-! ## One call -/

namespace Arc

/-- The pair of an arc, if a network of `n` vertices takes it. -/
def pair (n : Nat) (a : Arc) : Except ArcError (Fin n × Fin n) := do
  let u ← Network.vertex n a.tail
  let v ← Network.vertex n a.head
  demand (.negativeCapacity a.tail a.head) (0 ≤ a.capacity)
  return (u, v)

/-- What a network of `n` vertices answers. -/
def answer (n : Nat) (a : Arc) : Except ArcError Unit := (a.pair n).map fun _ => ()

def Goes (u v : Fin n) (a : Arc) : Prop := a.tail = u ∧ a.head = v

instance (u v : Fin n) (a : Arc) : Decidable (a.Goes u v) := inferInstanceAs (Decidable (_ ∧ _))

/-- In one direction or the other. -/
def Joins (u v : Fin n) (a : Arc) : Prop := a.Goes u v ∨ a.Goes v u

instance (u v : Fin n) (a : Arc) : Decidable (a.Joins u v) := inferInstanceAs (Decidable (_ ∨ _))

/-- The two vertices, whichever comes first. -/
def ends (a : Arc) : Sym2 Nat := s(a.tail, a.head)

theorem goes_of_pair (h : a.pair n = .ok (u, v)) (x y : Fin n) : a.Goes x y ↔ u = x ∧ v = y := by
  simp only [pair, bind_eq_ok, pure_eq_ok, Network.vertex_eq_ok, Prod.mk.injEq] at h
  obtain ⟨u, hu, v, hv, _, -, rfl, rfl⟩ := h
  rw [Goes, ← hu, ← hv, Fin.ext_iff, Fin.ext_iff]

end Arc

namespace Network

/-- The answer to a call and the network after it, if it returns. -/
def callArc (r : IntRange) (g : Network n) (a : Arc) : Except Fault (Except ArcError Unit × Network n) :=
  match g.addArc r a.tail a.head a.capacity a.cost with
  | .ok g' => .ok (.ok (), g')
  | .error (.error e) => .ok (.error e, g)
  | .error (.fault f) => .error f

/-- The arc takes its place, if it has one. -/
def place (g : Network n) (a : Arc) : Network n :=
  match a.pair n with
  | .ok (u, v) => g.setArc u v a.capacity a.cost
  | .error _ => g

theorem addArc_eq (r : IntRange) (g : Network n) (a : Arc) : g.addArc r a.tail a.head a.capacity a.cost =
    (orError (a.pair n) >>= fun p => r.require (.fault .negationOverflow) (-a.cost) >>= fun _ =>
      pure (g.setArc p.1 p.2 a.capacity a.cost)) := by
  unfold addArc Arc.pair
  cases vertex n a.tail with
  | error => rfl
  | ok u =>
    cases vertex n a.head with
    | error => rfl
    | ok v =>
      unfold demand
      split <;> rfl

/-- Only an arc that is taken can have an opposite cost out of range. -/
def Returns (r : IntRange) (n : Nat) (a : Arc) : Prop := (a.answer n).isOk = true → -a.cost ∈ r

instance (r : IntRange) (n : Nat) (a : Arc) : Decidable (Returns r n a) := inferInstanceAs (Decidable (_ → _))

theorem callArc_eq_ok :
    g.callArc r a = .ok (x, g') ↔ Returns r n a ∧ a.answer n = x ∧ g.place a = g' := by
  unfold callArc Returns place Arc.answer
  rw [addArc_eq]
  cases a.pair n with
  | error e => simp [orError, bind, Except.bind, Except.map, Except.isOk, Except.toBool]
  | ok p =>
    by_cases hcost : -a.cost ∈ r <;>
      simp [orError, bind, Except.bind, pure, Except.pure, Except.map, Except.isOk, Except.toBool, IntRange.require,
        hcost]

end Network

/-! ## In one place -/

/-- A failing call keeps the network as it is at that moment. -/
abbrev Filling (n : Nat) (α : Type) := ExceptT (Failure ArcError) (StateM (Network n)) α

namespace Filling

def on {α : Type} (x : Filling n α) (g : Network n) : Except (Failure ArcError) α × Network n := (ExceptT.run x).run g

/-- Go on with what has been calculated, or fail with it. -/
def check {α : Type} (x : Except (Failure ArcError) α) : Filling n α := ExceptT.mk (pure x)

/-- Write the cells of an arc one after the other. The opposite cost is calculated just before it is written. -/
def addArc (r : IntRange) (a : Arc) : Filling n Unit := do
  let (u, v) ← check (orError (a.pair n))
  modify fun g => { g with capacity := g.capacity.set u v a.capacity }
  modify fun g => { g with residual := g.residual.set u v a.capacity }
  modify fun g => { g with cost := g.cost.set u v a.cost }
  let back ← check (r.require (.fault .negationOverflow) (-a.cost))
  modify fun g => { g with cost := g.cost.set v u back }

/-- What is answered in place, and what is left there, is what the other way gives. What a fault leaves cannot be
looked at. -/
def Follows (g : Network n) (done : Except (Failure ArcError) Unit × Network n) :
    Except (Failure ArcError) (Network n) → Prop
  | .ok g' => done = (.ok (), g')
  | .error (.error e) => done = (.error (.error e), g)
  | .error (.fault f) => done.1 = .error (.fault f)

theorem addArc_follows (r : IntRange) (g : Network n) (a : Arc) :
    Follows g ((addArc r a).on g) (g.addArc r a.tail a.head a.capacity a.cost) := by
  rw [Network.addArc_eq]
  unfold addArc
  cases a.pair n with
  | error e => rfl
  | ok p =>
    unfold IntRange.require
    by_cases hcost : -a.cost ∈ r
    · simp only [hcost, if_true]
      rfl
    · simp only [hcost, if_false]
      rfl

end Filling

/-! ## One call after the other -/

namespace Network

/-- The answers to all calls and the network after them, if each returns. -/
def addEach (r : IntRange) (g : Network n) : List Arc → Except Fault (List (Except ArcError Unit) × Network n)
  | [] => .ok ([], g)
  | a :: calls => do
    let (answer, g1) ← callArc r g a
    let (answers, g') ← addEach r g1 calls
    return (answer :: answers, g')

theorem addEach_eq_ok : g.addEach r calls = .ok (answers, g') ↔
    (∀ a ∈ calls, Returns r n a) ∧ calls.map (Arc.answer n) = answers ∧ calls.foldl place g = g' := by
  induction calls generalizing g answers with
  | nil =>
    rw [addEach]
    simp
  | cons a calls ih =>
    constructor
    · intro h
      obtain ⟨⟨x, g1⟩, hcall, h⟩ := bind_eq_ok.mp h
      obtain ⟨⟨xs, g2⟩, hcalls, h⟩ := bind_eq_ok.mp h
      obtain ⟨rfl, rfl⟩ := Prod.mk.inj (pure_eq_ok.mp h)
      obtain ⟨hreturns, rfl, rfl⟩ := callArc_eq_ok.mp hcall
      obtain ⟨hall, rfl, rfl⟩ := ih.mp hcalls
      exact ⟨List.forall_mem_cons.mpr ⟨hreturns, hall⟩, rfl, rfl⟩
    · rintro ⟨hall, rfl, rfl⟩
      obtain ⟨hreturns, hall⟩ := List.forall_mem_cons.mp hall
      have hcall : g.callArc r a = .ok (a.answer n, g.place a) := callArc_eq_ok.mpr ⟨hreturns, rfl, rfl⟩
      exact bind_eq_ok.mpr ⟨_, hcall, bind_eq_ok.mpr ⟨_, ih.mpr ⟨hall, rfl, rfl⟩, rfl⟩⟩

end Network

/-- The calls that have succeeded. -/
def succeeded (calls : List Arc) (answers : List (Except ArcError Unit)) : List Arc :=
  ((calls.zip answers).filter (·.2.isOk)).map (·.1)

theorem succeeded_eq (n : Nat) (calls : List Arc) :
    succeeded calls (calls.map (Arc.answer n)) = calls.filter fun a => (a.answer n).isOk := by
  induction calls with
  | nil => rfl
  | cons a calls ih =>
    unfold succeeded at ih ⊢
    rw [List.map_cons, List.zip_cons_cons, List.filter_cons, List.filter_cons]
    split
    · rw [List.map_cons, ih]
    · exact ih

/-- The last of the calls that satisfies `p`. -/
def lastCall (p : Arc → Prop) [DecidablePred p] (calls : List Arc) : Option Arc := (calls.filter p).getLast?

theorem lastCall_snoc (p : Arc → Prop) [DecidablePred p] (calls : List Arc) (a : Arc) :
    lastCall p (calls ++ [a]) = if p a then some a else lastCall p calls := by
  unfold lastCall
  by_cases h : p a <;> simp [h]

/-! ## What the cells hold -/

namespace Network

theorem place_of_refused (g : Network n) (h : (a.answer n).isOk = false) : g.place a = g := by
  unfold place
  cases hp : a.pair n with
  | error => rfl
  | ok p =>
    rw [Arc.answer, hp] at h
    cases h

theorem place_of_ok (h : (a.answer n).isOk = true) : ∃ x y : Fin n, (∀ u v, a.Goes u v ↔ x = u ∧ y = v) ∧
    ∀ g : Network n, g.place a = g.setArc x y a.capacity a.cost := by
  unfold place
  cases hp : a.pair n with
  | error =>
    rw [Arc.answer, hp] at h
    cases h
  | ok p => exact ⟨p.1, p.2, Arc.goes_of_pair hp, fun _ => rfl⟩

theorem capacity_place (g : Network n) (h : (a.answer n).isOk = true) (u v : Fin n) :
    (g.place a).capacity u v = if a.Goes u v then a.capacity else g.capacity u v := by
  obtain ⟨x, y, hgoes, hplace⟩ := place_of_ok h
  simp only [hplace, capacity_setArc, hgoes]

theorem residual_place (g : Network n) (h : (a.answer n).isOk = true) (u v : Fin n) :
    (g.place a).residual u v = if a.Goes u v then a.capacity else g.residual u v := by
  obtain ⟨x, y, hgoes, hplace⟩ := place_of_ok h
  simp only [hplace, residual_setArc, hgoes]

theorem cost_place (g : Network n) (h : (a.answer n).isOk = true) (u v : Fin n) :
    (g.place a).cost u v = if a.Goes v u then -a.cost else if a.Goes u v then a.cost else g.cost u v := by
  obtain ⟨x, y, hgoes, hplace⟩ := place_of_ok h
  simp only [hplace, cost_setArc, hgoes, and_comm]

theorem cost_place_loop (g : Network n) (h : (a.answer n).isOk = true) (u : Fin n) :
    (g.place a).cost u u = if a.Goes u u then -a.cost else g.cost u u := by
  rw [g.cost_place h]
  by_cases hgoes : a.Goes u u <;> simp [hgoes]

theorem cost_place_ne (g : Network n) (h : (a.answer n).isOk = true) (huv : u ≠ v) : (g.place a).cost u v =
    if a.Joins u v then if a.Goes u v then a.cost else -a.cost else g.cost u v := by
  rw [g.cost_place h]
  by_cases hforth : a.Goes u v
  · have hback : ¬a.Goes v u := fun hback => huv (Fin.ext (hforth.1.symm.trans hback.1))
    simp [Arc.Joins, hforth, hback]
  · simp [Arc.Joins, hforth]

/-- A cell holds what the last of the successful calls that write to it has written. -/
theorem read_places (cell : Network n → Int) {p : Arc → Prop} [DecidablePred p] {value : Arc → Int}
    (hempty : cell (empty n) = 0)
    (hplace : ∀ g a, (a.answer n).isOk = true → cell (g.place a) = if p a then value a else cell g) (calls : List Arc) :
    cell (calls.foldl place (empty n)) =
      (lastCall p (calls.filter fun a => (a.answer n).isOk)).elim 0 value := by
  induction calls using List.reverseRecOn with
  | nil => exact hempty
  | append_singleton calls a ih =>
    rw [List.foldl_concat, List.filter_append]
    cases hok : (a.answer n).isOk with
    | false => simpa [place_of_refused _ hok, hok] using ih
    | true =>
      have hlast : [a].filter (fun a => (a.answer n).isOk) = [a] := by simp [hok]
      rw [hplace _ a hok, hlast, lastCall_snoc, ih]
      split <;> rfl

/-! ## Any order -/

theorem setArc_comm (g : Network n) {u v x y : Fin n} (c k d l : Int) (hsame : ¬(u = x ∧ v = y))
    (hback : ¬(u = y ∧ v = x)) :
    (g.setArc u v c k).setArc x y d l = (g.setArc x y d l).setArc u v c k := by
  have hcells : ∀ m : Matrix n, (m.set u v c).set x y d = (m.set x y d).set u v c := by
    intro m
    ext i j
    simp only [Matrix.get_set]
    grind
  have hcosts : (((g.cost.set u v k).set v u (-k)).set x y l).set y x (-l) =
      (((g.cost.set x y l).set y x (-l)).set u v k).set v u (-k) := by
    ext i j
    simp only [Matrix.get_set]
    grind
  simp only [setArc, hcells, hcosts]

/-- Arcs that join different pairs of vertices have no cell in common. -/
theorem place_comm (g : Network n) (h : a.ends ≠ b.ends) : (g.place a).place b = (g.place b).place a := by
  cases ha : (a.answer n).isOk with
  | false => rw [place_of_refused _ ha, place_of_refused _ ha]
  | true =>
    cases hb : (b.answer n).isOk with
    | false => rw [place_of_refused _ hb, place_of_refused _ hb]
    | true =>
      obtain ⟨u, v, hgoes, hplace⟩ := place_of_ok ha
      obtain ⟨x, y, hgoes', hplace'⟩ := place_of_ok hb
      obtain ⟨htail, hhead⟩ := (hgoes u v).mpr ⟨rfl, rfl⟩
      obtain ⟨htail', hhead'⟩ := (hgoes' x y).mpr ⟨rfl, rfl⟩
      simp only [hplace, hplace']
      apply setArc_comm
      · rintro ⟨rfl, rfl⟩
        exact h (Sym2.eq_iff.mpr (Or.inl ⟨htail.trans htail'.symm, hhead.trans hhead'.symm⟩))
      · rintro ⟨rfl, rfl⟩
        exact h (Sym2.eq_iff.mpr (Or.inr ⟨htail.trans hhead'.symm, hhead.trans htail'.symm⟩))

theorem places_perm {calls' : List Arc} (hperm : calls'.Perm calls) (hends : (calls.map Arc.ends).Nodup)
    (g : Network n) : calls'.foldl place g = calls.foldl place g := by
  refine (hperm.symm.foldl_eq' (fun a ha b hb g => ?_) g).symm
  by_cases hab : a = b
  · rw [hab]
  · exact place_comm g fun h => hab (List.inj_on_of_nodup_map hends ha hb h)

end Network

/-- After calls on a new network, each cell holds what the last successful call for it has given, and zero if there
was none: the capacity of its pair in both matrices, the cost of an arc there or the opposite cost of an arc in the
other direction, whichever was later, and of loops the opposite cost. A refused call writes nothing. Calls that join
pairwise different vertices leave the same network in any order. -/
theorem addEach_last_wins (hnew : Network.create n = .ok g0) (h : g0.addEach r calls = .ok (answers, g)) :
    (∀ u v, g.capacity u v = (lastCall (Arc.Goes u v) (succeeded calls answers)).elim 0 (·.capacity) ∧
      g.residual u v = g.capacity u v) ∧
    (∀ u v, u ≠ v → g.cost u v = (lastCall (Arc.Joins u v) (succeeded calls answers)).elim 0 fun a =>
      if a.Goes u v then a.cost else -a.cost) ∧
    (∀ u, g.cost u u = (lastCall (Arc.Goes u u) (succeeded calls answers)).elim 0 fun a => -a.cost) ∧
    (∀ (g1 : Network n) (a : Arc) (e : ArcError),
      g1.addArc r a.tail a.head a.capacity a.cost = .error (.error e) →
      (Filling.addArc r a).on g1 = (.error (.error e), g1)) ∧
    ∀ calls', calls'.Perm calls → (calls.map Arc.ends).Nodup →
      ∃ answers', g0.addEach r calls' = .ok (answers', g) := by
  obtain ⟨-, rfl⟩ := create_eq_ok.mp hnew
  obtain ⟨hreturns, rfl, rfl⟩ := Network.addEach_eq_ok.mp h
  have hzero : ∀ u v : Fin n, Matrix.zeros n u v = 0 := Matrix.get_zeros
  rw [succeeded_eq]
  refine ⟨fun u v => ?_, fun u v huv => ?_, fun u => ?_, fun g1 a e hrefused => ?_, fun calls' hperm hends => ?_⟩
  · have hcapacity := Network.read_places (fun g => g.capacity u v) (hzero u v)
      (fun g a hok => g.capacity_place hok u v) calls
    have hresidual := Network.read_places (fun g => g.residual u v) (hzero u v)
      (fun g a hok => g.residual_place hok u v) calls
    exact ⟨hcapacity, hresidual.trans hcapacity.symm⟩
  · exact Network.read_places (fun g => g.cost u v) (hzero u v) (fun g a hok => g.cost_place_ne hok huv) calls
  · exact Network.read_places (fun g => g.cost u u) (hzero u u) (fun g a hok => g.cost_place_loop hok u) calls
  · have hfollows := Filling.addArc_follows r g1 a
    rwa [hrefused] at hfollows
  · rw [← Network.places_perm hperm hends]
    exact ⟨_, Network.addEach_eq_ok.mpr ⟨fun a ha => hreturns a (hperm.subset ha), rfl, rfl⟩⟩

/-- Opposite arcs, arcs that are added again, a loop, and two calls that are refused. -/
def tangled : List Arc :=
  [⟨0, 1, 5, 3⟩, ⟨1, 0, 2, 4⟩, ⟨0, 1, -1, 9⟩, ⟨2, 2, 1, 7⟩, ⟨0, 3, 1, 1⟩, ⟨1, 2, 6, 1⟩, ⟨1, 2, 0, -2⟩]

/-- Every pair of vertices is joined once. -/
def untangled : List Arc := [⟨0, 1, 5, 3⟩, ⟨2, 2, 1, 7⟩, ⟨2, 1, 6, 1⟩]

theorem tangled_last_wins :
    (∃ answers g, (Network.empty 3).addEach (.ofBits 8) tangled = .ok (answers, g) ∧ g.capacity 0 1 = 5 ∧
      g.cost 0 1 = -4 ∧ g.cost 1 0 = 4 ∧ g.residual 1 2 = 0 ∧ g.cost 2 1 = 2 ∧ g.cost 2 2 = -7 ∧ g.cost 0 2 = 0) ∧
    ∃ answers answers' g, (Network.empty 3).addEach (.ofBits 8) untangled = .ok (answers, g) ∧
      (Network.empty 3).addEach (.ofBits 8) untangled.reverse = .ok (answers', g) := by
  have hnew : Network.create 3 = .ok (Network.empty 3) := create_eq_ok.mpr ⟨by decide, rfl⟩
  constructor
  · have h : (Network.empty 3).addEach (.ofBits 8) tangled =
        .ok (tangled.map (Arc.answer 3), tangled.foldl Network.place (Network.empty 3)) :=
      Network.addEach_eq_ok.mpr ⟨by decide, rfl, rfl⟩
    obtain ⟨hcapacity, hcost, hloop, -⟩ := addEach_last_wins hnew h
    refine ⟨_, _, h, (hcapacity 0 1).1.trans ?_, (hcost 0 1 ?_).trans ?_, (hcost 1 0 ?_).trans ?_,
      (hcapacity 1 2).2.trans ((hcapacity 1 2).1.trans ?_), (hcost 2 1 ?_).trans ?_, (hloop 2).trans ?_,
      (hcost 0 2 ?_).trans ?_⟩
    all_goals decide
  · have h : (Network.empty 3).addEach (.ofBits 8) untangled =
        .ok (untangled.map (Arc.answer 3), untangled.foldl Network.place (Network.empty 3)) :=
      Network.addEach_eq_ok.mpr ⟨by decide, rfl, rfl⟩
    obtain ⟨-, -, -, -, hperm⟩ := addEach_last_wins hnew h
    obtain ⟨answers', h'⟩ := hperm untangled.reverse (List.reverse_perm untangled) (by decide)
    exact ⟨_, answers', _, h, h'⟩

end MinCostFlow
