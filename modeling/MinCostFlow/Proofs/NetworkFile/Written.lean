/-
  MinCostFlow.Proofs.NetworkFile.Written — networks that are written out are read back.

  A network can be written as the number of its vertices and then the four numbers of each
  arc, all in decimal. How they are spread over a text is free as long as there is a blank
  between any two (`Shows`): blanks make no words, and a number between them is one word, for
  a decimal has no blank in it. So the tokens of the text are the numbers, on whatever lines.

  Proved: such a text is read as the network to which the arcs are added in order, and every
  such text as the same one (`read_written`).
-/

import MinCostFlow.Proofs.NetworkFile.FirstFault

namespace MinCostFlow

open Decimal

namespace Text

variable {gap rest body : List Char} {ws : List String} {text : String} {k : Nat}

def Blanks (gap : List Char) : Prop := ∀ c ∈ gap, isBlank c = true

instance (gap : List Char) : Decidable (Blanks gap) := decidable_of_iff (gap.all isBlank = true) List.all_eq_true

def IsWord (w : String) : Prop := w.toList ≠ [] ∧ ∀ c ∈ w.toList, isBlank c = false

/-- The words in order, each with the blanks that come behind it. Only those behind the last word may be
none at all. -/
inductive Spread : List String → List Char → Prop
  | last (w : String) (gap : List Char) : Blanks gap → Spread [w] (w.toList ++ gap)
  | more (w : String) (gap : List Char) {ws : List String} {body : List Char} : gap ≠ [] → Blanks gap → Spread ws body →
      Spread (w :: ws) (w.toList ++ (gap ++ body))

/-- The text is these words in any layout. -/
def Shows (ws : List String) (text : String) : Prop :=
  ∃ lead body, text.toList = lead ++ body ∧ Blanks lead ∧ Spread ws body

theorem numberedWords_gap (hgap : Blanks gap) :
    numberedWords k (gap ++ rest) = numberedWords (k + gap.count '\n') rest := by
  induction gap generalizing k with
  | nil => rfl
  | cons c gap ih =>
    obtain ⟨hc, hgap⟩ := List.forall_mem_cons.mp hgap
    have hcount : ([c] ++ gap).count '\n' = [c].count '\n' + gap.count '\n' := List.count_append
    rw [List.cons_append, numberedWords_blank hc, ih hgap, Nat.add_assoc, ← hcount, List.singleton_append]

theorem Spread.words (h : Spread ws body) (hws : ∀ w ∈ ws, IsWord w) :
    (numberedWords k body).map Prod.snd = ws.map String.toList := by
  induction h generalizing k with
  | last w gap hgap =>
    obtain ⟨hne, hrun⟩ := hws w List.mem_cons_self
    have hnone : numberedWords k gap = [] := by
      rw [← List.append_nil gap, numberedWords_gap hgap, numberedWords_nil]
    rw [numberedWords_run hne hrun fun c hc => hgap c (List.mem_of_mem_head? hc), hnone]
    rfl
  | more w gap hsome hgap _ ih =>
    obtain ⟨⟨hne, hrun⟩, hws⟩ := List.forall_mem_cons.mp hws
    have hhead : ∀ rest, ∀ c ∈ (gap ++ rest).head?, isBlank c = true := by
      intro rest c hc
      rw [List.head?_append_of_ne_nil _ hsome] at hc
      exact hgap c (List.mem_of_mem_head? hc)
    rw [numberedWords_run hne hrun (hhead _), numberedWords_gap hgap, List.map_cons, ih hws]
    rfl

end Text

/-- The numbers of an arc in decimal. -/
def Arc.written (a : Arc) : List String := [toString a.tail, toString a.head, toString a.capacity, toString a.cost]

namespace NetworkFile

open Text

variable {r : IntRange} {n : Nat} {arcs : List Arc} {ts : List Token} {ws : List String} {text : String}

/-- In whatever layout the words are shown, they are the tokens. -/
theorem texts_of_shows (h : Shows ws text) (hws : ∀ w ∈ ws, IsWord w) : (tokens text).map (·.text) = ws := by
  obtain ⟨lead, body, htext, hlead, hbody⟩ := h
  have hwords := congrArg (List.map Prod.snd) (tokens_eq_numberedWords text)
  rw [htext, numberedWords_gap hlead, hbody.words hws, List.map_map] at hwords
  have hlists : ((tokens text).map (·.text)).map String.toList = ws.map String.toList := by
    rw [List.map_map]
    exact hwords
  exact List.map_injective_iff.mpr (fun _ _ => String.toList_injective) hlists

/-! ## A network in numbers -/

def written (n : Nat) (arcs : List Arc) : List String := toString n :: arcs.flatMap Arc.written

/-- All the numbers can be stored. -/
def Writable (r : IntRange) (n : Nat) (arcs : List Arc) : Prop :=
  n ≤ maxVertexCount ∧ ∀ a ∈ arcs, a.Fits n ∧ a.capacity ∈ r ∧ a.cost ∈ r

theorem index_of_le {v : Nat} (hn : n ≤ maxVertexCount) (hv : v ≤ n) : WritesIndex (toString v) v :=
  writesIndex_toString ((hv.trans hn).trans_lt (by decide))

theorem written_isWord (h : Writable r n arcs) : ∀ w ∈ written n arcs, IsWord w := by
  obtain ⟨hn, harcs⟩ := h
  refine List.forall_mem_cons.mpr ⟨(index_of_le hn le_rfl).isWord, fun w hw => ?_⟩
  obtain ⟨a, ha, hw⟩ := List.mem_flatMap.mp hw
  obtain ⟨⟨htail, hhead, -⟩, hcapacity, hcost⟩ := harcs a ha
  rcases List.mem_cons.mp hw with rfl | hw
  · exact (index_of_le hn htail.le).isWord
  rcases List.mem_cons.mp hw with rfl | hw
  · exact (index_of_le hn hhead.le).isWord
  rcases List.mem_cons.mp hw with rfl | hw
  · exact (writesValue_toString hcapacity).isWord
  · obtain rfl := List.mem_singleton.mp hw
    exact (writesValue_toString hcost).isWord

theorem ArcTokens.of_written (h : Writable r n arcs) (htexts : ts.map (·.text) = arcs.flatMap Arc.written) :
    ArcTokens r n ts arcs := by
  obtain ⟨hn, harcs⟩ := h
  induction arcs generalizing ts with
  | nil =>
    obtain rfl := List.map_eq_nil_iff.mp htexts
    exact .nil
  | cons a arcs ih =>
    obtain ⟨⟨hfits, hcapacity, hcost⟩, harcs⟩ := List.forall_mem_cons.mp harcs
    simp only [List.flatMap_cons, Arc.written, List.cons_append, List.nil_append, List.map_eq_cons_iff] at htexts
    obtain ⟨t, _, rfl, ht, h, _, rfl, hh, c, _, rfl, hc, k, rest, rfl, hk, hrest⟩ := htexts
    have hquad : Quadruple r t h c k a := {
      tail := ht ▸ index_of_le hn hfits.1.le
      head := hh ▸ index_of_le hn hfits.2.1.le
      capacity := hc ▸ writesValue_toString hcapacity
      cost := hk ▸ writesValue_toString hcost }
    exact .cons hquad hfits (ih hrest harcs)

theorem Describes.of_written (h : Writable r n arcs) (htexts : ts.map (·.text) = written n arcs) :
    Describes r ts n arcs := by
  obtain ⟨t, rest, rfl, ht, hrest⟩ := List.map_eq_cons_iff.mp htexts
  exact .intro (ht ▸ index_of_le h.1 le_rfl) h.1 (.of_written h hrest)

/-- A network that is written out in any layout is read as the arcs in order give it, as long as the opposite
of every cost can be stored too. -/
theorem read_written (hn : n ≤ maxVertexCount)
    (h : ∀ a ∈ arcs, a.tail < n ∧ a.head < n ∧ 0 ≤ a.capacity ∧ a.capacity ∈ r ∧ a.cost ∈ r ∧ r.bottom < a.cost) :
    ∃ g, Network.ofArcs r n arcs = .ok g ∧ ∀ text, Shows (written n arcs) text → read r text = .ok ⟨n, g⟩ := by
  have hwritable : Writable r n arcs := by
    refine ⟨hn, fun a ha => ?_⟩
    obtain ⟨htail, hhead, hpos, hcapacity, hcost, -⟩ := h a ha
    exact ⟨⟨htail, hhead, hpos⟩, hcapacity, hcost⟩
  have hadd : ∀ a ∈ arcs, a.Addable r n := by
    intro a ha
    obtain ⟨hfits, -, hcost⟩ := hwritable.2 a ha
    exact ⟨hfits, hcost, (h a ha).2.2.2.2.2.ne'⟩
  obtain ⟨g, hall⟩ := Network.ofArcs_ok hn hadd
  refine ⟨g, hall, fun text hshows => ?_⟩
  have hdescribes := Describes.of_written hwritable (texts_of_shows hshows (written_isWord hwritable))
  exact read_eq_ok_iff.mpr ⟨arcs, hdescribes, hall⟩

/-- Arcs at the limits of 8 bits. -/
def extremes : List Arc := [⟨0, 1, 127, -127⟩, ⟨2, 2, 0, 127⟩]

/-- They are written over several lines, of which the first is empty and the last does not end. -/
def extremesText : String := "\r\n\t3 0\u20281\n127\r\n\r\n-127  2 2\u00a00 127"

theorem extremes_read :
    ∃ g, Network.ofArcs (.ofBits 8) 3 extremes = .ok g ∧ read (.ofBits 8) extremesText = .ok ⟨3, g⟩ := by
  have hlimits : ∀ a ∈ extremes, a.tail < 3 ∧ a.head < 3 ∧ 0 ≤ a.capacity ∧ a.capacity ∈ IntRange.ofBits 8 ∧
      a.cost ∈ IntRange.ofBits 8 ∧ (IntRange.ofBits 8).bottom < a.cost := by
    decide
  obtain ⟨g, hg, hread⟩ := read_written (by decide) hlimits
  refine ⟨g, hg, hread _ ?_⟩
  have hspread : Spread (written 3 extremes) _ :=
    .more "3" [' '] (by decide) (by decide) <|
    .more "0" ['\u2028'] (by decide) (by decide) <|
    .more "1" ['\n'] (by decide) (by decide) <|
    .more "127" ['\r', '\n', '\r', '\n'] (by decide) (by decide) <|
    .more "-127" [' ', ' '] (by decide) (by decide) <|
    .more "2" [' '] (by decide) (by decide) <|
    .more "2" ['\u00a0'] (by decide) (by decide) <|
    .more "0" [' '] (by decide) (by decide) <|
    .last "127" [] (by decide)
  exact ⟨['\r', '\n', '\t'], _, by decide, by decide, hspread⟩

end NetworkFile

end MinCostFlow
