import KeyServer.Proofs.Engine.Scores
import KeyServer.Proofs.SortedSet.Refinement

/-! # Queries by order are linear scans

A finite map from names to nodes and scores has its members in one order, by score and then by
name (`Placement.Sorts`).  A sorted set goes down a tree, adds up sizes on the way up and walks
along links, but answers what a scan of the members in that order answers (`Scans`): the first one
that is not below a pair, how many are between two pairs, and those from some positions after the
first one.

* **`Holds.seek_eq_find?`** and **`Holds.range`**: single queries.
* **`Places.scans`**: queries by order on a set that shows a finite map.
* **`run_empty_scans`**: they are scans before and after each of any calls.
-/

namespace KeyServer.SortedSet

/-! ## Scans -/

namespace Placement

/-- The members on their nodes, in no particular order. -/
def nodes (m : Placement) : List (Nat × Member) := m.entries.map fun e => (e.2.1, ⟨e.1, e.2.2⟩)

theorem mem_nodes {m : Placement} {id : Nat} {name : Bytes} {score : Double} :
    (id, ⟨name, score⟩) ∈ m.nodes ↔ m.lookup name = some (id, score) := by
  rw [← Option.mem_def, AList.mem_lookup_iff, nodes, List.mem_map]
  constructor
  · rintro ⟨⟨name', id', score'⟩, he, heq⟩
    cases heq
    exact he
  · exact fun h => ⟨_, h, rfl⟩

theorem nodup_nodes (m : Placement) : m.nodes.Nodup := by
  refine .of_map (fun e => e.2.name) ?_
  rw [nodes, List.map_map]
  exact m.nodupKeys

/-- Whether a list has the members of a map on their nodes, by score and then by name. -/
structure Sorts (m : Placement) (order : List (Nat × Member)) : Prop where
  perm : order.Perm m.nodes
  sorted : order.Pairwise fun a b => a.2.below b.2

end Placement

/-- At most `limit` members of a list, from `offset` positions after the first one that is not
below a given one.  There are none if that one is missing or the position is not in the list. -/
def scanRange (order : List Member) (start : Member) (offset : Int) (limit : Nat) : List Member :=
  match order.findIdx? fun e => !e.below start with
  | none => []
  | some first =>
    if 0 ≤ first + offset ∧ first + offset < order.length then
      (order.drop (first + offset).toNat).take limit
    else []

/-- Queries by order on a set whose nodes are in some order. -/
structure Scans (s : SortedSet) (order : List (Nat × Member)) : Prop where
  listed : s.toList = .ok (order.map (·.2))
  member : ∀ e ∈ order, s.member e.1 = .ok e.2
  seek : ∀ start : Member, start.score.isNaN = false →
    s.seek start.score start.name = .ok ((order.find? fun e => !e.2.below start).map (·.1))
  countBetween : ∀ low high : Member, low.score.isNaN = false → high.score.isNaN = false →
    s.countBetween (low.score, low.name) (high.score, high.name)
      = .ok (order.countP fun e => !e.2.below low && e.2.below high)
  /-- Nothing is between bounds of which the first one is not below the second. -/
  inverted : ∀ low high : Member, low.score.isNaN = false → high.score.isNaN = false →
    low.below high = false → s.countBetween (low.score, low.name) (high.score, high.name) = .ok 0
  range : ∀ (start : Member) (offset : Int) (limit : Nat), start.score.isNaN = false →
    Answers order.length (s.range start.score start.name offset limit)
      (scanRange (order.map (·.2)) start offset limit)

/-- Where the first element is that is not in a beginning. -/
theorem findIdx?_not {α : Type} {l : List α} {p : α → Bool}
    (hp : l.Pairwise fun a b => p b = true → p a = true) :
    l.findIdx? (fun a => !p a) = if l.countP p < l.length then some (l.countP p) else none := by
  induction l with
  | nil => rfl
  | cons a l ih =>
    cases ha : p a with
    | true =>
      have htail := (List.pairwise_cons.mp hp).2
      rw [List.findIdx?_cons, ha, ih htail, List.countP_cons_of_pos ha, List.length_cons]
      by_cases hlt : l.countP p < l.length <;> simp [hlt]
    | false =>
      have hzero : l.countP p = 0 := countP_tail_eq_zero hp ha
      simp [List.findIdx?_cons, ha, hzero]

/-- Nothing is between bounds of which the first one is not below the second. -/
theorem not_between {low high e : Member} (h : low.below high = false) :
    (!e.below low && e.below high) = false := by
  rw [Bool.eq_false_iff] at h ⊢
  intro hbetween
  obtain ⟨hlow, hhigh⟩ : e.below low = false ∧ e.below high = true := by simpa using hbetween
  apply h
  rcases Member.below_trichotomy e low with hlt | hlt | ⟨hkey, hname⟩
  · rw [hlow] at hlt
    cases hlt
  · exact Member.below_trans hlt hhigh
  · rw [Member.below_iff] at hhigh ⊢
    rwa [← hkey, ← hname]

/-! ## Ranges -/

namespace Holds

variable {s : SortedSet} {items : List (Nat × Member)} (h : s.Holds items)

include h

/-- Taking members from a position that need not be one of theirs. -/
theorem takeWithin_idAt (limit : Nat) (pos : Int) :
    s.takeWithin limit s.tree.stepBound (RankTree.idAt items pos) []
      = .ok (if 0 ≤ pos ∧ pos < items.length then
          ((items.map (·.2)).drop pos.toNat).take limit else []) := by
  by_cases hpos : 0 ≤ pos ∧ pos < items.length
  · have htake := h.takeWithin limit pos.toNat [] (Nat.le_add_left_of_le h.length_le_stepBound)
    rw [RankTree.idAt, if_pos hpos.1, if_pos hpos]
    exact htake
  · have houtside : RankTree.idAt items pos = none := by
      apply RankTree.idAt_outside
      omega
    rw [houtside, if_neg hpos]
    simp [SortedSet.takeWithin]

theorem countBetween_inverted (low high : Member) (hlow : low.score.isNaN = false)
    (hhigh : high.score.isNaN = false) (hinverted : low.below high = false) :
    s.countBetween (low.score, low.name) (high.score, high.name) = .ok 0 := by
  have hnone : items.countP (fun e => !e.2.below low && e.2.below high) = 0 := by
    rw [List.countP_eq_zero]
    intro e _
    rw [not_between hinverted]
    exact Bool.false_ne_true
  rw [h.countBetween_below low high hlow hhigh, hnone]

variable (start : Member) (hstart : start.score.isNaN = false)

include hstart

/-- **Seeking** is a scan. -/
theorem seek_eq_find? : s.seek start.score start.name
    = .ok ((items.find? fun e => !e.2.below start).map (·.1)) := by
  rw [h.seek, h.countP_isBefore start hstart,
    find?_not_eq_getElem? (h.sorted_below.imp Member.below_trans)]

/-- **A range** is a scan. -/
theorem range (offset : Int) (limit : Nat) :
    Answers items.length (s.range start.score start.name offset limit)
      (scanRange (items.map (·.2)) start offset limit) := by
  have hfirst : (items.map (·.2)).findIdx? (fun e => !e.below start)
      = if items.countP (·.2.below start) < items.length then
        some (items.countP (·.2.below start)) else none := by
    rw [List.findIdx?_map]
    exact findIdx?_not (h.sorted_below.imp Member.below_trans)
  have hbegin := h.rangeStart start.score start.name offset
  rw [h.countP_isBefore start hstart] at hbegin
  rw [SortedSet.range, scanRange, hfirst, List.length_map]
  apply hbegin.bind
  generalize items.countP (·.2.below start) = first
  by_cases hlt : first < items.length
  · rw [if_pos hlt, if_pos hlt, h.takeWithin_idAt]
    exact .ok _
  · rw [if_neg hlt, if_neg hlt]
    exact .ok []

end Holds

/-! ## Sets that show a finite map -/

namespace Places

variable {s : SortedSet} {m : Placement}

/-- **Queries by order are scans** on a set that shows a finite map. -/
theorem scans (h : s.Places m) : ∃ order, m.Sorts order ∧ s.Scans order := by
  obtain ⟨items, hholds, hmem⟩ := h
  refine ⟨items, ?_, ?_⟩
  · refine ⟨(List.perm_ext_iff_of_nodup ?_ m.nodup_nodes).mpr ?_, hholds.sorted_below⟩
    · exact .of_map (·.2.name) hholds.names
    · intro e
      obtain ⟨id, name, score⟩ := e
      rw [hmem, Placement.mem_nodes]
  · exact {
      listed := hholds.toList
      member := fun e he => hholds.get he
      seek := hholds.seek_eq_find?
      countBetween := hholds.countBetween_below
      inverted := hholds.countBetween_inverted
      range := fun start offset limit hstart => hholds.range start hstart offset limit }

end Places

/-- **Queries by order are linear scans.**  On an empty set any calls succeed that insert numbers
and delete members.  Before and after each of them the set has the members of a finite map, and
queries by order answer what a scan of those members in their order answers. -/
theorem run_empty_scans {calls : List Call} (hcalls : Calls.Admissible call Allows empty calls) :
    ∃ answers s m, Calls.run call empty calls = .ok (answers, s) ∧
      Calls.Follows call Placement.Step (fun s m => ∃ order, m.Sorts order ∧ s.Scans order)
        empty ∅ calls answers s m :=
  Calls.run_simulates Places.simulates_call (fun _ _ h => h.scans) places_empty hcalls

/-- Two members, of which the second one comes first. -/
theorem run_empty_scans_two :
    let calls : List Call := [.insert [97] ⟨2⟩, .insert [98] ⟨1⟩, .lookup [97]]
    Calls.Admissible call Allows empty calls ∧
      ∃ answers s m, Calls.run call empty calls = .ok (answers, s) ∧
        Calls.Follows call Placement.Step (fun s m => ∃ order, m.Sorts order ∧ s.Scans order)
          empty ∅ calls answers s m := by
  intro calls
  have hcalls : Calls.Admissible call Allows empty calls :=
    ⟨rfl, fun _ _ _ => ⟨rfl, fun _ _ _ => ⟨trivial, fun _ _ _ => trivial⟩⟩⟩
  exact ⟨hcalls, run_empty_scans hcalls⟩

end KeyServer.SortedSet
