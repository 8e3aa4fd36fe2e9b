import KeyServer.Proofs.HashTable.Refinement
import KeyServer.Proofs.RankTree.Arrangement
import KeyServer.Proofs.SortedSet.Queries
import Mathlib.Data.List.AList

/-! # A sorted set is a finite map from names to scores

`Placement.Step` says what an operation may answer and leave when a sorted set is read as a
finite map from names to nodes and scores; which node a new name gets is left open.  Sorted
sets do nothing else: whatever numbers are inserted, whatever members are deleted, none of
the calls fails, the answers are those of the map, and the tree and the table always show the
same members (`InStep`).
-/

namespace KeyServer.SortedSet

/-! ## Calls -/

/-- A call of an operation. -/
inductive Call where
  | insert (name : Bytes) (score : Double)
  | lookup (name : Bytes)
  | delete (id : Nat)
  | clear

/-- What a call answers. -/
inductive Answer where
  /-- Whether a member is new. -/
  | isNew (isNew : Bool)
  | found (id : Option Nat)
  | member (m : Member)
  | done

/-- Carries out one call. -/
def call (s : SortedSet) : Call → Except Fault (Answer × SortedSet)
  | .insert name score => do
    let (isNew, s) ← s.insert name score
    return (.isNew isNew, s)
  | .lookup name => do
    let (id, s) ← s.lookup name
    return (.found id, s)
  | .delete id => do
    let (m, s) ← s.delete id
    return (.member m, s)
  | .clear => return (.done, empty)

/-- Whether a call inserts a number or deletes a member, if it inserts or deletes. -/
def Allows (s : SortedSet) : Call → Prop
  | .insert _ score => score.isNaN = false
  | .delete id => s.tree.Linked id
  | .lookup _ | .clear => True

/-! ## The finite map -/

/-- The node and the score of some names. -/
abbrev Placement := AList fun _ : Bytes => Nat × Double

namespace Placement

/-- What a call on a finite map may answer and leave. -/
inductive Step : Placement → Call → Answer → Placement → Prop where
  | created {m : Placement} {name : Bytes} {score : Double} {id : Nat}
      (hnone : m.lookup name = none)
      (hnew : ∀ name' id' score', m.lookup name' = some (id', score') → id' ≠ id) :
      Step m (.insert name score) (.isNew true) (m.insert name (id, score))
  | updated {m : Placement} {name : Bytes} {old score : Double} {id : Nat}
      (hsome : m.lookup name = some (id, old)) :
      Step m (.insert name score) (.isNew false) (m.insert name (id, score))
  | lookup {m : Placement} {name : Bytes} :
      Step m (.lookup name) (.found ((m.lookup name).map (·.1))) m
  | deleted {m : Placement} {name : Bytes} {score : Double} {id : Nat}
      (hsome : m.lookup name = some (id, score)) :
      Step m (.delete id) (.member ⟨name, score⟩) (m.erase name)
  | cleared {m : Placement} : Step m .clear .done ∅

/-- The members, in no particular order. -/
def members (m : Placement) : List Member := m.entries.map fun e => ⟨e.1, e.2.2⟩

end Placement

/-- The tree, the table and a finite map show the same members. -/
structure InStep (s : SortedSet) (m : Placement) : Prop where
  /-- The linked nodes are those of the map, with their members. -/
  nodes : ∀ id name score, (s.tree.Linked id ∧ s.tree.get id = .ok ⟨name, score⟩) ↔
    m.lookup name = some (id, score)
  /-- The table has linked nodes only, under the hash codes of their names. -/
  indexed : ∀ i slot, s.byName.content i = some slot → s.tree.Linked slot.item ∧
    ∃ e, s.tree.get slot.item = .ok e ∧ slot.hash = hashBytes e.name
  /-- The table has every linked node once. -/
  once : ∀ id, s.tree.Linked id → ∃! i, (s.byName.content i).map (·.item) = some id
  /-- No two nodes have the same name. -/
  names : ∀ id id' e e', s.tree.Linked id → s.tree.Linked id' → s.tree.get id = .ok e →
    s.tree.get id' = .ok e' → e.name = e'.name → id = id'
  /-- All views of the table show the same items. -/
  table : s.byName.Consistent
  size : s.tree.size = .ok s.size
  /-- Walking through the set lists the members, each one before the next. -/
  listed : ∃ members, s.toList = .ok members ∧ members.Perm m.members ∧
    members.Pairwise fun a b => a.before b

/-! ## Every call -/

/-- A set with the members of a finite map on their nodes. -/
def Places (s : SortedSet) (m : Placement) : Prop :=
  ∃ items, s.Holds items ∧
    ∀ id name score, (id, ⟨name, score⟩) ∈ items ↔ m.lookup name = some (id, score)

theorem places_empty : empty.Places ∅ := ⟨[], holds_empty, by simp⟩

theorem Holds.linked_iff {s : SortedSet} {items : List (Nat × Member)} (h : s.Holds items)
    {id : Nat} : s.tree.Linked id ↔ ∃ e, (id, e) ∈ items := by
  obtain ⟨term, hterm, rfl⟩ := h.tree
  rw [hterm.linked_iff, RankTree.Tree.ids]
  simp

namespace Places

variable {s : SortedSet} {m : Placement}

theorem perm {items : List (Nat × Member)} (h : s.Holds items)
    (hmem : ∀ id name score, (id, ⟨name, score⟩) ∈ items ↔ m.lookup name = some (id, score)) :
    (items.map (·.2)).Perm m.members := by
  refine (List.perm_ext_iff_of_nodup ?_ ?_).mpr fun e => ?_
  · exact .of_map Member.name (by rw [List.map_map]; exact h.names)
  · refine .of_map Member.name ?_
    rw [Placement.members, List.map_map]
    exact m.nodupKeys
  · rw [List.mem_map, Placement.members, List.mem_map]
    constructor
    · rintro ⟨⟨id, name, score⟩, he, rfl⟩
      exact ⟨⟨name, id, score⟩, AList.mem_lookup_iff.mp ((hmem id name score).mp he), rfl⟩
    · rintro ⟨⟨name, id, score⟩, he, rfl⟩
      exact ⟨_, (hmem id name score).mpr (AList.mem_lookup_iff.mpr he), rfl⟩

theorem inStep (h : s.Places m) : s.InStep m := by
  obtain ⟨items, hholds, hmem⟩ := h
  obtain ⟨term, hterm, hitems⟩ := hholds.tree
  have hget : ∀ {id e}, s.tree.Linked id → s.tree.get id = .ok e → (id, e) ∈ items := by
    intro id e hid he
    obtain ⟨e', hmem'⟩ := hholds.linked_iff.mp hid
    rw [hholds.get hmem'] at he
    cases he
    exact hmem'
  refine ⟨fun id name score => ?_, ?_, ?_, ?_, hholds.table.valid.consistent, ?_, ?_⟩
  · rw [← hmem]
    exact ⟨fun h => hget h.1 h.2, fun h => ⟨hholds.linked_iff.mpr ⟨_, h⟩, hholds.get h⟩⟩
  · intro i slot hi
    obtain ⟨name, hpair, hhash⟩ := hholds.table.indexed i slot hi
    obtain ⟨e, he, rfl⟩ := mem_namesOf.mp hpair
    exact ⟨hholds.linked_iff.mpr ⟨e, he⟩, e, hholds.get he, hhash⟩
  · intro id hid
    obtain ⟨e, he⟩ := hholds.linked_iff.mp hid
    obtain ⟨i, hi⟩ := hholds.table.listed id e.name (mem_namesOf.mpr ⟨e, he, rfl⟩)
    refine ⟨i, by simp [hi], fun j hj => ?_⟩
    obtain ⟨slot, hslot, hitem⟩ := Option.map_eq_some_iff.mp hj
    exact hholds.table.once j i _ _ hslot hi hitem
  · intro id id' e e' hid hid' he he' hname
    exact congrArg (·.1) (hholds.eq_of_name (hget hid he) (hget hid' he') hname)
  · rw [hterm.size_eq, hholds.size_eq, ← hitems, RankTree.Tree.length_items]
  · refine ⟨items.map (·.2), hholds.toList, perm hholds hmem, ?_⟩
    rw [List.pairwise_map]
    exact hholds.sorted

/-- **Every call** that is allowed succeeds and is a step of the finite map. -/
theorem simulates_call : Calls.Simulates call Allows Placement.Step Places := by
  rintro s m c ⟨items, hholds, hmem⟩ hc
  cases c with
  | insert name score =>
    obtain ⟨isNew, s', items', id, hinsert, h', hperm, hnew, hid⟩ := hholds.insert name hc
    have hlookup : ∀ id' name' score', (id', ⟨name', score'⟩) ∈ items' ↔
        (m.insert name (id, score)).lookup name' = some (id', score') := by
      intro id' name' score'
      rw [hperm.mem_iff, List.mem_cons, List.mem_filter, hmem]
      by_cases hname : name' = name
      · subst hname
        simp [eq_comm]
      · rw [AList.lookup_insert_ne hname]
        simp [hname]
    refine ⟨.isNew isNew, s', _, by simp [call, hinsert], ?_, items', h', hlookup⟩
    cases isNew with
    | true =>
      have hnone := hnew.mp rfl
      refine .created ?_ fun name' id' score' he => ?_
      · rw [Option.eq_none_iff_forall_ne_some]
        rintro ⟨id', score'⟩ he
        exact hnone _ ((hmem id' name score').mpr he) rfl
      · -- The other nodes are still there, and all ids in the set differ.
        rw [← hmem] at he
        have hnodup := (hperm.map (·.1)).nodup_iff.mp h'.nodup_ids
        rw [List.map_cons, List.nodup_cons] at hnodup
        rintro rfl
        have hrest : (id', _) ∈ items.filter (·.2.name != name) :=
          List.mem_filter.mpr ⟨he, by simpa using hnone _ he⟩
        exact hnodup.1 (List.mem_map_of_mem (f := (·.1)) hrest)
    | false =>
      obtain ⟨⟨id', name', old⟩, he, rfl⟩ : ∃ e ∈ items, e.2.name = name := by
        simpa using hnew
      obtain rfl : id' = id := hid _ he rfl
      exact .updated ((hmem _ _ _).mp he)
  | lookup name =>
    obtain ⟨r, s', hlookup, h', hsome, hnone⟩ := hholds.lookup name
    have hr : r = (m.lookup name).map (·.1) := by
      cases r with
      | some id =>
        obtain ⟨⟨_, score⟩, he, rfl⟩ := hsome id rfl
        rw [(hmem id _ score).mp he]
        rfl
      | none =>
        symm
        rw [Option.map_eq_none_iff, Option.eq_none_iff_forall_ne_some]
        rintro ⟨id, score⟩ hlookup
        exact hnone rfl _ ((hmem id name score).mpr hlookup) rfl
    subst hr
    exact ⟨_, s', m, by simp [call, hlookup], .lookup, ⟨items, h', hmem⟩⟩
  | delete id =>
    obtain ⟨⟨name, score⟩, he⟩ := hholds.linked_iff.mp hc
    obtain ⟨s', hdelete, h'⟩ := hholds.delete he
    refine ⟨.member ⟨name, score⟩, s', m.erase name, by simp [call, hdelete],
      .deleted ((hmem _ _ _).mp he), ⟨_, h', fun id' name' score' => ?_⟩⟩
    rw [← hholds.filter_name he, List.mem_filter, hmem]
    by_cases hname : name' = name
    · subst hname
      simp
    · rw [AList.lookup_erase_ne hname]
      simp [hname]
  | clear => exact ⟨.done, empty, ∅, rfl, .cleared, places_empty⟩

end Places

/-- **A sorted set refines a finite map.**  On an empty set any calls succeed that insert
numbers and delete members.  They answer what the map answers, and before and after each of them
the tree and the table are in step with the map. -/
theorem run_empty_inStep {calls : List Call} (hcalls : Calls.Admissible call Allows empty calls) :
    ∃ answers s m, Calls.run call empty calls = .ok (answers, s) ∧
      Calls.Follows call Placement.Step InStep empty ∅ calls answers s m :=
  Calls.run_simulates Places.simulates_call (fun _ _ h => h.inStep) places_empty hcalls

/-- One member, which gets another score and is deleted. -/
theorem run_empty_inStep_rescored :
    let calls : List Call := [.insert [97] ⟨1⟩, .insert [97] ⟨2⟩, .lookup [98], .delete 0]
    Calls.Admissible call Allows empty calls ∧
      ∃ answers s m, Calls.run call empty calls = .ok (answers, s) ∧
        Calls.Follows call Placement.Step InStep empty ∅ calls answers s m := by
  intro calls
  have hcalls : Calls.Admissible call Allows empty calls := by
    let table : HashTable Nat :=
      ⟨#[some ⟨⟨1712125394, 0⟩, none⟩], [], ⟨#[none, none, some 0, none], 1⟩, ⟨#[], 0⟩, 0⟩
    let scored (score : Double) : SortedSet :=
      ⟨⟨#[some (.single ⟨[97], score⟩)], [], some 0⟩, table⟩
    refine .cons (.isNew true) (scored ⟨1⟩) rfl (by with_unfolding_all rfl) ?_
    refine .cons (.isNew false) (scored ⟨2⟩) rfl (by with_unfolding_all rfl) ?_
    refine .cons (.found none) (scored ⟨2⟩) trivial (by with_unfolding_all rfl) ?_
    exact .cons (.member ⟨[97], ⟨2⟩⟩) ⟨⟨#[none], [0], none⟩,
      ⟨#[none], [0], ⟨#[none, none, none, none], 0⟩, ⟨#[], 0⟩, 0⟩⟩ (.root rfl)
      (by with_unfolding_all rfl) trivial
  exact ⟨hcalls, run_empty_inStep hcalls⟩

end KeyServer.SortedSet
