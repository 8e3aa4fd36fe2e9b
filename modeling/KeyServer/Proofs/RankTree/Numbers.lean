import KeyServer.Proofs.RankTree.Heights

/-! # Ids as machine words

An arena takes one place more only when all places are in use, so its ids stay below the largest
number of nodes, linked or loose, that it ever had.

* **`run_empty_short`**: as long as there are fewer nodes than numbers of 32 bits, calls that know
  a new node by the lowest 32 bits of its id do what the calls with whole ids do.
-/

namespace KeyServer.RankTree

variable {α : Type} {t t' : RankTree α} {tree : Tree α} {loose : List (Nat × α)}

/-- Adds a value, whose node is known by the lowest 32 bits of its id only. -/
def insertShort (t : RankTree α) (v : α) (less : α → α → Bool) :
    Except Fault (Nat × RankTree α) := do
  let (id, t) := t.allocate v
  let id := id.toUInt32.toNat
  return (id, ← t.attach id less)

/-- Carries out a call, with new nodes known by the lowest 32 bits of their ids only. -/
def callShort (t : RankTree α) (c : OrderedCall α) : Except Fault (Answer α × RankTree α) :=
  match c.call with
  | .insert v => do
    let (id, t) ← t.insertShort v c.less
    return (.node id, t)
  | _ => callOrdered t c

/-- Whether there are fewer nodes, linked or loose, than numbers of 32 bits. -/
def FewUsed (t : RankTree α) : Prop := {id | (t.content id).isSome}.encard < UInt32.size

/-- Whether a call leaves fewer nodes than that. -/
def LeavesFewUsed (t : RankTree α) (c : OrderedCall α) : Prop :=
  ∀ answer t', callOrdered t c = .ok (answer, t') → t'.FewUsed

theorem insertShort_eq {v : α} {less : α → α → Bool} {id : Nat}
    (h : t.insert v less = .ok (id, t')) (hid : id < UInt32.size) :
    t.insertShort v less = .ok (id, t') := by
  obtain ⟨i, t₁, hallocate⟩ : ∃ i t₁, t.allocate v = (i, t₁) := ⟨_, _, rfl⟩
  simp only [insert, hallocate] at h
  obtain ⟨t₂, hattach, heq⟩ := bind_eq_ok_iff.mp h
  cases heq
  have hcast : id.toUInt32.toNat = id := UInt32.toNat_ofNat_of_lt hid
  simp only [insertShort, hallocate, hcast, hattach, ok_bind]
  rfl

namespace Holds

theorem fewUsed_iff (h : t.Holds tree loose) :
    t.FewUsed ↔ tree.size + loose.length < UInt32.size := by
  have hused : {id | (t.content id).isSome}
      = ((tree.ids ++ loose.map (·.1)).toFinset : Set Nat) := by
    ext id
    simp [h.isSome_iff]
  rw [FewUsed, hused, Set.encard_coe_eq_coe_finsetCard, List.toFinset_card_of_nodup h.nodup,
    List.length_append, List.length_map, Tree.length_ids, Nat.cast_lt]

end Holds

/-- A balanced tree in an arena with no more places than there are numbers of 32 bits. -/
def FitsShort (t : RankTree α) : Prop :=
  ∃ tree loose, t.Holds tree loose ∧ tree.Balanced ∧ t.nodes.size ≤ UInt32.size

theorem fitsShort_empty : (empty : RankTree α).FitsShort :=
  ⟨.leaf, [], holds_empty, trivial, Nat.zero_le _⟩

/-- **A call with short ids** does what the call does. -/
theorem FitsShort.call (ht : t.FitsShort) {c : OrderedCall α} (hc : t.AllowsOrdered c)
    (hfew : t.LeavesFewUsed c) {answer : Answer α} (h : callOrdered t c = .ok (answer, t')) :
    callShort t c = .ok (answer, t') ∧ t'.FitsShort := by
  obtain ⟨tree, loose, hholds, hbalanced, hplaces⟩ := ht
  obtain ⟨_, t₁, tree', loose', hcall, h', hbalanced', hgrown⟩ := hholds.call hbalanced c.less hc
  cases h.symm.trans hcall
  have hplaces' : t'.nodes.size ≤ UInt32.size := by
    rcases hgrown with hsame | ⟨-, hfree⟩
    · exact hsame ▸ hplaces
    · have hused := h'.fewUsed_iff.mp (hfew answer t' h)
      rw [h'.nodes_size_eq, hfree]
      exact Nat.le_of_lt hused
  refine ⟨?_, tree', loose', h', hbalanced', hplaces'⟩
  obtain ⟨less, c⟩ := c
  cases c with
  | insert v =>
    obtain ⟨id, t₁, hinsert, -, h₁⟩ := hholds.insert v less
    simp only [RankTree.call, hinsert, ok_bind, pure_eq_ok] at hcall
    cases hcall
    have hid : id ∈ (tree.attach less id v).ids := by
      rw [Tree.ids, Tree.items_attach]
      simp
    obtain ⟨n, hn⟩ := Option.isSome_iff_exists.mp (h₁.rep.isSome id hid)
    have hlt := Nat.lt_of_lt_of_le (lt_size_of_content hn) hplaces'
    simp [callShort, insertShort_eq hinsert hlt]
  | remove id => exact h
  | detach id => exact h
  | set id w => exact h
  | attach id => exact h

/-- **Short ids are enough** for all calls that lead from the empty tree through arenas with fewer
nodes than there are such ids. -/
theorem run_empty_short {calls : List (OrderedCall α)}
    (hcalls : Calls.Admissible callOrdered AllowsOrdered empty calls)
    (hfew : Calls.Admissible callOrdered LeavesFewUsed empty calls) :
    ∃ answers t, Calls.run callOrdered empty calls = .ok (answers, t) ∧
      Calls.run callShort empty calls = .ok (answers, t) := by
  have hbalanced : (Tree.leaf : Tree α).Balanced := trivial
  obtain ⟨answers, t, -, -, hrun, -⟩ := holds_empty.run hbalanced hcalls
  refine ⟨answers, t, hrun, ?_⟩
  refine Calls.run_eq_of_call_eq ?_ fitsShort_empty (hcalls.and hfew) hrun
  exact fun _ _ _ _ ht hallows hcall => ht.call hallows.1 hallows.2 hcall

end KeyServer.RankTree
