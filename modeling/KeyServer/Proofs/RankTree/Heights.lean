import KeyServer.Proofs.RankTree.Walks
import Mathlib.Data.Nat.Fib.Basic
import Mathlib.Data.Set.Card

/-! # Heights are logarithmic

A balanced tree with `h` levels has at least `fib (h + 2) - 1` nodes: one side of the root has
`h - 1` levels and the other one no fewer than `h - 2`.  So few levels hold all the nodes that a
machine word can count.

* **`Tree.Balanced.fib_le`** and **`Tree.Balanced.height_le`** say so of terms.
* **`run_empty_shallow`**: whatever calls are made on an empty tree, as long as each is made on a
  node it is meant for, every linked node has that many nodes below it, and a tree of fewer than
  2^32 nodes has at most 45 levels.  As long as there are no more nodes, no height and no size
  that is computed on the way leaves a machine word: with words, the calls do the same.
-/

namespace KeyServer.RankTree

variable {α : Type}

/-! ## Balanced trees -/

namespace Tree.Balanced

variable {tree : Tree α}

/-- **A balanced tree** is at least as large as the thinnest one of its height. -/
theorem fib_le (h : tree.Balanced) : Nat.fib (tree.height + 2) ≤ tree.size + 1 := by
  induction tree with
  | leaf => exact Nat.le_refl 1
  | node id v l r ihl ihr =>
    obtain ⟨hl, hr, hlr, hrl⟩ := h
    -- One side is as high as it can be, and the other one at most one level lower.
    have hsides : ∀ {a b : Tree α}, Nat.fib (a.height + 2) ≤ a.size + 1 →
        Nat.fib (b.height + 2) ≤ b.size + 1 → b.height ≤ a.height → a.height ≤ b.height + 1 →
        Nat.fib (1 + max a.height b.height + 2) ≤ 1 + a.size + b.size + 1 := by
      intro a b ha hb hba hab
      calc Nat.fib (1 + max a.height b.height + 2)
          = Nat.fib (a.height + 1) + Nat.fib (a.height + 2) := by
            rw [Nat.max_eq_left hba, Nat.add_comm 1]
            exact Nat.fib_add_two
        _ ≤ Nat.fib (b.height + 2) + Nat.fib (a.height + 2) :=
            Nat.add_le_add_right (Nat.fib_mono (by omega)) _
        _ ≤ (b.size + 1) + (a.size + 1) := Nat.add_le_add hb ha
        _ = 1 + a.size + b.size + 1 := by omega
    rw [height, size]
    rcases Nat.le_total r.height l.height with hle | hle
    · exact hsides (ihl hl) (ihr hr) hle hlr
    · rw [Nat.max_comm, Nat.add_right_comm 1 l.size]
      exact hsides (ihr hr) (ihl hl) hle hrl

/-- As many nodes as a word can count fit only into a tree of at most 45 levels. -/
theorem height_le (h : tree.Balanced) (hsize : tree.size ≤ maxMeasure) : tree.height ≤ 45 := by
  by_contra hheight
  have hfib : Nat.fib 48 = 4807526976 := by decide +kernel
  have hmono : Nat.fib 48 ≤ Nat.fib (tree.height + 2) := Nat.fib_mono (by omega)
  have hle := h.fib_le
  unfold maxMeasure at hsize
  omega

end Tree.Balanced

/-! ## Trees in an arena -/

/-- Whether fewer than 2^32 nodes are linked. -/
def FewLinked (t : RankTree α) : Prop := {id | t.Linked id}.encard < 2 ^ 32

/-- A tree whose heights are logarithmic in its sizes. -/
structure Shallow (t : RankTree α) : Prop where
  /-- The height and the size that a linked node carries. -/
  fib_le : ∀ id n, t.Linked id → t.content id = some n → Nat.fib (n.height + 2) - 1 ≤ n.size
  /-- The height at the root is the number of levels. -/
  height_le : t.FewLinked → ∃ tree : Tree α, tree.top? = t.root ∧ Rep t.content none tree ∧
    t.heightAt t.root = .ok tree.height ∧ tree.height ≤ 45

namespace Holds

variable {t : RankTree α} {tree : Tree α} {loose : List (Nat × α)}

theorem fewLinked_iff (h : t.Holds tree loose) : t.FewLinked ↔ tree.size ≤ maxMeasure := by
  have hlinked : {id | t.Linked id} = (tree.ids.toFinset : Set Nat) := by
    ext id
    simp [h.linked_iff]
  rw [FewLinked, hlinked, Set.encard_coe_eq_coe_finsetCard,
    List.toFinset_card_of_nodup h.nodup_ids, Tree.length_ids]
  show (tree.size : ℕ∞) < ((2 ^ 32 : Nat) : ℕ∞) ↔ _
  rw [Nat.cast_lt, maxMeasure]
  omega

theorem shallow (h : t.Holds tree loose) (hbalanced : tree.Balanced) : t.Shallow where
  fib_le := by
    intro id n hid hn
    obtain ⟨path, v, l, r, rfl, hcontent, -⟩ := h.exists_content (h.linked_iff.mp hid)
    rw [hcontent, Option.some_inj] at hn
    subst hn
    have hnode : (Tree.node id v l r).Balanced := hbalanced.of_plug
    exact Nat.sub_le_of_le_add hnode.fib_le
  height_le := by
    intro hfew
    refine ⟨tree, h.root.symm, h.rep, ?_, hbalanced.height_le (h.fewLinked_iff.mp hfew)⟩
    rw [h.root, h.rep.heightAt]

end Holds

/-! ## Calls -/

/-- A call with the order that it brings along, or what is no order at all. -/
structure OrderedCall (α : Type) where
  less : α → α → Bool
  call : Call α

/-- Carries out a call under its order. -/
def callOrdered (t : RankTree α) (c : OrderedCall α) : Except Fault (Answer α × RankTree α) :=
  call c.less t c.call

/-- Carries out a call under its order, where a height or a size that does not fit into a machine
word is a fault. -/
def callInWords (t : RankTree α) (c : OrderedCall α) : Except Fault (Answer α × RankTree α) :=
  callWith c.less t c.call inWords

/-- Whether a call is made on a node that it is meant for, whatever its order. -/
def AllowsOrdered (t : RankTree α) (c : OrderedCall α) : Prop := t.Allows c.call

/-- Whether fewer than 2^32 nodes are linked after a call. -/
def LeavesFew (t : RankTree α) (c : OrderedCall α) : Prop :=
  ∀ answer t', callOrdered t c = .ok (answer, t') → t'.FewLinked

section Runs

variable {t : RankTree α} {tree : Tree α} {loose : List (Nat × α)}

/-- **One call** keeps a tree balanced and links at most one node more.  In words it does the
same, as long as no more nodes are linked than a word can count. -/
theorem Holds.callOrdered (h : t.Holds tree loose) (hbalanced : tree.Balanced)
    {c : OrderedCall α} (hc : t.AllowsOrdered c) :
    ∃ answer t' tree' loose', RankTree.callOrdered t c = .ok (answer, t') ∧
      t'.Holds tree' loose' ∧ tree'.Balanced ∧ tree'.size ≤ 1 + tree.size ∧
      (t.FewLinked → t'.FewLinked → callInWords t c = .ok (answer, t')) := by
  obtain ⟨answer, t', tree', loose', hgives, h', hbalanced', hsize, -⟩ :=
    h.callWith hbalanced c.less hc
  refine ⟨answer, t', tree', loose', (callWith_exactly ..).symm.trans hgives.exactly, h',
    hbalanced', hsize, ?_⟩
  intro hfew hfew'
  apply hgives.inWords
  exact Nat.max_le.mpr ⟨h.fewLinked_iff.mp hfew, h'.fewLinked_iff.mp hfew'⟩

/-- **Calls in turn** do so, too. -/
theorem Holds.run (h : t.Holds tree loose) (hbalanced : tree.Balanced)
    {calls : List (OrderedCall α)}
    (hcalls : Calls.Admissible RankTree.callOrdered AllowsOrdered t calls) :
    ∃ answers t' tree' loose', Calls.run RankTree.callOrdered t calls = .ok (answers, t') ∧
      t'.Holds tree' loose' ∧ tree'.Balanced ∧
      (t.FewLinked → Calls.Admissible RankTree.callOrdered LeavesFew t calls →
        Calls.run callInWords t calls = .ok (answers, t')) := by
  induction calls generalizing t tree loose with
  | nil => exact ⟨[], t, tree, loose, rfl, h, hbalanced, fun _ _ => rfl⟩
  | cons c cs ih =>
    obtain ⟨hc, hcs⟩ := hcalls
    obtain ⟨answer, t₁, tree₁, loose₁, hfirst, h₁, hbalanced₁, -, hwords₁⟩ :=
      h.callOrdered hbalanced hc
    obtain ⟨answers, t', tree', loose', hrest, h', hbalanced', hwords⟩ :=
      ih h₁ hbalanced₁ (hcs answer t₁ hfirst)
    refine ⟨answer :: answers, t', tree', loose', by simp [Calls.run, hfirst, hrest], h',
      hbalanced', ?_⟩
    intro hfew hleaves
    have hfew₁ := hleaves.1 answer t₁ hfirst
    have hrest' := hwords hfew₁ (hleaves.2 answer t₁ hfirst)
    simp [Calls.run, hwords₁ hfew hfew₁, hrest']

/-- Fewer than 2^32 calls never link more nodes than a word can count. -/
theorem Holds.admissible_leavesFew (h : t.Holds tree loose) (hbalanced : tree.Balanced)
    {calls : List (OrderedCall α)}
    (hcalls : Calls.Admissible RankTree.callOrdered AllowsOrdered t calls)
    (hlength : tree.size + calls.length ≤ maxMeasure) :
    Calls.Admissible RankTree.callOrdered LeavesFew t calls := by
  induction calls generalizing t tree loose with
  | nil => trivial
  | cons c cs ih =>
    obtain ⟨hc, hcs⟩ := hcalls
    obtain ⟨answer, t₁, tree₁, loose₁, hfirst, h₁, hbalanced₁, hsize, -⟩ :=
      h.callOrdered hbalanced hc
    rw [List.length_cons] at hlength
    apply Calls.Admissible.cons answer t₁ _ hfirst
    · exact ih h₁ hbalanced₁ (hcs answer t₁ hfirst) (by omega)
    · intro answer' t' hcall
      cases hfirst.symm.trans hcall
      exact h₁.fewLinked_iff.mpr (by omega)

end Runs

/-- **Heights are logarithmic** in every tree that calls lead to from the empty one, and no height
and no size overflows a machine word before the number of nodes does. -/
theorem run_empty_shallow {calls : List (OrderedCall α)}
    (hcalls : Calls.Admissible callOrdered AllowsOrdered empty calls) :
    ∃ answers t, Calls.run callOrdered empty calls = .ok (answers, t) ∧ t.Shallow ∧
      (Calls.Admissible callOrdered LeavesFew empty calls →
        Calls.run callInWords empty calls = .ok (answers, t)) := by
  have hbalanced : (Tree.leaf : Tree α).Balanced := trivial
  obtain ⟨answers, t, tree, loose, hrun, h, hbalanced', hwords⟩ := holds_empty.run hbalanced hcalls
  have hfew : (empty : RankTree α).FewLinked := holds_empty.fewLinked_iff.mpr (Nat.zero_le _)
  exact ⟨answers, t, hrun, h.shallow hbalanced', hwords hfew⟩

/-- Three nodes are linked and rotated; the top one is taken out and put back by the opposite
order, and the first one is removed. -/
theorem run_empty_shallow_reversed :
    let less := fun a b : Nat => decide (a < b)
    let greater := fun a b : Nat => decide (b < a)
    let calls : List (OrderedCall Nat) :=
      [⟨less, .insert 1⟩, ⟨less, .insert 2⟩, ⟨less, .insert 3⟩, ⟨greater, .detach 1⟩,
        ⟨greater, .attach 1⟩, ⟨greater, .remove 0⟩]
    Calls.Admissible callOrdered AllowsOrdered empty calls ∧
      Calls.Admissible callOrdered LeavesFew empty calls ∧
      ∃ answers t, Calls.run callOrdered empty calls = .ok (answers, t) ∧ t.Shallow ∧
        Calls.run callInWords empty calls = .ok (answers, t) := by
  intro less greater calls
  have hcalls : Calls.Admissible callOrdered AllowsOrdered empty calls := by
    refine .cons (.node 0) ⟨#[some ⟨none, none, none, 1, 1, 1⟩], [], some 0⟩ trivial rfl ?_
    refine .cons (.node 1) ⟨#[some ⟨none, none, some 1, 2, 2, 1⟩,
      some ⟨some 0, none, none, 1, 1, 2⟩], [], some 0⟩ trivial rfl ?_
    refine .cons (.node 2) ⟨#[some ⟨some 1, none, none, 1, 1, 1⟩,
      some ⟨none, some 0, some 2, 2, 3, 2⟩, some ⟨some 1, none, none, 1, 1, 3⟩], [], some 1⟩
      trivial (by cbv) ?_
    refine .cons (.root (some 2)) ⟨#[some ⟨some 2, none, none, 1, 1, 1⟩,
      some ⟨none, none, none, 1, 1, 2⟩, some ⟨none, some 0, none, 2, 2, 3⟩], [], some 2⟩
      (.root rfl) (by cbv) ?_
    refine .cons .done ⟨#[some ⟨some 2, none, none, 1, 1, 1⟩,
      some ⟨some 2, none, none, 1, 1, 2⟩, some ⟨none, some 0, some 1, 2, 3, 3⟩], [], some 2⟩
      ⟨rfl, not_linked ?_ ?_⟩ (by cbv) ?_
    · simp
    · simp
    exact .cons (.value 1) ⟨#[none, some ⟨some 2, none, none, 1, 1, 2⟩,
      some ⟨none, none, some 1, 2, 2, 3⟩], [0], some 2⟩
      (.child .left (.root rfl) rfl rfl) (by cbv) trivial
  have hbalanced : (Tree.leaf : Tree Nat).Balanced := trivial
  have hfew := holds_empty.admissible_leavesFew hbalanced hcalls (by decide)
  obtain ⟨answers, t, hrun, hshallow, hwords⟩ := run_empty_shallow hcalls
  exact ⟨hcalls, hfew, answers, t, hrun, hshallow, hwords hfew⟩

end KeyServer.RankTree
