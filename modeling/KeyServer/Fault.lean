/-!
# Broken preconditions

The structures of this library have preconditions: a node id must name a node, a
consumed byte must be there.  An operation whose precondition is broken answers with a
`Fault` and no new state, so "this never goes wrong" can be stated as "this is never a
fault".  `Fault.message` is the text a fault is reported with, if it has one.
-/

namespace KeyServer

/-- Why an operation could not be carried out. -/
inductive Fault where
  /-- More bytes were declared written than the tail of the buffer holds. -/
  | commitTooLong (bytes writable : Nat)
  /-- More bytes were consumed than are unread. -/
  | consumeTooLong (bytes unread : Nat)
  /-- A slot was needed and none is pending. -/
  | noPendingSlot
  /-- The unread bytes were moved while a slot lay before them. -/
  | slotBehindCursor
  /-- The id names no node of the tree. -/
  | staleNode (id : Nat)
  /-- A rotation to the left met a node without a right child. -/
  | rotateLeftWithoutChild
  /-- A rotation to the right met a node without a left child. -/
  | rotateRightWithoutChild
  /-- A node counts as left-heavy and has no left child. -/
  | leftHeavyWithoutChild
  /-- A node counts as right-heavy and has no right child. -/
  | rightHeavyWithoutChild
  /-- The links of the tree lead round in a circle. -/
  | endlessLinks
  /-- A chain of the hash table leads to a slot that holds no item. -/
  | freedSlot (index : Nat)
  /-- The name index of a sorted set does not know a member of its tree. -/
  | unindexedMember
  /-- An index lies outside its array. -/
  | outOfRange
  /-- A difference of counts would be negative. -/
  | negativeCount
  /-- A sum does not fit into its machine word. -/
  | overflow
  deriving DecidableEq, Repr

namespace Fault

/-- The words for a fault; faults that no check of the library's own reports have none. -/
def message : Fault → Option String
  | commitTooLong bytes writable =>
    some s!"buffer: commit of {bytes} bytes exceeds {writable} writable"
  | consumeTooLong bytes unread =>
    some s!"buffer: consume of {bytes} bytes with only {unread} buffered"
  | noPendingSlot => some "buffer: no pending placeholder"
  | slotBehindCursor => some "buffer: placeholder behind read cursor"
  | staleNode id => some s!"avl: stale node id {id}"
  | rotateLeftWithoutChild => some "avl: rotate_left without a right child"
  | rotateRightWithoutChild => some "avl: rotate_right without a left child"
  | leftHeavyWithoutChild => some "avl: left-heavy node without a left child"
  | rightHeavyWithoutChild => some "avl: right-heavy node without a right child"
  | freedSlot index => some s!"hash chain references freed slot {index}"
  | endlessLinks | unindexedMember | outOfRange | negativeCount | overflow => none

end Fault

/-- The difference of two counts, which must not be negative. -/
def countDiff (a b : Nat) : Except Fault Nat :=
  if b ≤ a then .ok (a - b) else .error .negativeCount

theorem countDiff_eq_ok {a b : Nat} (h : b ≤ a) : countDiff a b = .ok (a - b) := by
  simp [countDiff, h]

/-- The greatest number of an unsigned 64-bit word; times and deadlines end there. -/
def maxWord : Nat := 0xFFFFFFFFFFFFFFFF

/-- The sum of two unsigned 64-bit words, which must be one again. -/
def addWords (a b : Nat) : Except Fault Nat :=
  if a + b ≤ maxWord then .ok (a + b) else .error .overflow

/-- An integer that must be a signed 64-bit word. -/
def signedWord (i : Int) : Except Fault Int :=
  if -0x8000000000000000 ≤ i ∧ i < 0x8000000000000000 then .ok i else .error .overflow

/-! ## Outcomes

An operation that may fault is a computation in `Except Fault`.  These rules run such a
computation one step at a time. -/

section Outcomes

variable {ε α β : Type}

@[simp] theorem ok_bind (a : α) (f : α → Except ε β) : (Except.ok a >>= f) = f a := rfl

@[simp] theorem error_bind (e : ε) (f : α → Except ε β) : (Except.error e >>= f) = .error e := rfl

@[simp] theorem pure_eq_ok (a : α) : (pure a : Except ε α) = .ok a := rfl

@[simp] theorem throw_eq_error (e : ε) : (throw e : Except ε α) = .error e := rfl

/-- A computation in two steps gives a result exactly when both steps do. -/
theorem bind_eq_ok_iff {x : Except ε α} {f : α → Except ε β} {b : β} :
    (x >>= f) = .ok b ↔ ∃ a, x = .ok a ∧ f a = .ok b := by
  cases x with
  | error e => simp
  | ok a => simp

theorem map_eq_ok_iff {x : Except ε α} {f : α → β} {b : β} :
    x.map f = .ok b ↔ ∃ a, x = .ok a ∧ f a = b := by
  cases x <;> simp [Except.map]

theorem map_eq_error_iff {x : Except ε α} {f : α → β} {e : ε} :
    x.map f = .error e ↔ x = .error e := by
  cases x <;> simp [Except.map]

end Outcomes

end KeyServer
