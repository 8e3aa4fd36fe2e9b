/-!
# Heaps of deadlines

A binary heap of deadlines in an array, each with an owner; the earliest one is in front.
Whenever an item comes to rest at a position, or is moved to make room, the operation
reports the owner and the position.  An owner that keeps its last reported position in
mind can change or delete its deadline directly.
-/

namespace KeyServer

/-- A deadline and who it belongs to. -/
structure Deadline (ρ : Type) where
  expiresAt : Nat
  owner : ρ
  deriving DecidableEq, Repr

/-- A heap of deadlines. -/
structure DeadlineHeap (ρ : Type) where
  items : Array (Deadline ρ)
  deriving Repr

namespace DeadlineHeap

variable {ρ : Type}

/-- The heap without items. -/
def empty : DeadlineHeap ρ := ⟨#[]⟩

/-- The number of items. -/
def size (h : DeadlineHeap ρ) : Nat := h.items.size

/-- Whether there is no item. -/
def isEmpty (h : DeadlineHeap ρ) : Bool := h.items.isEmpty

/-- The earliest deadline. -/
def peek? (h : DeadlineHeap ρ) : Option (Deadline ρ) := h.items[0]?

/-- The position above a position. -/
def parent (i : Nat) : Nat := (i - 1) / 2

/-- The first of the two positions below a position. -/
def firstChild (i : Nat) : Nat := 2 * i + 1

/-- A heap after one of its items found its place, with the reports in order. -/
structure Settled (ρ : Type) where
  heap : DeadlineHeap ρ
  /-- Where the item came to rest. -/
  position : Nat
  /-- The owners that moved with their new positions; the item itself is last. -/
  moves : List (ρ × Nat)

/-- Adds a report in front. -/
def Settled.report (s : Settled ρ) (owner : ρ) (position : Nat) : Settled ρ :=
  { s with moves := (owner, position) :: s.moves }

theorem parent_lt {pos : Nat} (h : 0 < pos) : parent pos < pos := by
  unfold parent
  omega

theorem parent_le (pos : Nat) : parent pos ≤ pos := by
  unfold parent
  omega

/-- Moves the item at `pos` up past the later deadlines above it. -/
def siftUp (items : Array (Deadline ρ)) (pos : Nat) (h : pos < items.size) : Settled ρ :=
  have above : parent pos < items.size := Nat.lt_of_le_of_lt (parent_le pos) h
  if hp : 0 < pos ∧ items[pos].expiresAt < items[parent pos].expiresAt then
    have := parent_lt hp.1
    (siftUp (items.swap pos (parent pos)) (parent pos) (by simpa using above)).report
      items[parent pos].owner pos
  else
    ⟨⟨items⟩, pos, [(items[pos].owner, pos)]⟩
termination_by pos

/-- The position with the earliest deadline among `pos` and the two below it; of equal
ones the first in this order. -/
def earliest (items : Array (Deadline ρ)) (pos : Nat) (h : pos < items.size) :
    { i : Nat // pos ≤ i ∧ i < items.size } :=
  let l := firstChild pos
  have hl : pos ≤ l := by simp only [l, firstChild]; omega
  let best : { i : Nat // pos ≤ i ∧ i < items.size } :=
    if h₁ : l < items.size then
      if items[l].expiresAt < items[pos].expiresAt then ⟨l, hl, h₁⟩
      else ⟨pos, Nat.le_refl pos, h⟩
    else ⟨pos, Nat.le_refl pos, h⟩
  if h₂ : l + 1 < items.size then
    have := best.2.2
    if items[l + 1].expiresAt < items[best.1].expiresAt then ⟨l + 1, by omega, h₂⟩ else best
  else best

/-- Moves the item at `pos` down past the earlier deadlines below it. -/
def siftDown (items : Array (Deadline ρ)) (pos : Nat) (h : pos < items.size) : Settled ρ :=
  match earliest items pos h with
  | ⟨best, _, hb⟩ =>
    if best = pos then
      ⟨⟨items⟩, pos, [(items[pos].owner, pos)]⟩
    else
      (siftDown (items.swap pos best) best (by simpa using hb)).report items[best].owner pos
termination_by items.size - pos
decreasing_by
  simp only [Array.size_swap]
  omega

/-- Restores the order around the item at `pos`, the only one out of place. -/
def settle (items : Array (Deadline ρ)) (pos : Nat) (h : pos < items.size) : Settled ρ :=
  have above : parent pos < items.size := Nat.lt_of_le_of_lt (parent_le pos) h
  if 0 < pos ∧ items[pos].expiresAt < items[parent pos].expiresAt then siftUp items pos h
  else siftDown items pos h

/-! ## Operations -/

/-- Puts an item in the place of the one at a position, or adds it if there is no
position or no item there. -/
def upsert (heap : DeadlineHeap ρ) (pos : Option Nat) (item : Deadline ρ) : Settled ρ :=
  let push : Settled ρ := settle (heap.items.push item) heap.items.size (by simp)
  match pos with
  | some pos =>
    if h : pos < heap.items.size then settle (heap.items.set pos item) pos (by simpa using h)
    else push
  | none => push

/-- Deletes the item at a position: the last item takes its place and finds its own.
Returns the deleted item, the heap and the reports. -/
def delete (heap : DeadlineHeap ρ) (pos : Nat) :
    Option (Deadline ρ) × DeadlineHeap ρ × List (ρ × Nat) :=
  if h : pos < heap.items.size then
    let removed := heap.items[pos]
    let items := (heap.items.swap pos (heap.items.size - 1)).pop
    if h' : pos < items.size then
      let s := settle items pos h'
      (some removed, s.heap, s.moves)
    else (some removed, ⟨items⟩, [])
  else (none, heap, [])

end DeadlineHeap

end KeyServer
