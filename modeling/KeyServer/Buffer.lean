import KeyServer.Bytes
import KeyServer.Fault

/-!
# Message buffers

A buffer is a store of bytes with a read and a write cursor:

    consumed | unread | writable
    0     readPos  writePos  store.size

Bytes are appended at the write cursor and consumed at the read cursor.  When the
writable tail is too short, the unread bytes move to the front of the store, and a new
store is made only if that does not help (`Buffer.reserve`).

A **slot** is four bytes that stand for a number known only later: the length of a frame
or the count of an array.  Pending slots form a stack, innermost first, so that they can
nest; they move along when the unread bytes move.
-/

namespace KeyServer

/-- A growing byte store with cursors and pending slots. -/
structure Buffer where
  /-- All bytes, also the consumed ones and what an earlier use left in the tail. -/
  store : Array UInt8
  /-- Where the unread bytes begin. -/
  readPos : Nat
  /-- Where the unread bytes end. -/
  writePos : Nat
  /-- Store positions of the pending slots, innermost first. -/
  slots : List Nat
  deriving Repr

namespace Buffer

/-- The size of the store of a new buffer. -/
def defaultCapacity : Nat := 4096

/-- An empty buffer over a zeroed store. -/
def withCapacity (capacity : Nat) : Buffer := ⟨Array.replicate capacity 0, 0, 0, []⟩

/-- An empty buffer of the default size. -/
def empty : Buffer := withCapacity defaultCapacity

/-! ## Views -/

/-- The size of the store. -/
def capacity (q : Buffer) : Nat := q.store.size

/-- Whether everything written has been consumed. -/
def isEmpty (q : Buffer) : Bool := q.readPos == q.writePos

/-- The number of unread bytes. -/
def length (q : Buffer) : Except Fault Nat := countDiff q.writePos q.readPos

/-- The number of bytes that can be written without moving anything. -/
def writableLength (q : Buffer) : Except Fault Nat := countDiff q.store.size q.writePos

/-- The unread bytes. -/
def unread (q : Buffer) : Except Fault Bytes :=
  if q.readPos ≤ q.writePos ∧ q.writePos ≤ q.store.size then
    .ok (q.store.extract q.readPos q.writePos).toList
  else
    .error .outOfRange

/-- How many slots are pending. -/
def pendingSlots (q : Buffer) : Nat := q.slots.length

/-! ## Writing -/

/-- The store with `data` laid over it from `pos` on. -/
def overwrite (store : Array UInt8) (pos : Nat) : Bytes → Array UInt8
  | [] => store
  | b :: bs => overwrite (store.setIfInBounds pos b) (pos + 1) bs

/-- Where the slots lie after the unread bytes moved down by `shift`. -/
def shiftSlots (shift : Nat) (slots : List Nat) : Except Fault (List Nat) :=
  if slots.all (shift ≤ ·) then .ok (slots.map (· - shift)) else .error .slotBehindCursor

/-- Goes on in another store whose first bytes are the unread ones. -/
def rebase (q : Buffer) (store : Array UInt8) (unreadLength : Nat) : Except Fault Buffer := do
  let slots ← shiftSlots q.readPos q.slots
  return ⟨store, 0, unreadLength, slots⟩

/-- A new store of `capacity` bytes that starts with the unread bytes, else zero. -/
def freshStore (q : Buffer) (unreadLength capacity : Nat) : Except Fault (Array UInt8) :=
  if q.writePos ≤ q.store.size ∧ unreadLength ≤ capacity then
    .ok (q.store.extract q.readPos q.writePos ++ Array.replicate (capacity - unreadLength) 0)
  else
    .error .outOfRange

/-- The same store with the unread bytes copied to its front and nothing else changed. -/
def compactedStore (q : Buffer) (unreadLength : Nat) : Array UInt8 :=
  q.store.extract q.readPos q.writePos ++ q.store.extract unreadLength q.store.size

/-- Makes at least `n` bytes writable: by nothing, by moving the unread bytes to the
front, or by a new store of double size or of just enough. -/
def reserve (q : Buffer) (n : Nat) : Except Fault Buffer := do
  let tail ← q.writableLength
  if n ≤ tail then
    return q
  let unreadLength ← q.length
  if n ≤ q.readPos + tail then
    q.rebase (q.compactedStore unreadLength) unreadLength
  else
    let store ← q.freshStore unreadLength (max (q.capacity * 2) (unreadLength + n))
    q.rebase store unreadLength

/-- Appends `data` behind the unread bytes. -/
def append (q : Buffer) (data : Bytes) : Except Fault Buffer := do
  let ⟨store, readPos, writePos, slots⟩ ← q.reserve data.length
  if writePos + data.length ≤ store.size then
    return ⟨overwrite store writePos data, readPos, writePos + data.length, slots⟩
  else
    throw .outOfRange

/-- Appends one byte. -/
def putByte (q : Buffer) (b : UInt8) : Except Fault Buffer := q.append [b]

/-- Appends the low 32 bits of a number. -/
def putWord32 (q : Buffer) (n : Nat) : Except Fault Buffer := q.append (Bytes.littleEndian 4 n)

/-- Appends the low 64 bits of a number. -/
def putWord64 (q : Buffer) (n : Nat) : Except Fault Buffer := q.append (Bytes.littleEndian 8 n)

/-- Lays as much of `data` over the writable tail as fits, without declaring it written. -/
def fillTail (q : Buffer) (data : Bytes) : Buffer :=
  { q with store := overwrite q.store q.writePos data }

/-- Declares the first `n` bytes of the tail written, whatever stands there. -/
def commit (q : Buffer) (n : Nat) : Except Fault Buffer := do
  let tail ← q.writableLength
  if n ≤ tail then
    return { q with writePos := q.writePos + n }
  else
    throw (.commitTooLong n tail)

/-! ## Reading -/

/-- Drops `n` unread bytes.  With nothing left to read and no slot pending, both cursors
return to the front. -/
def consume (q : Buffer) (n : Nat) : Except Fault Buffer := do
  let unreadLength ← q.length
  if n ≤ unreadLength then
    let readPos := q.readPos + n
    if readPos = q.writePos ∧ q.slots = [] then
      return { q with readPos := 0, writePos := 0 }
    else
      return { q with readPos }
  else
    throw (.consumeTooLong n unreadLength)

/-! ## Slots -/

/-- The width of a slot. -/
def slotWidth : Nat := 4

/-- Where the innermost pending slot lies. -/
def innermostSlot (q : Buffer) : Except Fault Nat :=
  match q.slots with
  | pos :: _ => .ok pos
  | [] => .error .noPendingSlot

/-- Leaves four zero bytes to be filled later. -/
def pushSlot (q : Buffer) : Except Fault Buffer := do
  let q ← q.reserve slotWidth
  let q := { q with slots := q.writePos :: q.slots }
  q.append (List.replicate slotWidth 0)

/-- The number of bytes written after the innermost slot. -/
def slotBodyLength (q : Buffer) : Except Fault Nat := do
  let pos ← q.innermostSlot
  countDiff (← countDiff q.writePos pos) slotWidth

/-- Forgets everything written after the innermost slot. -/
def truncateToSlot (q : Buffer) : Except Fault Buffer := do
  let pos ← q.innermostSlot
  return { q with writePos := pos + slotWidth }

/-- Fills the innermost slot with the low 32 bits of a number and gives it up. -/
def popSlot (q : Buffer) (n : Nat) : Except Fault Buffer := do
  let pos ← q.innermostSlot
  if pos + slotWidth ≤ q.store.size then
    return { q with
      store := overwrite q.store pos (Bytes.littleEndian slotWidth n)
      slots := q.slots.tail }
  else
    throw .outOfRange

/-! ## Memory -/

/-- Makes the store smaller when it is more than `floor` bytes and more than four times
the unread bytes. -/
def shrink (q : Buffer) (floor : Nat) : Except Fault Buffer := do
  let unreadLength ← q.length
  if q.capacity ≤ max floor (unreadLength * 4) then
    return q
  else
    let store ← q.freshStore unreadLength (max floor (unreadLength * 2))
    q.rebase store unreadLength

end Buffer

end KeyServer
