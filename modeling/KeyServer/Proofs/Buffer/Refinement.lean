import KeyServer.Proofs.Buffer.Contents
import KeyServer.Proofs.Calls

/-! # A buffer is a byte string with marks

`Marked.Step` says what an operation leaves when a buffer is read as a byte string with marked
places for numbers, and the writable bytes behind it.  What stands in the writable bytes matters
to a commit only; after most operations it is left open.

* **`Shows`**: the unread bytes are those of the byte string, the pending slots are its marks,
  and the cursors lie in order inside the store.
* **`run_withCapacity_shows`**: whatever calls are made on a new buffer of any capacity, as long
  as each commits, consumes or fills no more than is there, none of them fails, and the buffer
  always shows the byte string.
-/

namespace KeyServer.Buffer

/-! ## Calls -/

/-- A call of an operation. -/
inductive Call where
  | append (data : Bytes)
  | putByte (b : UInt8)
  | putWord32 (n : Nat)
  | putWord64 (n : Nat)
  | fillTail (data : Bytes)
  | commit (n : Nat)
  | reserve (n : Nat)
  | consume (n : Nat)
  | pushSlot
  | truncateToSlot
  | popSlot (n : Nat)
  | shrink (floor : Nat)
  /-- Goes on with a copy. -/
  | copy

/-- The buffer after a call. -/
def Call.apply (q : Buffer) : Call → Except Fault Buffer
  | .append data => q.append data
  | .putByte b => q.putByte b
  | .putWord32 n => q.putWord32 n
  | .putWord64 n => q.putWord64 n
  | .fillTail data => do
    let _ ← q.writableLength
    return q.fillTail data
  | .commit n => q.commit n
  | .reserve n => q.reserve n
  | .consume n => q.consume n
  | .pushSlot => q.pushSlot
  | .truncateToSlot => q.truncateToSlot
  | .popSlot n => q.popSlot n
  | .shrink floor => q.shrink floor
  | .copy => .ok q

/-- Carries out one call, which answers nothing. -/
def call (q : Buffer) (c : Call) : Except Fault (Unit × Buffer) := do
  let q ← c.apply q
  return ((), q)

/-- Whether a call writes no more than the tail takes, reads no more than is unread and not past
the outermost slot, and has the slot that it needs. -/
def Allows (q : Buffer) : Call → Prop
  | .fillTail data => ∃ room, q.writableLength = .ok room ∧ data.length ≤ room
  | .commit n => ∃ room, q.writableLength = .ok room ∧ n ≤ room
  | .consume n =>
    (∃ unread, q.length = .ok unread ∧ n ≤ unread) ∧
      ∀ pos ∈ q.slots.getLast?, q.readPos + n ≤ pos
  | .truncateToSlot | .popSlot _ => q.pendingSlots ≠ 0
  | .append _ | .putByte _ | .putWord32 _ | .putWord64 _ | .reserve _ | .pushSlot | .shrink _
  | .copy => True

/-! ## The byte string -/

/-- A byte string with marks, and the bytes that can be written next. -/
structure Marked where
  bytes : Bytes
  /-- Where the marked places begin, innermost first. -/
  marks : List Nat
  tail : Bytes

namespace Marked

/-- What a call on a byte string with marks may leave. -/
inductive Step : Marked → Call → Unit → Marked → Prop where
  | append {m : Marked} {data tail : Bytes} :
      Step m (.append data) () ⟨m.bytes ++ data, m.marks, tail⟩
  | putByte {m : Marked} {b : UInt8} {tail : Bytes} :
      Step m (.putByte b) () ⟨m.bytes ++ [b], m.marks, tail⟩
  | putWord32 {m : Marked} {n : Nat} {tail : Bytes} :
      Step m (.putWord32 n) () ⟨m.bytes ++ Bytes.littleEndian 4 n, m.marks, tail⟩
  | putWord64 {m : Marked} {n : Nat} {tail : Bytes} :
      Step m (.putWord64 n) () ⟨m.bytes ++ Bytes.littleEndian 8 n, m.marks, tail⟩
  | fillTail {m : Marked} {data : Bytes} :
      Step m (.fillTail data) () ⟨m.bytes, m.marks, data ++ m.tail.drop data.length⟩
  | commit {m : Marked} {n : Nat} :
      Step m (.commit n) () ⟨m.bytes ++ m.tail.take n, m.marks, m.tail.drop n⟩
  | reserve {m : Marked} {n : Nat} {tail : Bytes} (hroom : n ≤ tail.length) :
      Step m (.reserve n) () ⟨m.bytes, m.marks, tail⟩
  | consume {m : Marked} {n : Nat} {tail : Bytes} :
      Step m (.consume n) () ⟨m.bytes.drop n, m.marks.map (· - n), tail⟩
  | pushSlot {m : Marked} {tail : Bytes} :
      Step m .pushSlot () ⟨m.bytes ++ [0, 0, 0, 0], m.bytes.length :: m.marks, tail⟩
  | truncateToSlot {bytes tail tail' : Bytes} {mark : Nat} {marks : List Nat} :
      Step ⟨bytes, mark :: marks, tail⟩ .truncateToSlot ()
        ⟨bytes.take (mark + 4), mark :: marks, tail'⟩
  | popSlot {bytes tail tail' : Bytes} {mark n : Nat} {marks : List Nat} :
      Step ⟨bytes, mark :: marks, tail⟩ (.popSlot n) ()
        ⟨bytes.take mark ++ Bytes.littleEndian 4 n ++ bytes.drop (mark + 4), marks, tail'⟩
  | shrink {m : Marked} {floor : Nat} {tail : Bytes} :
      Step m (.shrink floor) () ⟨m.bytes, m.marks, tail⟩
  | copy {m : Marked} : Step m .copy () m

/-- How many bytes stand behind the innermost mark. -/
def bodyLength (m : Marked) : Except Fault Nat :=
  match m.marks with
  | [] => .error .noPendingSlot
  | mark :: _ => .ok (m.bytes.drop (mark + 4)).length

end Marked

/-- All views of a buffer show the same byte string with marks. -/
structure Shows (q : Buffer) (m : Marked) : Prop where
  unread : q.unread = .ok m.bytes
  length : q.length = .ok m.bytes.length
  isEmpty : q.isEmpty = m.bytes.isEmpty
  tail : q.tail = m.tail
  writable : q.writableLength = .ok m.tail.length
  pending : q.pendingSlots = m.marks.length
  slots : q.slots = m.marks.map (q.readPos + ·)
  /-- The marked places lie in the byte string and do not overlap. -/
  nested : Nested m.bytes.length m.marks
  body : q.slotBodyLength = m.bodyLength
  /-- The cursors lie in order inside the store. -/
  cursors : q.readPos ≤ q.writePos ∧ q.writePos ≤ q.capacity

/-! ## Marks -/

/-- The outermost mark is the first one in the byte string. -/
theorem Nested.getLast?_le {n : Nat} {marks : List Nat} (h : Nested n marks) :
    ∀ mark ∈ marks, ∃ first ∈ marks.getLast?, first ≤ mark := by
  induction marks generalizing n with
  | nil => simp
  | cons inner outer ih =>
    obtain ⟨-, houter⟩ := h
    cases outer with
    | nil => simp
    | cons next rest =>
      intro mark hmark
      rw [List.getLast?_cons_cons]
      rcases List.mem_cons.mp hmark with rfl | hmark
      · obtain ⟨first, hfirst, hle⟩ := ih houter next List.mem_cons_self
        have hnext := houter.1
        exact ⟨first, hfirst, by omega⟩
      · exact ih houter mark hmark

/-- The byte string is what stands before the innermost mark, the marked place and the rest. -/
theorem Nested.exists_parts {data : Bytes} {mark : Nat} {marks : List Nat}
    (h : Nested data.length (mark :: marks)) :
    ∃ before slot after, data = before ++ slot ++ after ∧ mark = before.length ∧
      slot.length = slotWidth := by
  obtain ⟨hmark, -⟩ := h
  refine ⟨data.take mark, (data.drop mark).take slotWidth, data.drop (mark + slotWidth), ?_, ?_, ?_⟩
  · rw [List.append_assoc, ← List.drop_drop, List.take_append_drop, List.take_append_drop]
  · rw [List.length_take]
    omega
  · rw [List.length_take, List.length_drop]
    omega

section Parts

variable {before slot after : Bytes}

theorem take_before : (before ++ slot ++ after).take before.length = before := by
  rw [List.append_assoc, List.take_left]

theorem take_slot (hslot : slot.length = slotWidth) :
    (before ++ slot ++ after).take (before.length + slotWidth) = before ++ slot := by
  rw [← hslot, ← List.length_append, List.take_left]

theorem drop_slot (hslot : slot.length = slotWidth) :
    (before ++ slot ++ after).drop (before.length + slotWidth) = after := by
  rw [← hslot, ← List.length_append, List.drop_left]

end Parts

/-! ## Every call -/

/-- The buffer holds the byte string with its marks, and its writable bytes are the given ones. -/
structure Reads (q : Buffer) (m : Marked) : Prop where
  holds : q.Holds m.bytes m.marks
  tail : q.tail = m.tail

theorem reads_withCapacity (capacity : Nat) :
    (withCapacity capacity).Reads ⟨[], [], List.replicate capacity 0⟩ where
  holds := holds_withCapacity capacity
  tail := by simp [Buffer.tail, withCapacity]

namespace Reads

variable {q : Buffer} {m : Marked}

theorem body (h : q.Reads m) : q.slotBodyLength = m.bodyLength := by
  obtain ⟨data, marks, tail⟩ := m
  obtain ⟨hholds, -⟩ := h
  cases marks with
  | nil =>
    have hslots : q.slots = [] := hholds.slots
    rw [Buffer.slotBodyLength, Buffer.innermostSlot, hslots]
    rfl
  | cons mark marks =>
    obtain ⟨before, slot, after, rfl, rfl, hslot⟩ := hholds.nested.exists_parts
    rw [hholds.slotBodyLength hslot]
    show _ = Except.ok ((before ++ slot ++ after).drop (before.length + slotWidth)).length
    rw [drop_slot hslot]

theorem shows (h : q.Reads m) : q.Shows m where
  unread := h.holds.unread
  length := h.holds.length
  isEmpty := by rw [Bool.eq_iff_iff, h.holds.isEmpty_iff, List.isEmpty_iff]
  tail := h.tail
  writable := by rw [h.holds.writableLength, ← h.tail, length_tail]
  pending := by rw [pendingSlots, h.holds.slots, List.length_map]
  slots := h.holds.slots
  nested := h.holds.nested
  body := h.body
  cursors := ⟨Nat.le.intro h.holds.writePos_eq, h.holds.writePos_le⟩

/-- Room that a buffer reports is room in its tail. -/
theorem le_tail (h : q.Reads m) {n : Nat} (hroom : ∃ room, q.writableLength = .ok room ∧ n ≤ room) :
    n ≤ q.tail.length := by
  obtain ⟨room, hwritable, hn⟩ := hroom
  rw [h.holds.writableLength] at hwritable
  cases hwritable
  rwa [length_tail]

/-- What may be consumed is there and lies before all marks. -/
theorem consumable (h : q.Reads m) {n : Nat} (hn : q.Allows (.consume n)) :
    n ≤ m.bytes.length ∧ ∀ mark ∈ m.marks, n ≤ mark := by
  obtain ⟨⟨unread, hlength, hle⟩, houter⟩ := hn
  rw [h.holds.length] at hlength
  cases hlength
  refine ⟨hle, ?_⟩
  intro mark hmark
  obtain ⟨first, hfirst, hfirst_le⟩ := h.holds.nested.getLast?_le mark hmark
  have hpos : q.readPos + first ∈ q.slots.getLast? := by
    rw [h.holds.slots, List.getLast?_map]
    exact Option.mem_map_of_mem _ hfirst
  have hbefore := houter _ hpos
  omega

/-- A pending slot is the mark of a place in the byte string. -/
theorem exists_parts (h : q.Reads m) (hpending : q.pendingSlots ≠ 0) :
    ∃ before slot after marks tail,
      m = ⟨before ++ slot ++ after, before.length :: marks, tail⟩ ∧ slot.length = slotWidth := by
  obtain ⟨data, marks, tail⟩ := m
  have hholds := h.holds
  cases marks with
  | nil => simp [pendingSlots, hholds.slots] at hpending
  | cons mark marks =>
    obtain ⟨before, slot, after, rfl, rfl, hslot⟩ := hholds.nested.exists_parts
    exact ⟨before, slot, after, marks, tail, rfl, hslot⟩

/-- **Every call** that is allowed succeeds and is a step of the byte string. -/
theorem simulates_call : Calls.Simulates call Allows Marked.Step Reads := by
  intro q m c h hc
  -- It is enough to say which buffer and which byte string a call leaves.
  suffices ∃ q' m', c.apply q = .ok q' ∧ m.Step c () m' ∧ q'.Reads m' by
    obtain ⟨q', m', happly, hstep, h'⟩ := this
    exact ⟨(), q', m', by simp [call, happly], hstep, h'⟩
  have hholds := h.holds
  cases c with
  | append data =>
    obtain ⟨q', happend, h'⟩ := hholds.append data
    exact ⟨q', _, happend, .append, h', rfl⟩
  | putByte b =>
    obtain ⟨q', happend, h'⟩ := hholds.append [b]
    exact ⟨q', _, happend, .putByte, h', rfl⟩
  | putWord32 n =>
    obtain ⟨q', happend, h'⟩ := hholds.append (Bytes.littleEndian 4 n)
    exact ⟨q', _, happend, .putWord32, h', rfl⟩
  | putWord64 n =>
    obtain ⟨q', happend, h'⟩ := hholds.append (Bytes.littleEndian 8 n)
    exact ⟨q', _, happend, .putWord64, h', rfl⟩
  | fillTail data =>
    obtain ⟨h', htail⟩ := hholds.fillTail data (h.le_tail hc)
    rw [h.tail] at htail
    exact ⟨_, _, by rw [Call.apply, hholds.writableLength]; rfl, .fillTail, h', htail⟩
  | commit n =>
    obtain ⟨q', hcommit, h', htail⟩ := hholds.commit (h.le_tail hc)
    rw [h.tail] at h' htail
    exact ⟨q', _, hcommit, .commit, h', htail⟩
  | reserve n =>
    obtain ⟨q', hreserve, h', hroom⟩ := hholds.reserve n
    have hlength : n ≤ q'.tail.length := by
      rw [length_tail]
      omega
    exact ⟨q', _, hreserve, .reserve hlength, h', rfl⟩
  | consume n =>
    obtain ⟨hn, hmarks⟩ := h.consumable hc
    obtain ⟨q', hconsume, h'⟩ := hholds.consume hn hmarks
    exact ⟨q', _, hconsume, .consume, h', rfl⟩
  | pushSlot =>
    obtain ⟨q', hpush, h'⟩ := hholds.pushSlot
    exact ⟨q', _, hpush, .pushSlot, h', rfl⟩
  | truncateToSlot =>
    obtain ⟨before, slot, after, marks, tail, rfl, hslot⟩ := h.exists_parts hc
    obtain ⟨q', htruncate, h'⟩ := hholds.truncateToSlot hslot
    have htake : (before ++ slot ++ after).take (before.length + slotWidth) = before ++ slot :=
      take_slot hslot
    rw [← htake] at h'
    exact ⟨q', _, htruncate, .truncateToSlot, h', rfl⟩
  | popSlot n =>
    obtain ⟨before, slot, after, marks, tail, rfl, hslot⟩ := h.exists_parts hc
    obtain ⟨q', hpop, h'⟩ := hholds.popSlot hslot n
    have hparts : (before ++ slot ++ after).take before.length ++ Bytes.littleEndian slotWidth n
        ++ (before ++ slot ++ after).drop (before.length + slotWidth)
        = before ++ Bytes.littleEndian slotWidth n ++ after := by
      rw [take_before, drop_slot hslot]
    rw [← hparts] at h'
    exact ⟨q', _, hpop, .popSlot, h', rfl⟩
  | shrink floor =>
    obtain ⟨q', hshrink, h'⟩ := hholds.shrink floor
    exact ⟨q', ⟨m.bytes, m.marks, q'.tail⟩, hshrink, .shrink, h', rfl⟩
  | copy => exact ⟨q, m, rfl, .copy, h⟩

end Reads

/-- **A buffer refines a byte string with marks.**  On a new buffer of any capacity any calls
succeed that write, read and fill what is there, and before and after each of them the buffer
shows the byte string. -/
theorem run_withCapacity_shows (capacity : Nat) {calls : List Call}
    (hcalls : Calls.Admissible call Allows (withCapacity capacity) calls) :
    ∃ answers q m, Calls.run call (withCapacity capacity) calls = .ok (answers, q) ∧
      Calls.Follows call Marked.Step Shows (withCapacity capacity)
        ⟨[], [], List.replicate capacity 0⟩ calls answers q m :=
  Calls.run_simulates Reads.simulates_call (fun _ _ h => h.shows) (reads_withCapacity capacity)
    hcalls

/-- A pending slot goes along into a larger store, and then down to the front of it. -/
theorem run_withCapacity_shows_moved :
    let calls : List Call := [.append [1, 2, 3], .consume 2, .pushSlot, .append [7, 8],
      .consume 1, .reserve 6, .fillTail [9], .commit 1, .popSlot 3, .consume 7, .shrink 0]
    Calls.Admissible call Allows (withCapacity 0) calls ∧
      ∃ answers q m, Calls.run call (withCapacity 0) calls = .ok (answers, q) ∧
        Calls.Follows call Marked.Step Shows (withCapacity 0) ⟨[], [], List.replicate 0 0⟩ calls
          answers q m := by
  intro calls
  have hcalls : Calls.Admissible call Allows (withCapacity 0) calls := by
    refine .cons () ⟨#[1, 2, 3], 0, 3, []⟩ trivial rfl ?_
    refine .cons () ⟨#[1, 2, 3], 2, 3, []⟩ ⟨⟨3, rfl, by decide⟩, by simp⟩ rfl ?_
    refine .cons () ⟨#[3, 0, 0, 0, 0, 0], 0, 5, [1]⟩ trivial rfl ?_
    refine .cons () ⟨#[3, 0, 0, 0, 0, 7, 8, 0, 0, 0, 0, 0], 0, 7, [1]⟩ trivial rfl ?_
    refine .cons () ⟨#[3, 0, 0, 0, 0, 7, 8, 0, 0, 0, 0, 0], 1, 7, [1]⟩
      ⟨⟨7, rfl, by decide⟩, by simp⟩ rfl ?_
    refine .cons () ⟨#[0, 0, 0, 0, 7, 8, 8, 0, 0, 0, 0, 0], 0, 6, [0]⟩ trivial rfl ?_
    refine .cons () ⟨#[0, 0, 0, 0, 7, 8, 9, 0, 0, 0, 0, 0], 0, 6, [0]⟩ ⟨6, rfl, by decide⟩
      rfl ?_
    refine .cons () ⟨#[0, 0, 0, 0, 7, 8, 9, 0, 0, 0, 0, 0], 0, 7, [0]⟩ ⟨6, rfl, by decide⟩
      rfl ?_
    refine .cons () ⟨#[3, 0, 0, 0, 7, 8, 9, 0, 0, 0, 0, 0], 0, 7, []⟩ Nat.one_ne_zero rfl ?_
    refine .cons () ⟨#[3, 0, 0, 0, 7, 8, 9, 0, 0, 0, 0, 0], 0, 0, []⟩
      ⟨⟨7, rfl, by decide⟩, by simp⟩ rfl ?_
    exact .cons () ⟨#[], 0, 0, []⟩ trivial rfl trivial
  exact ⟨hcalls, run_withCapacity_shows 0 hcalls⟩

end KeyServer.Buffer
