import KeyServer.Buffer
import Mathlib.Data.List.Basic

/-!
# What a buffer holds

`q.Holds data marks` reads a buffer as a byte string with marks: its unread bytes are
`data`, and its pending slots lie `marks` bytes behind the first of them, innermost first.
Where the bytes lie in the store, and how large the store is, plays no part.  Each operation
then says what it does to the byte string and to the marks, and that it succeeds:

* `Holds.append` adds bytes at the end, `Holds.consume` drops bytes at the front;
* `Holds.fillTail` changes the writable bytes only, and `Holds.commit` adds them at the end;
* `Holds.reserve` and `Holds.shrink` change nothing;
* `Holds.pushSlot`, `Holds.truncateToSlot` and `Holds.popSlot` work on the innermost mark.
-/

namespace KeyServer.Buffer

/-- Marks in a byte string of length `n`, innermost first: the four bytes of each lie before
the end and before the marks further in. -/
def Nested : (n : Nat) → List Nat → Prop
  | _, [] => True
  | n, m :: ms => m + slotWidth ≤ n ∧ Nested m ms

/-- The writable bytes, whatever stands there. -/
def tail (q : Buffer) : Bytes := q.store.toList.drop q.writePos

@[simp] theorem length_tail (q : Buffer) : q.tail.length = q.store.size - q.writePos := by
  rw [tail, List.length_drop, Array.length_toList]

/-- The unread bytes are `data`, and the pending slots are at `marks` in it. -/
structure Holds (q : Buffer) (data : Bytes) (marks : List Nat) : Prop where
  layout : ∃ consumed tail, q.store.toList = consumed ++ data ++ tail ∧
    consumed.length = q.readPos ∧ q.readPos + data.length = q.writePos
  slots : q.slots = marks.map (q.readPos + ·)
  nested : Nested data.length marks

theorem Nested.mono {n k : Nat} {marks : List Nat} (h : Nested n marks) (hk : n ≤ k) :
    Nested k marks := by
  cases marks with
  | nil => trivial
  | cons m ms => exact ⟨Nat.le_trans h.1 hk, h.2⟩

/-- Marks behind a front of `n` bytes stay nested when it is dropped. -/
theorem Nested.sub {n k : Nat} {marks : List Nat} (h : Nested k marks) (hn : ∀ m ∈ marks, n ≤ m) :
    Nested (k - n) (marks.map (· - n)) := by
  induction marks generalizing k with
  | nil => trivial
  | cons m ms ih =>
    obtain ⟨hm, hms⟩ := h
    have hle := hn m List.mem_cons_self
    refine ⟨?_, ih hms fun m' hm' => hn m' (List.mem_cons_of_mem m hm')⟩
    show m - n + slotWidth ≤ k - n
    omega

/-- Laying bytes over as many others. -/
theorem toList_overwrite (new : Bytes) :
    ∀ {store : Array UInt8} {before old after : Bytes},
      store.toList = before ++ old ++ after → old.length = new.length →
      (overwrite store before.length new).toList = before ++ new ++ after := by
  induction new with
  | nil =>
    intro store before old after hstore hlen
    rw [List.length_nil, List.length_eq_zero_iff] at hlen
    rw [overwrite, hstore, hlen]
  | cons b bs ih =>
    intro store before old after hstore hlen
    obtain ⟨c, cs, rfl⟩ := List.exists_cons_of_length_pos (l := old) (by simp [hlen])
    have hset : (store.setIfInBounds before.length b).toList
        = (before ++ [b]) ++ cs ++ after := by
      rw [Array.toList_setIfInBounds, hstore]
      simp
    have hnext := ih hset (by simpa using hlen)
    rw [List.length_append, List.length_singleton] at hnext
    rw [overwrite, hnext]
    simp

namespace Holds

variable {q : Buffer} {data : Bytes} {marks : List Nat}

/-! ## Views -/

theorem writePos_eq (h : q.Holds data marks) : q.readPos + data.length = q.writePos := by
  obtain ⟨_, _, _, _, hw⟩ := h.layout
  exact hw

theorem writePos_le (h : q.Holds data marks) : q.writePos ≤ q.store.size := by
  obtain ⟨consumed, tail, hstore, hr, hw⟩ := h.layout
  have hlen := congrArg List.length hstore
  simp only [Array.length_toList, List.length_append] at hlen
  omega

theorem length (h : q.Holds data marks) : q.length = .ok data.length := by
  have := h.writePos_eq
  rw [Buffer.length, countDiff_eq_ok (by omega)]
  congr 1
  omega

theorem writableLength (h : q.Holds data marks) :
    q.writableLength = .ok (q.store.size - q.writePos) := by
  rw [Buffer.writableLength, countDiff_eq_ok h.writePos_le]

/-- The part of the store between the cursors. -/
theorem extract_eq (h : q.Holds data marks) :
    (q.store.extract q.readPos q.writePos).toList = data := by
  obtain ⟨consumed, tail, hstore, hr, hw⟩ := h.layout
  rw [Array.toList_extract, hstore, ← hr, ← hw, ← hr, List.extract_eq_take_drop]
  simp

theorem unread (h : q.Holds data marks) : q.unread = .ok data := by
  have hw := h.writePos_eq
  rw [Buffer.unread, if_pos ⟨by omega, h.writePos_le⟩, h.extract_eq]

theorem isEmpty_iff (h : q.Holds data marks) : q.isEmpty = true ↔ data = [] := by
  have hw := h.writePos_eq
  rw [Buffer.isEmpty, beq_iff_eq, ← List.length_eq_zero_iff]
  omega

/-! ## Moving the unread bytes -/

/-- Going on in a store that begins with the unread bytes. -/
theorem rebase (h : q.Holds data marks) {store : Array UInt8} {tail : Bytes}
    (hstore : store.toList = data ++ tail) :
    ∃ q', q.rebase store data.length = .ok q' ∧ q'.Holds data marks ∧
      q'.store = store ∧ q'.writePos = data.length := by
  have hshift : shiftSlots q.readPos q.slots = .ok marks := by
    rw [shiftSlots, h.slots, if_pos (by simp), List.map_map]
    congr 1
    exact (List.map_congr_left fun m _ => Nat.add_sub_cancel_left q.readPos m).trans
      (List.map_id' marks)
  refine ⟨⟨store, 0, data.length, marks⟩, by simp [Buffer.rebase, hshift], ?_, rfl, rfl⟩
  exact {
    layout := ⟨[], tail, by simpa using hstore, rfl, Nat.zero_add _⟩
    slots := by simp
    nested := h.nested }

/-- A new store that is large enough begins with the unread bytes. -/
theorem freshStore (h : q.Holds data marks) (capacity : Nat) (hcap : data.length ≤ capacity) :
    ∃ store, q.freshStore data.length capacity = .ok store ∧ store.size = capacity ∧
      store.toList = data ++ List.replicate (capacity - data.length) 0 := by
  have hstore : (q.store.extract q.readPos q.writePos
      ++ Array.replicate (capacity - data.length) 0).toList
        = data ++ List.replicate (capacity - data.length) 0 := by
    rw [Array.toList_append, h.extract_eq, Array.toList_replicate]
  refine ⟨_, by rw [Buffer.freshStore, if_pos ⟨h.writePos_le, hcap⟩], ?_, hstore⟩
  rw [← Array.length_toList, hstore, List.length_append, List.length_replicate]
  omega

/-- **Reserving** changes no unread byte and makes room. -/
theorem reserve (h : q.Holds data marks) (n : Nat) :
    ∃ q', q.reserve n = .ok q' ∧ q'.Holds data marks ∧ q'.writePos + n ≤ q'.store.size := by
  have hle := h.writePos_le
  have hw := h.writePos_eq
  unfold Buffer.reserve
  rw [h.writableLength, ok_bind]
  split
  · next hroom => exact ⟨q, rfl, h, by omega⟩
  · next hroom =>
    rw [h.length, ok_bind]
    -- Either the bytes move to the front of the store, or into a larger one.
    split
    · next hcompact =>
      have hdata : (q.compactedStore data.length).toList
          = data ++ (q.store.extract data.length q.store.size).toList := by
        rw [compactedStore, Array.toList_append, h.extract_eq]
      obtain ⟨q', hq, hholds, hstore, hwrite⟩ := h.rebase hdata
      refine ⟨q', hq, hholds, ?_⟩
      rw [hwrite, hstore, compactedStore, Array.size_append, Array.size_extract,
        Array.size_extract]
      omega
    · next hcompact =>
      obtain ⟨store, hfresh, hsize, hdata⟩ :=
        h.freshStore (max (q.capacity * 2) (data.length + n)) (by omega)
      obtain ⟨q', hq, hholds, hstore, hwrite⟩ := h.rebase hdata
      refine ⟨q', by rw [hfresh, ok_bind, hq], hholds, ?_⟩
      rw [hwrite, hstore, hsize]
      omega

/-- **Shrinking** changes no unread byte. -/
theorem shrink (h : q.Holds data marks) (floor : Nat) :
    ∃ q', q.shrink floor = .ok q' ∧ q'.Holds data marks := by
  unfold Buffer.shrink
  rw [h.length, ok_bind]
  split
  · exact ⟨q, rfl, h⟩
  · obtain ⟨store, hfresh, -, hdata⟩ :=
      h.freshStore (max floor (data.length * 2)) (by omega)
    obtain ⟨q', hq, hholds, -⟩ := h.rebase hdata
    exact ⟨q', by rw [hfresh, ok_bind, hq], hholds⟩

/-! ## Writing and reading -/

/-- The store in parts. -/
theorem exists_layout (h : q.Holds data marks) :
    ∃ consumed, consumed.length = q.readPos ∧ (consumed ++ data).length = q.writePos ∧
      q.store.toList = consumed ++ data ++ q.tail := by
  obtain ⟨consumed, tail, hstore, hr, hw⟩ := h.layout
  have hlen : (consumed ++ data).length = q.writePos := by rw [List.length_append, hr, hw]
  exact ⟨consumed, hr, hlen, by rw [Buffer.tail, hstore, ← hlen, List.drop_left]⟩

/-- **Filling the tail** changes no unread byte. -/
theorem fillTail (h : q.Holds data marks) (extra : Bytes) (hroom : extra.length ≤ q.tail.length) :
    (q.fillTail extra).Holds data marks ∧
      (q.fillTail extra).tail = extra ++ q.tail.drop extra.length := by
  obtain ⟨consumed, hr, hw, hstore⟩ := h.exists_layout
  have hsplit : q.store.toList
      = (consumed ++ data) ++ q.tail.take extra.length ++ q.tail.drop extra.length := by
    rw [hstore, List.append_assoc (consumed ++ data), List.take_append_drop]
  have hover := toList_overwrite extra hsplit (by rw [List.length_take]; omega)
  rw [hw, List.append_assoc (consumed ++ data)] at hover
  refine ⟨⟨⟨consumed, extra ++ q.tail.drop extra.length, hover, hr, h.writePos_eq⟩, h.slots,
    h.nested⟩, ?_⟩
  show (overwrite q.store q.writePos extra).toList.drop q.writePos = _
  rw [hover, ← hw, List.drop_left]

/-- Writable bytes are counted in. -/
theorem advance (h : q.Holds data marks) {n : Nat} (hn : n ≤ q.tail.length) :
    Holds { q with writePos := q.writePos + n } (data ++ q.tail.take n) marks := by
  obtain ⟨consumed, hr, hw, hstore⟩ := h.exists_layout
  exact {
    layout := ⟨consumed, q.tail.drop n, by
      rw [hstore, List.append_assoc consumed (data ++ _), List.append_assoc data,
        List.take_append_drop, List.append_assoc], hr, by
      rw [List.length_append, List.length_take, Nat.min_eq_left hn, ← Nat.add_assoc,
        h.writePos_eq]⟩
    slots := h.slots
    nested := h.nested.mono (by simp) }

/-- **Committing** adds the bytes that stand at the front of the tail. -/
theorem commit (h : q.Holds data marks) {n : Nat} (hn : n ≤ q.tail.length) :
    ∃ q', q.commit n = .ok q' ∧ q'.Holds (data ++ q.tail.take n) marks ∧
      q'.tail = q.tail.drop n := by
  refine ⟨{ q with writePos := q.writePos + n }, ?_, h.advance hn, ?_⟩
  · rw [Buffer.commit, h.writableLength, ok_bind, if_pos (by simpa using hn)]
    rfl
  · rw [Buffer.tail, Buffer.tail, List.drop_drop]

/-- Bytes laid over the tail and then counted in. -/
theorem extend (h : q.Holds data marks) {extra : Bytes}
    (hroom : q.writePos + extra.length ≤ q.store.size) :
    Holds ⟨overwrite q.store q.writePos extra, q.readPos, q.writePos + extra.length, q.slots⟩
      (data ++ extra) marks := by
  obtain ⟨hfill, htail⟩ := h.fillTail extra (by rw [length_tail]; omega)
  have hadvance := hfill.advance (n := extra.length) (by rw [htail, List.length_append]; omega)
  rwa [htail, List.take_left] at hadvance

/-- **Appending** adds bytes at the end. -/
theorem append (h : q.Holds data marks) (extra : Bytes) :
    ∃ q', q.append extra = .ok q' ∧ q'.Holds (data ++ extra) marks := by
  obtain ⟨q₁, hreserve, h₁, hroom⟩ := h.reserve extra.length
  refine ⟨_, ?_, h₁.extend hroom⟩
  rw [Buffer.append, hreserve]
  exact if_pos hroom

/-- **Filling the tail and committing** adds the bytes at the end, if there is room. -/
theorem fillTail_commit (h : q.Holds data marks) {extra : Bytes}
    (hroom : q.writePos + extra.length ≤ q.store.size) :
    ∃ q', (q.fillTail extra).commit extra.length = .ok q' ∧ q'.Holds (data ++ extra) marks := by
  obtain ⟨hfill, htail⟩ := h.fillTail extra (by rw [length_tail]; omega)
  obtain ⟨q', hcommit, h', -⟩ :=
    hfill.commit (n := extra.length) (by rw [htail, List.length_append]; omega)
  rw [htail, List.take_left] at h'
  exact ⟨q', hcommit, h'⟩

/-- **Consuming** drops bytes at the front. -/
theorem consume {n : Nat} (h : q.Holds data marks) (hn : n ≤ data.length)
    (hmarks : ∀ m ∈ marks, n ≤ m) :
    ∃ q', q.consume n = .ok q' ∧ q'.Holds (data.drop n) (marks.map (· - n)) := by
  obtain ⟨consumed, tail, hstore, hr, hw⟩ := h.layout
  rw [Buffer.consume, h.length, ok_bind, if_pos hn]
  dsimp only
  split
  · next hempty =>
    -- The cursors start over, which is no change without unread bytes and slots.
    have hdata : data.drop n = [] := List.drop_eq_nil_of_le (by omega)
    have hnone : marks = [] := by simpa [h.slots] using hempty.2
    subst hnone
    refine ⟨_, rfl, ?_⟩
    rw [hdata]
    exact {
      layout := ⟨[], q.store.toList, by simp, rfl, rfl⟩
      slots := hempty.2
      nested := trivial }
  · refine ⟨_, rfl, ?_⟩
    exact {
      layout := ⟨consumed ++ data.take n, tail, by
        rw [hstore, List.append_assoc consumed (data.take n), List.take_append_drop], by
        rw [List.length_append, List.length_take, hr, Nat.min_eq_left hn], by
        rw [List.length_drop]
        show q.readPos + n + _ = q.writePos
        omega⟩
      slots := by
        rw [h.slots, List.map_map]
        refine List.map_congr_left fun m hm => ?_
        have := hmarks m hm
        show q.readPos + m = q.readPos + n + (m - n)
        omega
      nested := by
        rw [List.length_drop]
        exact h.nested.sub hmarks }

/-! ## Slots -/

/-- **Pushing a slot** adds four zero bytes and marks them. -/
theorem pushSlot (h : q.Holds data marks) :
    ∃ q', q.pushSlot = .ok q' ∧
      q'.Holds (data ++ List.replicate slotWidth 0) (data.length :: marks) := by
  obtain ⟨q₁, hreserve, h₁, hroom⟩ := h.reserve slotWidth
  -- The slot is noted before its bytes are appended; reserving for them once more does nothing.
  have hroom' : slotWidth ≤ q₁.store.size - q₁.writePos := by omega
  have hstay : ({ q₁ with slots := q₁.writePos :: q₁.slots } : Buffer).reserve slotWidth
      = .ok { q₁ with slots := q₁.writePos :: q₁.slots } := by
    have htail : ({ q₁ with slots := q₁.writePos :: q₁.slots } : Buffer).writableLength
        = .ok (q₁.store.size - q₁.writePos) := countDiff_eq_ok h₁.writePos_le
    rw [Buffer.reserve, htail, ok_bind, if_pos hroom']
    rfl
  have hext := h₁.extend (show q₁.writePos + (List.replicate slotWidth (0 : UInt8)).length
    ≤ q₁.store.size by simpa using hroom)
  refine ⟨⟨overwrite q₁.store q₁.writePos (List.replicate slotWidth 0), q₁.readPos,
    q₁.writePos + (List.replicate slotWidth (0 : UInt8)).length, q₁.writePos :: q₁.slots⟩, ?_, {
    layout := hext.layout
    slots := by rw [List.map_cons, h₁.writePos_eq, ← h₁.slots]
    nested := ⟨by simp, h₁.nested⟩ }⟩
  rw [Buffer.pushSlot, hreserve, ok_bind, Buffer.append, List.length_replicate, hstay]
  exact if_pos hroom

variable {before slot after : Bytes}

theorem innermostSlot {m : Nat} (h : q.Holds data (m :: marks)) :
    q.innermostSlot = .ok (q.readPos + m) := by
  rw [Buffer.innermostSlot, h.slots]
  rfl

/-- The bytes after the innermost slot are counted. -/
theorem slotBodyLength (h : q.Holds (before ++ slot ++ after) (before.length :: marks))
    (hslot : slot.length = slotWidth) : q.slotBodyLength = .ok after.length := by
  have hw := h.writePos_eq
  simp only [List.length_append] at hw
  have hlen : q.writePos - (q.readPos + before.length) - slotWidth = after.length := by omega
  rw [Buffer.slotBodyLength, h.innermostSlot, ok_bind, countDiff_eq_ok (by omega), ok_bind,
    countDiff_eq_ok (by omega), hlen]

/-- **Truncating** drops what follows the innermost slot. -/
theorem truncateToSlot (h : q.Holds (before ++ slot ++ after) (before.length :: marks))
    (hslot : slot.length = slotWidth) :
    ∃ q', q.truncateToSlot = .ok q' ∧ q'.Holds (before ++ slot) (before.length :: marks) := by
  obtain ⟨consumed, tail, hstore, hr, hw⟩ := h.layout
  refine ⟨{ q with writePos := q.readPos + before.length + slotWidth },
    by rw [Buffer.truncateToSlot, h.innermostSlot]; rfl, {
    layout := ⟨consumed, after ++ tail, by simpa using hstore, hr, ?_⟩
    slots := h.slots
    nested := ⟨by simp [hslot], h.nested.2⟩ }⟩
  rw [List.length_append, hslot]
  show q.readPos + (before.length + slotWidth) = q.readPos + before.length + slotWidth
  omega

/-- **Popping a slot** fills it and forgets its mark. -/
theorem popSlot (h : q.Holds (before ++ slot ++ after) (before.length :: marks))
    (hslot : slot.length = slotWidth) (n : Nat) :
    ∃ q', q.popSlot n = .ok q' ∧
      q'.Holds (before ++ Bytes.littleEndian slotWidth n ++ after) marks := by
  obtain ⟨consumed, tail, hstore, hr, hw⟩ := h.layout
  have hsize := h.writePos_le
  simp only [List.length_append] at hw
  have hstore' : q.store.toList = (consumed ++ before) ++ slot ++ (after ++ tail) := by
    simpa using hstore
  have hover := toList_overwrite (Bytes.littleEndian slotWidth n) hstore' (by simp [hslot])
  rw [List.length_append, hr] at hover
  refine ⟨{ q with
      store := overwrite q.store (q.readPos + before.length) (Bytes.littleEndian slotWidth n)
      slots := q.slots.tail },
    by rw [Buffer.popSlot, h.innermostSlot, ok_bind, if_pos (by omega)]; rfl, {
    layout := ⟨consumed, tail, by simpa using hover, hr, ?_⟩
    slots := by rw [h.slots]; rfl
    nested := h.nested.2.mono (by simp) }⟩
  simp only [List.length_append, Bytes.length_littleEndian]
  show q.readPos + _ = q.writePos
  omega

end Holds

/-! ## New buffers -/

theorem holds_withCapacity (capacity : Nat) : (withCapacity capacity).Holds [] [] where
  layout := ⟨[], List.replicate capacity 0, by simp [withCapacity], rfl, rfl⟩
  slots := rfl
  nested := trivial

theorem holds_empty : empty.Holds [] [] := holds_withCapacity defaultCapacity

end KeyServer.Buffer
