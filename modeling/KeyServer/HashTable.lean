import KeyServer.Bytes
import KeyServer.Fault

/-!
# Hash tables that grow a little at a time

The items of a table lie in numbered slots, and the number of an item's slot is its
handle: it stays the same as long as the item is in the table.  Two generations of
buckets lead to the slots.  A bucket has the number of the first slot of its chain, and
every slot has the number of the next one:

* the **active** generation takes every new item, in front of its chain;
* the **retiring** generation has half as many buckets and is on its way out.

When the active generation holds eight items per bucket it retires, and a new one of
twice the size takes its place.  From then on every operation first moves up to
`migrationWork` items over, from the bucket at `cursor` on, so no operation pays for the
whole move.  The order in which `forEach` visits the items follows from the buckets and
chains, and so from the history of the table.
-/

namespace KeyServer

/-- The hash code of a byte string. -/
def hashBytes (data : Bytes) : UInt32 :=
  data.foldl (fun h b => (h + b.toUInt32) * 0x01000193) 0x811C9DC5

/-- An item with its hash code. -/
structure Hashed (α : Type) where
  hash : UInt32
  item : α

/-- A slot in use. -/
structure Slot (α : Type) extends Hashed α where
  /-- The next slot of the chain. -/
  next : Option Nat

/-- The slots by number; a freed one holds nothing. -/
abbrev Slots (α : Type) := Array (Option (Slot α))

/-- The slot that a link leads to. -/
def Slots.read {α : Type} (slots : Slots α) (index : Nat) : Except Fault (Slot α) :=
  match slots[index]? with
  | some (some slot) => .ok slot
  | some none => .error (.freedSlot index)
  | none => .error .outOfRange

/-- One array of buckets. -/
structure Generation where
  /-- The first slot of each bucket's chain; the number of buckets is zero or a power of
  two. -/
  heads : Array (Option Nat)
  /-- How many slots the chains have. -/
  count : Nat

namespace Generation

variable {α : Type}

/-- No buckets at all. -/
def none : Generation := ⟨#[], 0⟩

/-- Empty buckets. -/
def ofSize (buckets : Nat) : Generation := ⟨Array.replicate buckets Option.none, 0⟩

/-- Whether there are buckets. -/
def isAllocated (g : Generation) : Bool := !g.heads.isEmpty

/-- The bucket of a hash code: as many of its lowest bits as buckets need. -/
def bucketOf (g : Generation) (hash : UInt32) : Nat := hash.toNat &&& (g.heads.size - 1)

/-- The first slot of a bucket. -/
def head (g : Generation) (bucket : Nat) : Except Fault (Option Nat) :=
  match g.heads[bucket]? with
  | some head => .ok head
  | Option.none => .error .outOfRange

/-- The first slots, with another one for a bucket. -/
def setHead (g : Generation) (bucket : Nat) (head : Option Nat) :
    Except Fault (Array (Option Nat)) :=
  if bucket < g.heads.size then .ok (g.heads.setIfInBounds bucket head)
  else .error .outOfRange

/-- Puts a slot in front of the chain of its hash code. -/
def link (g : Generation) (slots : Slots α) (index : Nat) :
    Except Fault (Slots α × Generation) := do
  let slot ← slots.read index
  let bucket := g.bucketOf slot.hash
  let next ← g.head bucket
  let heads ← g.setHead bucket (some index)
  return (slots.setIfInBounds index (some { slot with next }), ⟨heads, g.count + 1⟩)

/-- Takes a slot out of its chain: the slot before it leads on to the next one, or else the
bucket does. -/
def unlink (g : Generation) (slots : Slots α) (before : Option Nat) (index : Nat) :
    Except Fault (Slots α × Generation) := do
  let slot ← slots.read index
  match before with
  | some b =>
    let previous ← slots.read b
    let count ← countDiff g.count 1
    return (slots.setIfInBounds b (some { previous with next := slot.next }), { g with count })
  | Option.none =>
    let heads ← g.setHead (g.bucketOf slot.hash) slot.next
    let count ← countDiff g.count 1
    return (slots, ⟨heads, count⟩)

end Generation

/-- A hash table. -/
structure HashTable (α : Type) where
  slots : Slots α
  /-- The freed slots, the one to be used next first. -/
  free : List Nat
  /-- The buckets that take new items. -/
  active : Generation
  /-- The buckets that are being emptied. -/
  retiring : Generation
  /-- Every retiring bucket before this one is empty. -/
  cursor : Nat

namespace HashTable

variable {α : Type}

/-- Items per bucket at which the active generation retires. -/
def maxLoad : Nat := 8

/-- The most items that one operation moves over. -/
def migrationWork : Nat := 128

/-- The number of buckets of the first generation. -/
def firstBuckets : Nat := 4

/-- The table without items and without buckets. -/
def empty : HashTable α := ⟨#[], [], Generation.none, Generation.none, 0⟩

/-- The number of items. -/
def size (t : HashTable α) : Nat := t.active.count + t.retiring.count

/-- Whether there is no item. -/
def isEmpty (t : HashTable α) : Bool := t.size == 0

/-- The number of buckets of the active generation. -/
def bucketCount (t : HashTable α) : Nat := t.active.heads.size

/-- Whether items remain to be moved over. -/
def isRehashing (t : HashTable α) : Bool := t.retiring.isAllocated

/-! ## Slots -/

/-- The item behind a handle. -/
def get? (t : HashTable α) (handle : Nat) : Option α := (t.slots[handle]?.join).map (·.item)

/-- Changes the item behind a handle, if there is one. -/
def modify (t : HashTable α) (handle : Nat) (f : α → α) : HashTable α :=
  { t with
    slots := t.slots.modify handle (Option.map fun slot => { slot with item := f slot.item }) }

/-- Puts an item into a free slot, which no chain has yet. -/
def allocate (t : HashTable α) (hash : UInt32) (item : α) : Nat × HashTable α :=
  match t with
  | ⟨slots, index :: free, active, retiring, cursor⟩ =>
    (index, ⟨slots.setIfInBounds index (some ⟨⟨hash, item⟩, none⟩), free, active, retiring, cursor⟩)
  | ⟨slots, [], active, retiring, cursor⟩ =>
    (slots.size, ⟨slots.push (some ⟨⟨hash, item⟩, none⟩), [], active, retiring, cursor⟩)

/-- Empties a slot and makes it the next to be used. -/
def release (t : HashTable α) (index : Nat) : HashTable α :=
  { t with slots := t.slots.setIfInBounds index none, free := index :: t.free }

/-! ## Moving items over -/

/-- Gives the retiring buckets up once they are empty. -/
def dropRetired (t : HashTable α) : HashTable α :=
  if t.retiring.count = 0 ∧ t.retiring.isAllocated then
    { t with retiring := Generation.none, cursor := 0 }
  else t

/-- Retires the active buckets in favour of twice as many. -/
def startRehash (t : HashTable α) : HashTable α :=
  { t with
    active := Generation.ofSize (t.active.heads.size * 2)
    retiring := t.active
    cursor := 0 }

/-- Moves up to `work` items over, one chain head at a time. -/
def migrate (t : HashTable α) (work : Nat) : Except Fault (HashTable α) :=
  if work = 0 ∨ t.retiring.count = 0 then .ok t
  else if h : t.cursor < t.retiring.heads.size then
    match t.retiring.heads[t.cursor] with
    | none => migrate { t with cursor := t.cursor + 1 } work
    | some index =>
      match t.slots.read index with
      | .error e => .error e
      | .ok slot =>
        match t.active.link t.slots index with
        | .error e => .error e
        | .ok (slots, active) =>
          let retiring : Generation :=
            ⟨t.retiring.heads.setIfInBounds t.cursor slot.next, t.retiring.count - 1⟩
          migrate { t with slots, active, retiring } (work - 1)
  else .error .outOfRange
termination_by work + (t.retiring.heads.size - t.cursor)
decreasing_by
  · omega
  · simp only [Array.size_setIfInBounds]
    omega

/-- What every operation does first. -/
def help (t : HashTable α) : Except Fault (HashTable α) := do
  let t ← t.migrate migrationWork
  return t.dropRetired

/-! ## Finding -/

/-- Whether a slot has a hash code and `p` accepts it.  The hash codes rule most slots out before
`p` has to look at one. -/
def accepts (hash : UInt32) (p : Nat → α → Except Fault Bool) (index : Nat) (slot : Slot α) :
    Except Fault Bool :=
  if slot.hash == hash then p index slot.item else .ok false

/-- From a link on, the first slot with a hash code that `p` accepts, and the slot before it;
`steps` bounds the slots that are passed. -/
def findWithin (t : HashTable α) (hash : UInt32) (p : Nat → α → Except Fault Bool) :
    (steps : Nat) → (before at? : Option Nat) → Except Fault (Option (Option Nat × Nat))
  | _, _, none => .ok none
  | 0, _, some _ => .error .endlessLinks
  | steps + 1, before, some index => do
    let slot ← t.slots.read index
    if ← accepts hash p index slot then return some (before, index)
    else t.findWithin hash p steps (some index) slot.next

/-- The first such slot of a generation. -/
def findIn (t : HashTable α) (g : Generation) (hash : UInt32) (p : Nat → α → Except Fault Bool) :
    Except Fault (Option (Option Nat × Nat)) := do
  if g.isAllocated then
    t.findWithin hash p t.slots.size none (← g.head (g.bucketOf hash))
  else
    return none

/-- The first such slot of the table: whether it is in the active generation, the slot before
it in its chain, and its number. -/
def find (t : HashTable α) (hash : UInt32) (p : Nat → α → Except Fault Bool) :
    Except Fault (Option (Bool × Option Nat × Nat)) := do
  match ← t.findIn t.active hash p with
  | some (before, index) => return some (true, before, index)
  | none =>
    return (← t.findIn t.retiring hash p).map fun (before, index) => (false, before, index)

/-- Takes a slot that was found out of its chain. -/
def unlink (t : HashTable α) (inActive : Bool) (before : Option Nat) (index : Nat) :
    Except Fault (HashTable α) := do
  if inActive then
    let (slots, active) ← t.active.unlink t.slots before index
    return { t with slots, active }
  else
    let (slots, retiring) ← t.retiring.unlink t.slots before index
    return { t with slots, retiring }

/-- Takes a slot that was found out of its chain and frees it. -/
def unlinkAndRelease (t : HashTable α) (inActive : Bool) (before : Option Nat) (index : Nat) :
    Except Fault (α × HashTable α) := do
  let t := (← t.unlink inActive before index).dropRetired
  let slot ← t.slots.read index
  return (slot.item, t.release index)

/-! ## Operations -/

/-- The handle of an item with a hash code that `p` accepts; a fault of `p` is one of the
lookup. -/
def lookupBy (t : HashTable α) (hash : UInt32) (p : α → Except Fault Bool) :
    Except Fault (Option Nat × HashTable α) := do
  let t ← t.help
  let found ← t.find hash fun _ item => p item
  return (found.map fun (_, _, index) => index, t)

/-- The handle of an item with a hash code and a property. -/
def lookup (t : HashTable α) (hash : UInt32) (p : α → Bool) :
    Except Fault (Option Nat × HashTable α) :=
  t.lookupBy hash fun item => .ok (p item)

/-- The table with buckets; the first ones are made if there are none. -/
def withBuckets (t : HashTable α) : HashTable α :=
  if t.active.isAllocated then t else { t with active := Generation.ofSize firstBuckets }

/-- The table with the active buckets retired if they are full and no others are retiring. -/
def retireFull (t : HashTable α) : HashTable α :=
  if !t.retiring.isAllocated && t.active.heads.size * maxLoad ≤ t.active.count then
    t.startRehash
  else t

/-- Links a slot that was just filled, and lets full buckets retire. -/
def place (t : HashTable α) (index : Nat) : Except Fault (HashTable α) := do
  let (slots, active) ← t.active.link t.slots index
  return ({ t with slots, active } : HashTable α).retireFull

/-- Adds an item, which the caller knows to be new, and returns its handle. -/
def insert (t : HashTable α) (hash : UInt32) (item : α) : Except Fault (Nat × HashTable α) := do
  let (index, t) := t.withBuckets.allocate hash item
  let t ← (← t.place index).help
  return (index, t)

/-- Removes an item with a hash code and a property. -/
def delete (t : HashTable α) (hash : UInt32) (p : α → Bool) :
    Except Fault (Option α × HashTable α) := do
  let t ← t.help
  match ← t.find hash fun _ item => .ok (p item) with
  | none => return (none, t)
  | some (inActive, before, index) =>
    let (item, t) ← t.unlinkAndRelease inActive before index
    return (some item, t)

/-- Removes the item behind a handle. -/
def remove (t : HashTable α) (handle : Nat) : Except Fault (Option α × HashTable α) := do
  let t ← t.help
  match t.slots[handle]?.join with
  | none => return (none, t)
  | some slot =>
    match ← t.find slot.hash fun index _ => .ok (index == handle) with
    | none => return (none, t)
    | some (inActive, before, index) =>
      let (item, t) ← t.unlinkAndRelease inActive before index
      return (some item, t)

/-! ## Visiting -/

section Visiting

variable {σ : Type}

/-- Visits the items from a link on until a visit says to stop; the last part tells whether
none did. -/
def visitWithin (t : HashTable α) (visit : σ → α → σ × Bool) :
    (steps : Nat) → (at? : Option Nat) → σ → Except Fault (σ × Bool)
  | _, none, s => .ok (s, true)
  | 0, some _, _ => .error .endlessLinks
  | steps + 1, some index, s => do
    let slot ← t.slots.read index
    match visit s slot.item with
    | (s, false) => return (s, false)
    | (s, true) => t.visitWithin visit steps slot.next s

/-- Visits the items of some buckets in turn. -/
def visitBuckets (t : HashTable α) (visit : σ → α → σ × Bool) :
    List (Option Nat) → σ → Except Fault (σ × Bool)
  | [], s => .ok (s, true)
  | head :: heads, s => do
    match ← t.visitWithin visit t.slots.size head s with
    | (s, false) => return (s, false)
    | (s, true) => t.visitBuckets visit heads s

/-- Visits the items until a visit says to stop: the active buckets, then the retiring ones,
each bucket along its chain. -/
def forEach (t : HashTable α) (visit : σ → α → σ × Bool) (s : σ) : Except Fault σ := do
  return (← t.visitBuckets visit (t.active.heads.toList ++ t.retiring.heads.toList) s).1

end Visiting

/-- The items in visiting order. -/
def toList (t : HashTable α) : Except Fault (List α) := do
  return (← t.forEach (fun items item => (item :: items, true)) []).reverse

/-- The items by slot number. -/
def items (t : HashTable α) : List α := t.slots.toList.filterMap (·.map (·.item))

end HashTable

end KeyServer
