import KeyServer.Config
import KeyServer.DeadlineHeap
import KeyServer.SortedSet
import KeyServer.WorkerPool

/-!
# The engine: keys, values, deadlines

The engine holds the keys.  A key has a string or a sorted set, and perhaps a deadline;
the entry of a key knows the position of its deadline in the heap, and the deadline knows
the handle of the entry.  Commands are in `KeyServer.Engine.Execution`, deadlines in
`KeyServer.Engine.Expiry`.

A sorted set that is no longer needed is left to the workers when it is large.
-/

namespace KeyServer

/-- The value of a key. -/
inductive Data where
  | str (value : Bytes)
  | set (members : SortedSet)

/-- A key with its value. -/
structure Entry where
  key : Bytes
  data : Data
  /-- The position of its deadline in the heap, if it has one. -/
  heapIndex : Option Nat

/-- The state of an engine. -/
structure Engine where
  keyspace : HashTable Entry
  /-- The deadlines; their owners are handles of the keyspace. -/
  deadlines : DeadlineHeap Nat
  /-- The workers that free large sorted sets. -/
  pool : WorkerPool SortedSet
  /-- Sorted sets with more members than this are large. -/
  largeSetThreshold : Nat
  /-- The most keys that one sweep removes. -/
  maxExpirationsPerSweep : Nat

namespace Engine

/-- An engine without keys. -/
def ofConfig (c : Config) : Engine where
  keyspace := HashTable.empty
  deadlines := DeadlineHeap.empty
  pool := WorkerPool.ofSize c.workerThreads
  largeSetThreshold := c.largeSetThreshold
  maxExpirationsPerSweep := c.maxExpirationsPerSweep

/-- The number of keys. -/
def size (e : Engine) : Nat := e.keyspace.size

/-- Whether there is no key. -/
def isEmpty (e : Engine) : Bool := e.keyspace.isEmpty

/-- The number of keys with a deadline. -/
def deadlineCount (e : Engine) : Nat := e.deadlines.size

/-- The earliest deadline of all keys. -/
def nextExpiry? (e : Engine) : Option Nat := e.deadlines.peek?.map (·.expiresAt)

/-- Gives up a value that no key has any more. -/
def dispose (e : Engine) : Data → Engine
  | .str _ => e
  | .set members =>
    if e.largeSetThreshold < members.size then { e with pool := e.pool.submit members } else e

/-- The entry of a key and its handle. -/
def find (e : Engine) (key : Bytes) : Except Fault (Option (Nat × Entry) × Engine) := do
  let ⟨keyspace, deadlines, pool, large, sweep⟩ := e
  let (handle, keyspace) ← keyspace.lookup (hashBytes key) (·.key == key)
  let found := handle.bind fun h => (keyspace.get? h).map fun entry => (h, entry)
  return (found, ⟨keyspace, deadlines, pool, large, sweep⟩)

/-- Adds a key, which is known to be new. -/
def add (e : Engine) (key : Bytes) (data : Data) : Except Fault Engine := do
  let (_, keyspace) ← e.keyspace.insert (hashBytes key) ⟨key, data, none⟩
  return { e with keyspace }

/-- Gives the key of a handle another value. -/
def setData (e : Engine) (handle : Nat) (data : Data) : Engine :=
  { e with keyspace := e.keyspace.modify handle fun entry => { entry with data } }

/-- The sorted set of a key and its handle; a key with a string is refused. -/
def findSet (e : Engine) (key : Bytes) :
    Except Fault (Except CommandError (Option (Nat × SortedSet)) × Engine) := do
  match ← e.find key with
  | (none, e) => return (.ok none, e)
  | (some (handle, ⟨_, .set members, _⟩), e) => return (.ok (some (handle, members)), e)
  | (some (_, ⟨_, .str _, _⟩), e) => return (.error .notSortedSet, e)

end Engine

end KeyServer
