import KeyServer.Engine

/-!
# Deadlines of keys

A key lives until its deadline, in milliseconds of a clock that the caller reads.  Nothing
happens at the deadline itself: the next sweep removes the keys whose deadline has come,
the earliest first, and not more of them than the configuration allows.
-/

namespace KeyServer.Engine

/-- Notes in the entries where their deadlines are now. -/
def noteMoves (keyspace : HashTable Entry) (moves : List (Nat × Nat)) : HashTable Entry :=
  moves.foldl
    (fun t (owner, pos) => t.modify owner fun entry => { entry with heapIndex := some pos })
    keyspace

/-- Deletes the deadline at a position of the heap. -/
def deleteDeadline (e : Engine) (pos : Nat) : Engine :=
  let (_, deadlines, moves) := e.deadlines.delete pos
  { e with deadlines, keyspace := noteMoves e.keyspace moves }

/-- Lets the key of a handle live `ttl` milliseconds from now, or for ever if `ttl` is
negative; `heapIndex` is where its deadline is. -/
def setTtl (e : Engine) (handle : Nat) (heapIndex : Option Nat) (ttl : Int) (now : Nat) : Engine :=
  if ttl < 0 then
    match heapIndex with
    | none => e
    | some pos =>
      let e := e.deleteDeadline pos
      { e with keyspace := e.keyspace.modify handle fun entry => { entry with heapIndex := none } }
  else
    let settled := e.deadlines.upsert heapIndex ⟨min (now + ttl.toNat) maxWord, handle⟩
    { e with deadlines := settled.heap, keyspace := noteMoves e.keyspace settled.moves }

/-- Removes what belongs to an entry that was taken out of the keyspace. -/
def discard (e : Engine) (entry : Entry) : Engine :=
  let e := match entry.heapIndex with
    | some pos => e.deleteDeadline pos
    | none => e
  e.dispose entry.data

/-- Removes at most `budget` keys whose deadline has come; `done` is the number removed
before. -/
def sweepWithin (now : Nat) : (budget done : Nat) → Engine → Except Fault (Nat × Engine)
  | 0, done, e => .ok (done, e)
  | budget + 1, done, e =>
    match e.deadlines.peek? with
    | none => .ok (done, e)
    | some first =>
      if now < first.expiresAt then .ok (done, e)
      else do
        let e := e.deleteDeadline 0
        let (entry, keyspace) ← e.keyspace.remove first.owner
        let e := { e with keyspace }
        sweepWithin now budget (done + 1) <|
          match entry with
          | some entry => e.dispose entry.data
          | none => e

/-- Removes the keys whose deadline has come, within the limit of one sweep; returns how
many. -/
def sweep (e : Engine) (now : Nat) : Except Fault (Nat × Engine) :=
  sweepWithin now e.maxExpirationsPerSweep 0 e

end KeyServer.Engine
