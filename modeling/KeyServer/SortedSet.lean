import KeyServer.Double
import KeyServer.HashTable
import KeyServer.RankTree.Walk

/-!
# Sorted sets

A set of members with distinct names, ordered by score and then by name.  Every member is
a node of a tree in that order, and a hash table finds the node of a name.  A member that
gets a new score keeps its node.

Queries by order go in three steps: seek the first member that is not before a pair,
move some positions, walk on up to a limit.
-/

namespace KeyServer

/-- A member of a sorted set. -/
structure Member where
  name : Bytes
  score : Double
  deriving DecidableEq, Repr

namespace Member

/-- Whether one pair comes before another: the scores decide unless they are equal
numbers, and then the names do. -/
def pairBefore (score₁ : Double) (name₁ : Bytes) (score₂ : Double) (name₂ : Bytes) : Bool :=
  if score₁.equals score₂ then decide (name₁ < name₂) else score₁.less score₂

/-- Whether one member comes before another. -/
def before (a b : Member) : Bool := pairBefore a.score a.name b.score b.name

end Member

/-- A sorted set. -/
structure SortedSet where
  /-- The members in order. -/
  tree : RankTree Member
  /-- The node of each name. -/
  byName : HashTable Nat

namespace SortedSet

/-- The set without members. -/
def empty : SortedSet := ⟨RankTree.empty, HashTable.empty⟩

/-- The number of members. -/
def size (s : SortedSet) : Nat := s.byName.size

/-- Whether there is no member. -/
def isEmpty (s : SortedSet) : Bool := s.byName.isEmpty

/-- The member of a node. -/
def member (s : SortedSet) (id : Nat) : Except Fault Member := s.tree.get id

/-- Whether a node has a member of this name. -/
def hasName (tree : RankTree Member) (name : Bytes) (id : Nat) : Except Fault Bool := do
  return (← tree.get id).name == name

/-! ## Members -/

/-- The node of a name. -/
def lookup (s : SortedSet) (name : Bytes) : Except Fault (Option Nat × SortedSet) := do
  if s.tree.isEmpty then
    return (none, s)
  let (handle, byName) ← s.byName.lookupBy (hashBytes name) (hasName s.tree name)
  return (handle.bind byName.get?, { s with byName })

/-- Adds a member, or gives the member of this name another score.  Tells whether the
member is new. -/
def insert (s : SortedSet) (name : Bytes) (score : Double) : Except Fault (Bool × SortedSet) := do
  match ← s.lookup name with
  | (some id, ⟨tree, byName⟩) =>
    let (tree, _) ← tree.detach id
    let tree ← tree.change id fun n => { n with value := { n.value with score } }
    let tree ← tree.attach id Member.before
    return (false, ⟨tree, byName⟩)
  | (none, ⟨tree, byName⟩) =>
    let (id, tree) ← tree.insert ⟨name, score⟩ Member.before
    let (_, byName) ← byName.insert (hashBytes name) id
    return (true, ⟨tree, byName⟩)

/-- Removes the member of a node. -/
def delete (s : SortedSet) (id : Nat) : Except Fault (Member × SortedSet) := do
  let m ← s.tree.get id
  let (removed, byName) ← s.byName.delete (hashBytes m.name) (· == id)
  if removed = some id then
    let (m, tree) ← s.tree.remove id
    return (m, ⟨tree, byName⟩)
  else
    throw .unindexedMember

/-! ## Queries by order -/

/-- The first node of a subtree whose member is not before a pair, or else `found`. -/
def seekWithin (t : RankTree Member) (score : Double) (name : Bytes) :
    (steps : Nat) → (at? found : Option Nat) → Except Fault (Option Nat)
  | _, none, found => .ok found
  | 0, some _, _ => .error .endlessLinks
  | steps + 1, some id, found => do
    let n ← t.node id
    if Member.pairBefore n.value.score n.value.name score name then
      seekWithin t score name steps n.right found
    else
      seekWithin t score name steps n.left (some id)

/-- The first member that is not before a pair. -/
def seek (s : SortedSet) (score : Double) (name : Bytes) : Except Fault (Option Nat) :=
  seekWithin s.tree score name s.tree.stepBound s.tree.root none

/-- The member `k` positions after one. -/
def offset (s : SortedSet) (id : Nat) (k : Int) : Except Fault (Option Nat) := s.tree.offset id k

/-- The next member. -/
def successor (s : SortedSet) (id : Nat) : Except Fault (Option Nat) := s.tree.successor id

/-- The position of a member. -/
def rank (s : SortedSet) (id : Nat) : Except Fault Nat := s.tree.rank id

/-- How many members are before a pair. -/
def countBefore (s : SortedSet) (score : Double) (name : Bytes) : Except Fault Nat := do
  match ← s.seek score name with
  | some id => s.rank id
  | none => return s.size

/-- How many members are not before the first pair but before the second. -/
def countBetween (s : SortedSet) (low high : Double × Bytes) : Except Fault Nat := do
  let l ← s.countBefore low.1 low.2
  let h ← s.countBefore high.1 high.2
  return h - l

/-- Where a range begins: `offset` positions after the first member that is not before a
pair. -/
def rangeStart (s : SortedSet) (score : Double) (name : Bytes) (offset : Int) :
    Except Fault (Option Nat) := do
  match ← s.seek score name with
  | some id => s.offset id offset
  | none => return none

/-- At most `limit` members from a node on; `done` holds the ones before, last first. -/
def takeWithin (s : SortedSet) (limit : Nat) :
    (steps : Nat) → (at? : Option Nat) → (done : List Member) → Except Fault (List Member)
  | _, none, done => .ok done.reverse
  | steps, some id, done =>
    if limit ≤ done.length then .ok done.reverse
    else match steps with
      | 0 => .error .endlessLinks
      | steps + 1 => do
        let m ← s.member id
        s.takeWithin limit steps (← s.successor id) (m :: done)

/-- At most `limit` members, from `offset` positions after the first one that is not
before a pair. -/
def range (s : SortedSet) (score : Double) (name : Bytes) (offset : Int) (limit : Nat) :
    Except Fault (List Member) := do
  s.takeWithin limit s.tree.stepBound (← s.rangeStart score name offset) []

/-- The members in order. -/
def toList (s : SortedSet) : Except Fault (List Member) :=
  return (← s.tree.toList).map (·.2)

end SortedSet

end KeyServer
