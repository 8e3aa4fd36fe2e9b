import KeyServer.Fault

/-!
# Balanced trees that know the rank of a node

A search tree whose nodes carry the height and the size of the subtree below them.
Heights keep siblings within one of each other, sizes give the position of a node in the
order (`KeyServer.RankTree.Walk`).

Nodes lie in an arena; the number of a node is its id and stays the same as long as the
node is not freed, whatever happens around it.  A node links to its parent and children
by id.  The tree never orders values itself: whoever inserts one brings the order along,
and a value goes behind the values that are not greater.

A node can be taken out of the tree and put back (`detach`, `attach`) without losing its
id.  An id that names no node is a fault.
-/

namespace KeyServer

/-- The two sides of a node. -/
inductive Side where
  | left
  | right
  deriving DecidableEq, Repr

namespace Side

/-- The opposite side. -/
def other : Side → Side
  | left => right
  | right => left

/-- The fault of a rotation to a side that misses the child it needs. -/
def rotationFault : Side → Fault
  | left => .rotateLeftWithoutChild
  | right => .rotateRightWithoutChild

/-- The fault of a node whose heavy side is empty. -/
def heavyFault : Side → Fault
  | left => .leftHeavyWithoutChild
  | right => .rightHeavyWithoutChild

end Side

/-- A node of a tree. -/
structure Node (α : Type) where
  parent : Option Nat
  left : Option Nat
  right : Option Nat
  /-- The height of the subtree below and with this node. -/
  height : Nat
  /-- The number of nodes of that subtree. -/
  size : Nat
  value : α
  deriving Repr

namespace Node

variable {α : Type}

/-- A node without links. -/
def single (value : α) : Node α := ⟨none, none, none, 1, 1, value⟩

/-- The child on a side. -/
def child (n : Node α) : Side → Option Nat
  | .left => n.left
  | .right => n.right

/-- The node with another child on a side. -/
def withChild (n : Node α) (side : Side) (id : Option Nat) : Node α :=
  match side with
  | .left => { n with left := id }
  | .right => { n with right := id }

end Node

/-- A tree in an arena. -/
structure RankTree (α : Type) where
  /-- The nodes by id; a freed id has none. -/
  nodes : Array (Option (Node α))
  /-- The freed ids, the one to be used next first. -/
  free : List Nat
  root : Option Nat

namespace RankTree

variable {α : Type}

/-- The tree without nodes. -/
def empty : RankTree α := ⟨#[], [], none⟩

/-! ## Nodes -/

/-- The node with an id. -/
def node (t : RankTree α) (id : Nat) : Except Fault (Node α) :=
  match t.nodes[id]? with
  | some (some n) => .ok n
  | _ => .error (.staleNode id)

/-- The tree with one node changed. -/
def change (t : RankTree α) (id : Nat) (f : Node α → Node α) : Except Fault (RankTree α) :=
  match t.nodes[id]? with
  | some (some _) => .ok { t with nodes := t.nodes.modify id (Option.map f) }
  | _ => .error (.staleNode id)

/-- The value of a node. -/
def get (t : RankTree α) (id : Nat) : Except Fault α := return (← t.node id).value

/-- Gives a node another value, which the caller keeps in its place in the order. -/
def set (t : RankTree α) (id : Nat) (value : α) : Except Fault (RankTree α) :=
  t.change id fun n => { n with value }

/-- The height of a subtree, zero for an empty one. -/
def heightAt (t : RankTree α) : Option Nat → Except Fault Nat
  | none => .ok 0
  | some id => return (← t.node id).height

/-- The number of nodes of a subtree, zero for an empty one. -/
def sizeAt (t : RankTree α) : Option Nat → Except Fault Nat
  | none => .ok 0
  | some id => return (← t.node id).size

/-- The number of nodes below the root. -/
def size (t : RankTree α) : Except Fault Nat := t.sizeAt t.root

/-- Whether there is no root. -/
def isEmpty (t : RankTree α) : Bool := t.root.isNone

/-- Puts a value into a free place of the arena, without linking it. -/
def allocate (t : RankTree α) (value : α) : Nat × RankTree α :=
  match t with
  | ⟨nodes, id :: free, root⟩ =>
    (id, ⟨nodes.setIfInBounds id (some (Node.single value)), free, root⟩)
  | ⟨nodes, [], root⟩ => (nodes.size, ⟨nodes.push (some (Node.single value)), [], root⟩)

/-- More steps than any walk along the links takes that does not go in a circle. -/
def stepBound (t : RankTree α) : Nat := 2 * t.nodes.size + 2

/-! ## Restoring balance -/

/-- Computes height and size of a node from its children. -/
def measure (t : RankTree α) (id : Nat) : Except Fault (RankTree α) := do
  let n ← t.node id
  let height := 1 + max (← t.heightAt n.left) (← t.heightAt n.right)
  let size := 1 + (← t.sizeAt n.left) + (← t.sizeAt n.right)
  t.change id fun n => { n with height, size }

/-- Sets the parent of a node, if there is one. -/
def setParent (t : RankTree α) (id : Option Nat) (parent : Option Nat) :
    Except Fault (RankTree α) :=
  match id with
  | some id => t.change id fun n => { n with parent }
  | none => .ok t

/-- Sets the child link of a parent that led to one node to another: the left link if it
is the one, else the right link. -/
def relink (t : RankTree α) (parent old : Nat) (new : Option Nat) :
    Except Fault (RankTree α) := do
  let p ← t.node parent
  let side := if p.left = some old then Side.left else Side.right
  t.change parent (·.withChild side new)

/-- Rotates a subtree towards a side: the child of the other side becomes its top, which
is returned.  The link from above is left to the caller. -/
def rotate (t : RankTree α) (towards : Side) (id : Nat) :
    Except Fault (RankTree α × Nat) := do
  let n ← t.node id
  match n.child towards.other with
  | none => throw towards.rotationFault
  | some top =>
    let inner := (← t.node top).child towards
    let t ← t.change id (·.withChild towards.other inner)
    let t ← t.setParent inner (some id)
    let t ← t.change top fun m => { m.withChild towards (some id) with parent := n.parent }
    let t ← t.setParent (some id) (some top)
    let t ← t.measure id
    let t ← t.measure top
    return (t, top)

/-- Restores the balance of a subtree that is two higher on one side, and returns its
top. -/
def lighten (t : RankTree α) (heavy : Side) (id : Nat) : Except Fault (RankTree α × Nat) := do
  match (← t.node id).child heavy with
  | none => throw heavy.heavyFault
  | some c =>
    let child ← t.node c
    let outer ← t.heightAt (child.child heavy)
    let inner ← t.heightAt (child.child heavy.other)
    if outer < inner then
      let (t, top) ← t.rotate heavy c
      let t ← t.change id (·.withChild heavy (some top))
      t.rotate heavy.other id
    else
      t.rotate heavy.other id

/-- Measures a node and restores its balance; returns the top of its subtree. -/
def rebalance (t : RankTree α) (id : Nat) : Except Fault (RankTree α × Nat) := do
  let t ← t.measure id
  let n ← t.node id
  let left ← t.heightAt n.left
  let right ← t.heightAt n.right
  if left = right + 2 then t.lighten .left id
  else if right = left + 2 then t.lighten .right id
  else return (t, id)

/-- Restores measures and balance from a node up, in at most `steps` steps. -/
def fixWithin (t : RankTree α) : (steps : Nat) → (id : Nat) → Except Fault (RankTree α × Nat)
  | 0, _ => .error .endlessLinks
  | steps + 1, id => do
    let parent := (← t.node id).parent
    let (t, top) ← t.rebalance id
    match parent with
    | none => return ({ t with root := some top }, top)
    | some p =>
      let t ← t.relink p id (some top)
      t.fixWithin steps p

/-- Restores measures and balance from a node up to the root, which is returned. -/
def fix (t : RankTree α) (id : Nat) : Except Fault (RankTree α × Nat) :=
  t.fixWithin t.stepBound id

/-! ## Linking -/

/-- The last place on the way down to where a value belongs: a node and one of its
sides.  A value goes left of the values that are greater. -/
def placeWithin (t : RankTree α) (less : α → α → Bool) (value : α) :
    (steps : Nat) → (at? : Option Nat) → (above : Option (Nat × Side)) →
    Except Fault (Option (Nat × Side))
  | _, none, above => .ok above
  | 0, some _, _ => .error .endlessLinks
  | steps + 1, some id, _ => do
    let n ← t.node id
    let side := if less value n.value then Side.left else Side.right
    t.placeWithin less value steps (n.child side) (some (id, side))

/-- Links a detached node. -/
def attach (t : RankTree α) (id : Nat) (less : α → α → Bool) : Except Fault (RankTree α) := do
  let n ← t.node id
  let above ← t.placeWithin less n.value t.stepBound t.root none
  let t ← match above with
    | some (p, side) => t.change p (·.withChild side (some id))
    | none => pure t
  let t ← t.setParent (some id) (above.map (·.1))
  return (← t.fix id).1

/-- Adds a value and returns the id of its node. -/
def insert (t : RankTree α) (value : α) (less : α → α → Bool) :
    Except Fault (Nat × RankTree α) := do
  let (id, t) := t.allocate value
  return (id, ← t.attach id less)

/-! ## Unlinking -/

/-- Unlinks a node with at most one child; returns the new root. -/
def unlinkNarrow (t : RankTree α) (id : Nat) : Except Fault (RankTree α × Option Nat) := do
  let n ← t.node id
  let child := n.left.or n.right
  let t ← t.setParent child n.parent
  match n.parent with
  | none => return ({ t with root := child }, child)
  | some p =>
    let t ← t.relink p id child
    let (t, root) ← t.fix p
    return (t, some root)

/-- The leftmost node of a subtree. -/
def leftmostWithin (t : RankTree α) : (steps : Nat) → (id : Nat) → Except Fault Nat
  | 0, _ => .error .endlessLinks
  | steps + 1, id => do
    match (← t.node id).left with
    | some left => t.leftmostWithin steps left
    | none => return id

/-- The leftmost node of a subtree. -/
def leftmost (t : RankTree α) (id : Nat) : Except Fault Nat := t.leftmostWithin t.stepBound id

/-- Unlinks a node, whose own links stay as they are; returns the new root.  A node with
two children is replaced by its successor. -/
def unlink (t : RankTree α) (id : Nat) : Except Fault (RankTree α × Option Nat) := do
  let n ← t.node id
  match n.left, n.right with
  | some _, some right =>
    let heir ← t.leftmost right
    let (t, _) ← t.unlinkNarrow heir
    let n ← t.node id
    let t ← t.change heir fun h => { n with value := h.value }
    let t ← t.setParent n.left (some heir)
    let t ← t.setParent n.right (some heir)
    let t ← match n.parent with
      | none => pure { t with root := some heir }
      | some p => t.relink p id (some heir)
    return (t, t.root)
  | _, _ => t.unlinkNarrow id

/-- Takes a node out of the tree and keeps it; returns the new root. -/
def detach (t : RankTree α) (id : Nat) : Except Fault (RankTree α × Option Nat) := do
  let (t, root) ← t.unlink id
  let t ← t.change id fun n => Node.single n.value
  return (t, root)

/-- Takes a node out of the tree and frees its id; returns its value. -/
def remove (t : RankTree α) (id : Nat) : Except Fault (α × RankTree α) := do
  let (t, _) ← t.detach id
  let n ← t.node id
  return (n.value, { t with nodes := t.nodes.setIfInBounds id none, free := id :: t.free })

end RankTree

end KeyServer
