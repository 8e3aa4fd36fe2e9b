import KeyServer.RankTree

/-!
# Positions in a tree

The nodes of a tree have positions in its order, counted from zero.  `rank` computes the
position of a node on the way up to the root, and `offset` finds the node some positions
away; both skip whole subtrees by their sizes.  `toList` lists the nodes in order.
-/

namespace KeyServer.RankTree

variable {α : Type}

/-! ## Ranks -/

/-- Adds to a position inside a subtree what comes before the subtree. -/
def rankWithin (t : RankTree α) : (steps : Nat) → (id rank : Nat) → Except Fault Nat
  | 0, _, _ => .error .endlessLinks
  | steps + 1, id, rank => do
    match (← t.node id).parent with
    | none => return rank
    | some p =>
      let parent ← t.node p
      if parent.right = some id then
        t.rankWithin steps p (rank + (← t.sizeAt parent.left) + 1)
      else
        t.rankWithin steps p rank

/-- The position of a node. -/
def rank (t : RankTree α) (id : Nat) : Except Fault Nat := do
  let n ← t.node id
  t.rankWithin t.stepBound id (← t.sizeAt n.left)

/-- Goes on from a node at position `pos`, relative to the start, to the one at
`target`: into the subtree that has it, else up. -/
def offsetWithin (t : RankTree α) (target : Int) :
    (steps : Nat) → (id : Nat) → (pos : Int) → Except Fault (Option Nat)
  | 0, _, _ => .error .endlessLinks
  | steps + 1, id, pos =>
    if pos = target then .ok (some id)
    else do
      let n ← t.node id
      let side := if pos < target then Side.right else Side.left
      let reach ← t.sizeAt (n.child side)
      let inside ← match side with
        | .right => do pure (decide (target ≤ (← signedWord (pos + reach))))
        | .left => do pure (decide ((← signedWord (pos - reach)) ≤ target))
      if inside then
        match n.child side with
        | none => return none
        | some c =>
          let before : Int := (← t.sizeAt ((← t.node c).child side.other)) + 1
          let pos ← signedWord (if side = .right then pos + before else pos - before)
          t.offsetWithin target steps c pos
      else
        match n.parent with
        | none => return none
        | some p =>
          if (← t.node p).right = some id then
            let before : Int := (← t.sizeAt n.left) + 1
            t.offsetWithin target steps p (← signedWord (pos - before))
          else
            let after : Int := (← t.sizeAt n.right) + 1
            t.offsetWithin target steps p (← signedWord (pos + after))

/-- The node `k` positions after a node, before it if `k` is negative. -/
def offset (t : RankTree α) (id : Nat) (k : Int) : Except Fault (Option Nat) :=
  t.offsetWithin k t.stepBound id 0

/-! ## Order -/

/-- The first node. -/
def first (t : RankTree α) : Except Fault (Option Nat) :=
  match t.root with
  | none => .ok none
  | some root => return some (← t.leftmost root)

/-- The nearest node above that has `id` below its left side. -/
def climbWithin (t : RankTree α) : (steps : Nat) → (id : Nat) → Except Fault (Option Nat)
  | 0, _ => .error .endlessLinks
  | steps + 1, id => do
    match (← t.node id).parent with
    | none => return none
    | some p =>
      if (← t.node p).left = some id then return some p else t.climbWithin steps p

/-- The next node in order. -/
def successor (t : RankTree α) (id : Nat) : Except Fault (Option Nat) := do
  match (← t.node id).right with
  | some right => return some (← t.leftmost right)
  | none => t.climbWithin t.stepBound id

/-- The nodes from one on; `done` holds the ones before, last first. -/
def listWithin (t : RankTree α) :
    (steps : Nat) → (at? : Option Nat) → (done : List (Nat × α)) → Except Fault (List (Nat × α))
  | _, none, done => .ok done.reverse
  | 0, some _, _ => .error .endlessLinks
  | steps + 1, some id, done => do
    let next ← t.successor id
    let value ← t.get id
    t.listWithin steps next ((id, value) :: done)

/-- The nodes in order, each with its value. -/
def toList (t : RankTree α) : Except Fault (List (Nat × α)) := do
  t.listWithin t.stepBound (← t.first) []

/-! ## Shape -/

/-- A tree as a term, with the ids and all of the nodes. -/
inductive Shape (α : Type) where
  | leaf
  | node (id : Nat) (node : Node α) (left right : Shape α)

/-- The shape of a subtree of at most `depth` levels. -/
def shapeWithin (t : RankTree α) : (depth : Nat) → Option Nat → Except Fault (Shape α)
  | _, none => .ok .leaf
  | 0, some _ => .error .endlessLinks
  | depth + 1, some id => do
    let n ← t.node id
    return .node id n (← t.shapeWithin depth n.left) (← t.shapeWithin depth n.right)

/-- The shape of the whole tree. -/
def shape (t : RankTree α) : Except Fault (Shape α) := t.shapeWithin t.stepBound t.root

end KeyServer.RankTree
