import KeyServer.RankTree

/-! # Heights and sizes as sums

Heights and sizes are sums, and a sum has a largest number where it is kept in a machine word.
Here are the operations that measure nodes once more, with an `Adder` that says how two numbers
are added; a sum that does not come about is a fault.

* **`attachWith_exactly`** and its siblings: with numbers of any size these are the operations
  themselves.
* **`Gives limit op b`**: an operation gives `b` with every adder whose sums are right up to
  `limit`.  So it gives `b` as it is, and in machine words if they reach the limit
  (`Gives.exactly`, `Gives.inWords`).
-/

namespace KeyServer.RankTree

/-- How two numbers are added. -/
abbrev Adder := Nat → Nat → Except Fault Nat

/-- The addition of numbers of any size. -/
def exactly : Adder := fun a b => .ok (a + b)

/-- The greatest number of an unsigned 32-bit word; heights and sizes end there. -/
def maxMeasure : Nat := 0xFFFFFFFF

/-- The addition of unsigned 32-bit words, whose sum must be one again. -/
def inWords : Adder := fun a b => if a + b ≤ maxMeasure then .ok (a + b) else .error .overflow

/-! ## Operations -/

section Operations

variable {α : Type}

/-- Computes height and size of a node from its children. -/
def measureWith (t : RankTree α) (id : Nat) (add : Adder) : Except Fault (RankTree α) := do
  let n ← t.node id
  let height ← add 1 (max (← t.heightAt n.left) (← t.heightAt n.right))
  let size ← add (← add 1 (← t.sizeAt n.left)) (← t.sizeAt n.right)
  t.change id fun n => { n with height, size }

/-- Rotates a subtree towards a side. -/
def rotateWith (t : RankTree α) (towards : Side) (id : Nat) (add : Adder) :
    Except Fault (RankTree α × Nat) := do
  let n ← t.node id
  match n.child towards.other with
  | none => throw towards.rotationFault
  | some top =>
    let inner := (← t.node top).child towards
    let t ← t.change id (·.withChild towards.other inner)
    let t ← t.setParent inner (some id)
    let t ← t.change top fun m => { m.withChild towards (some id) with parent := n.parent }
    let t ← t.setParent (some id) (some top)
    let t ← t.measureWith id add
    let t ← t.measureWith top add
    return (t, top)

/-- Restores the balance of a subtree that is two higher on one side. -/
def lightenWith (t : RankTree α) (heavy : Side) (id : Nat) (add : Adder) :
    Except Fault (RankTree α × Nat) := do
  match (← t.node id).child heavy with
  | none => throw heavy.heavyFault
  | some c =>
    let child ← t.node c
    let outer ← t.heightAt (child.child heavy)
    let inner ← t.heightAt (child.child heavy.other)
    if outer < inner then
      let (t, top) ← t.rotateWith heavy c add
      let t ← t.change id (·.withChild heavy (some top))
      t.rotateWith heavy.other id add
    else
      t.rotateWith heavy.other id add

/-- Measures a node and restores its balance. -/
def rebalanceWith (t : RankTree α) (id : Nat) (add : Adder) :
    Except Fault (RankTree α × Nat) := do
  let t ← t.measureWith id add
  let n ← t.node id
  let left ← t.heightAt n.left
  let right ← t.heightAt n.right
  if left = right + 2 then t.lightenWith .left id add
  else if right = left + 2 then t.lightenWith .right id add
  else return (t, id)

/-- Restores measures and balance from a node up, in at most `steps` steps. -/
def fixWithinWith (t : RankTree α) :
    (steps : Nat) → (id : Nat) → (add : Adder) → Except Fault (RankTree α × Nat)
  | 0, _, _ => .error .endlessLinks
  | steps + 1, id, add => do
    let parent := (← t.node id).parent
    let (t, top) ← t.rebalanceWith id add
    match parent with
    | none => return ({ t with root := some top }, top)
    | some p =>
      let t ← t.relink p id (some top)
      t.fixWithinWith steps p add

/-- Restores measures and balance from a node up to the root. -/
def fixWith (t : RankTree α) (id : Nat) (add : Adder) : Except Fault (RankTree α × Nat) :=
  t.fixWithinWith t.stepBound id add

/-- Links a detached node. -/
def attachWith (t : RankTree α) (id : Nat) (less : α → α → Bool) (add : Adder) :
    Except Fault (RankTree α) := do
  let n ← t.node id
  let above ← t.placeWithin less n.value t.stepBound t.root none
  let t ← match above with
    | some (p, side) => t.change p (·.withChild side (some id))
    | none => pure t
  let t ← t.setParent (some id) (above.map (·.1))
  return (← t.fixWith id add).1

/-- Adds a value and returns the id of its node. -/
def insertWith (t : RankTree α) (value : α) (less : α → α → Bool) (add : Adder) :
    Except Fault (Nat × RankTree α) := do
  let (id, t) := t.allocate value
  return (id, ← t.attachWith id less add)

/-- Unlinks a node with at most one child. -/
def unlinkNarrowWith (t : RankTree α) (id : Nat) (add : Adder) :
    Except Fault (RankTree α × Option Nat) := do
  let n ← t.node id
  let child := n.left.or n.right
  let t ← t.setParent child n.parent
  match n.parent with
  | none => return ({ t with root := child }, child)
  | some p =>
    let t ← t.relink p id child
    let (t, root) ← t.fixWith p add
    return (t, some root)

/-- Unlinks a node, whose own links stay as they are. -/
def unlinkWith (t : RankTree α) (id : Nat) (add : Adder) :
    Except Fault (RankTree α × Option Nat) := do
  let n ← t.node id
  match n.left, n.right with
  | some _, some right =>
    let heir ← t.leftmost right
    let (t, _) ← t.unlinkNarrowWith heir add
    let n ← t.node id
    let t ← t.change heir fun h => { n with value := h.value }
    let t ← t.setParent n.left (some heir)
    let t ← t.setParent n.right (some heir)
    let t ← match n.parent with
      | none => pure { t with root := some heir }
      | some p => t.relink p id (some heir)
    return (t, t.root)
  | _, _ => t.unlinkNarrowWith id add

/-- Takes a node out of the tree and keeps it. -/
def detachWith (t : RankTree α) (id : Nat) (add : Adder) :
    Except Fault (RankTree α × Option Nat) := do
  let (t, root) ← t.unlinkWith id add
  let t ← t.change id fun n => Node.single n.value
  return (t, root)

/-- Takes a node out of the tree and frees its id. -/
def removeWith (t : RankTree α) (id : Nat) (add : Adder) : Except Fault (α × RankTree α) := do
  let (t, _) ← t.detachWith id add
  let n ← t.node id
  return (n.value, { t with nodes := t.nodes.setIfInBounds id none, free := id :: t.free })

end Operations

/-! ## Numbers of any size -/

section Exactly

variable {α : Type} (t : RankTree α)

theorem measureWith_exactly (id : Nat) : t.measureWith id exactly = t.measure id := rfl

theorem rebalanceWith_exactly (id : Nat) : t.rebalanceWith id exactly = t.rebalance id := rfl

theorem fixWithinWith_exactly (steps id : Nat) :
    t.fixWithinWith steps id exactly = t.fixWithin steps id := by
  induction steps generalizing t id with
  | zero => rfl
  | succ steps ih =>
    rw [fixWithinWith]
    simp only [rebalanceWith_exactly, ih]
    rfl

theorem fixWith_exactly (id : Nat) : t.fixWith id exactly = t.fix id :=
  fixWithinWith_exactly ..

theorem attachWith_exactly (id : Nat) (less : α → α → Bool) :
    t.attachWith id less exactly = t.attach id less := by
  rw [attachWith]
  simp only [fixWith_exactly]
  rfl

theorem insertWith_exactly (v : α) (less : α → α → Bool) :
    t.insertWith v less exactly = t.insert v less := by
  rw [insertWith]
  simp only [attachWith_exactly]
  rfl

theorem unlinkNarrowWith_exactly (id : Nat) :
    t.unlinkNarrowWith id exactly = t.unlinkNarrow id := by
  rw [unlinkNarrowWith]
  simp only [fixWith_exactly]
  rfl

theorem unlinkWith_exactly (id : Nat) : t.unlinkWith id exactly = t.unlink id := by
  rw [unlinkWith]
  simp only [unlinkNarrowWith_exactly]
  rfl

theorem detachWith_exactly (id : Nat) : t.detachWith id exactly = t.detach id := by
  rw [detachWith]
  simp only [unlinkWith_exactly]
  rfl

theorem removeWith_exactly (id : Nat) : t.removeWith id exactly = t.remove id := by
  rw [removeWith]
  simp only [detachWith_exactly]
  rfl

end Exactly

/-! ## Sums up to a limit -/

/-- Sums up to a limit are right. -/
def Adder.UpTo (add : Adder) (limit : Nat) : Prop := ∀ a b, a + b ≤ limit → add a b = .ok (a + b)

theorem Adder.UpTo.mono {add : Adder} {limit limit' : Nat} (h : add.UpTo limit')
    (hle : limit ≤ limit') : add.UpTo limit :=
  fun a b hab => h a b (Nat.le_trans hab hle)

theorem exactly_upTo (limit : Nat) : exactly.UpTo limit := fun _ _ _ => rfl

theorem inWords_upTo : inWords.UpTo maxMeasure := fun _ _ h => if_pos h

/-- What an operation gives with every adder whose sums are right up to a limit. -/
def Gives {β : Type} (limit : Nat) (op : Adder → Except Fault β) (b : β) : Prop :=
  ∀ add : Adder, add.UpTo limit → op add = .ok b

namespace Gives

variable {β : Type} {limit : Nat} {op : Adder → Except Fault β} {b : β}

theorem mono {limit' : Nat} (h : Gives limit op b) (hle : limit ≤ limit') : Gives limit' op b :=
  fun add hadd => h add (hadd.mono hle)

theorem exactly (h : Gives limit op b) : op exactly = .ok b := h _ (exactly_upTo limit)

theorem inWords (h : Gives limit op b) (hlimit : limit ≤ maxMeasure) : op inWords = .ok b :=
  h _ (inWords_upTo.mono hlimit)

end Gives

end KeyServer.RankTree
