/-!
# Lists ordered by last activity

A list of small numbers without duplicates, the one idle for longest in front.  Every
number has a slot of its own with links to its neighbours, so that moving a number to the
end and taking it out cost the same for every length.
-/

namespace KeyServer

/-- The slot of a number. -/
structure Link where
  before : Option Nat
  after : Option Nat
  /-- Whether the number is in the list. -/
  linked : Bool
  deriving DecidableEq, Repr, Inhabited

namespace Link

/-- The slot of a number that is not in the list. -/
def unlinked : Link := ⟨none, none, false⟩

end Link

/-- A list of numbers, linked through their slots. -/
structure IdleList where
  links : Array Link
  first : Option Nat
  last : Option Nat
  size : Nat
  deriving DecidableEq, Repr

namespace IdleList

/-- The empty list. -/
def empty : IdleList := ⟨#[], none, none, 0⟩

/-- Whether there is nothing in the list. -/
def isEmpty (l : IdleList) : Bool := l.size == 0

/-- Whether a number is in the list. -/
def contains (l : IdleList) (key : Nat) : Bool :=
  match l.links[key]? with
  | some link => link.linked
  | none => false

/-- Takes a number that is in the list out of it. -/
def unlink (l : IdleList) (key : Nat) : IdleList :=
  match l.links[key]? with
  | none => l
  | some ⟨before, after, _⟩ =>
    let links := match before with
      | some b => l.links.modify b fun link => { link with after }
      | none => l.links
    let links := match after with
      | some a => links.modify a fun link => { link with before }
      | none => links
    { links := links.setIfInBounds key Link.unlinked
      first := if before.isSome then l.first else after
      last := if after.isSome then l.last else before
      size := l.size - 1 }

/-- The slots, with one for `key` among them. -/
def slotsFor (links : Array Link) (key : Nat) : Array Link :=
  links ++ Array.replicate (key + 1 - links.size) Link.unlinked

/-- Puts a number at the end, from wherever it was. -/
def pushBack (l : IdleList) (key : Nat) : IdleList :=
  let l := if l.contains key then l.unlink key else l
  let links := (slotsFor l.links key).setIfInBounds key ⟨l.last, none, true⟩
  let links := match l.last with
    | some last => links.modify last fun link => { link with after := some key }
    | none => links
  { links, first := l.first.or (some key), last := some key, size := l.size + 1 }

/-- Notes that a number was just active. -/
def touch (l : IdleList) (key : Nat) : IdleList := l.pushBack key

/-- Takes a number out and tells whether it was there. -/
def remove (l : IdleList) (key : Nat) : Bool × IdleList :=
  if l.contains key then (true, l.unlink key) else (false, l)

/-- The numbers from one on, at most `steps` of them. -/
def listWithin (l : IdleList) : (steps : Nat) → Option Nat → List Nat
  | 0, _ => []
  | _, none => []
  | steps + 1, some key =>
    key :: l.listWithin steps ((l.links[key]?).bind (·.after))

/-- The numbers, the one idle for longest first. -/
def toList (l : IdleList) : List Nat := l.listWithin l.links.size l.first

end IdleList

end KeyServer
