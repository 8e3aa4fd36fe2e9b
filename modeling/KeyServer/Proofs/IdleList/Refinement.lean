import KeyServer.Proofs.Calls
import KeyServer.Proofs.IdleList.Links

/-! # An idle list is a list without duplicates

Numbers are put at the end, moved there and taken out in any order.  On a plain list this is
erasing and appending (`Call.onList`); the linked list patches slots, and there is more to see of
it than the numbers: both directions of its links, the flags, the counter (`Shows`).

* **`Leads`**: following links in one direction comes to an end.
* **`Holds.shows`**: all views of a list show the same numbers.
* **`run_empty_keepsOrder`**: whatever calls are made on an empty list, they answer what they answer
  on a plain list, and before and after each of them all views show that list.
-/

namespace KeyServer.IdleList

/-! ## Calls -/

/-- A call of an operation, with any number. -/
inductive Call where
  | pushBack (key : Nat)
  | touch (key : Nat)
  | remove (key : Nat)

/-- Carries out one call; only a removal answers something. -/
def call (l : IdleList) : Call → Except Fault (Option Bool × IdleList)
  | .pushBack key => .ok (none, l.pushBack key)
  | .touch key => .ok (none, l.touch key)
  | .remove key =>
    let (found, l) := l.remove key
    .ok (some found, l)

/-- What a call answers on a plain list, and the list that it leaves. -/
def Call.onList (keys : List Nat) : Call → Option Bool × List Nat
  | .pushBack key | .touch key => (none, keys.erase key ++ [key])
  | .remove key => (some (decide (key ∈ keys)), keys.erase key)

/-! ## Views of one list -/

/-- Following links from a number on leads through some numbers, all of which have slots, and then
comes to an end. -/
inductive Leads (links : Array Link) (next : Link → Option Nat) : Option Nat → List Nat → Prop where
  | done : Leads links next none []
  | step {key : Nat} {link : Link} {keys : List Nat} (hlink : links[key]? = some link)
      (hrest : Leads links next (next link) keys) : Leads links next (some key) (key :: keys)

/-- All views of a list show the same numbers. -/
structure Shows (l : IdleList) (keys : List Nat) : Prop where
  nodup : keys.Nodup
  toList : l.toList = keys
  forward : Leads l.links Link.after l.first keys
  backward : Leads l.links Link.before l.last keys.reverse
  /-- A number comes after another one just if that one comes before it. -/
  mirrored : ∀ a b, (linkAt l.links a).after = some b ↔ (linkAt l.links b).before = some a
  size : l.size = keys.length
  isEmpty : l.isEmpty = keys.isEmpty
  first : l.first = keys.head?
  last : l.last = keys.getLast?
  contains : ∀ key, l.contains key = decide (key ∈ keys)
  /-- A slot that is not in the list leads nowhere. -/
  unlinked : ∀ (key : Nat) (link : Link), l.links[key]? = some link → link.linked = false →
    link = .unlinked

namespace Holds

variable {l : IdleList} {keys : List Nat} (h : l.Holds keys)

include h

theorem getElem?_links {front back : List Nat} {key : Nat} (hkeys : keys = front ++ key :: back) :
    l.links[key]? = some ⟨front.getLast?, back.head?, true⟩ := by
  have hlink := h.linked front key back hkeys
  rw [getElem?_of_linked (by rw [hlink]), hlink]

/-! ### Directions -/

/-- The numbers behind some of them. -/
theorem leads_after : ∀ {back : List Nat} (front : List Nat), keys = front ++ back →
    Leads l.links Link.after back.head? back
  | [], _, _ => .done
  | key :: back, front, hkeys =>
    .step (h.getElem?_links hkeys) (leads_after (front ++ [key]) (by simpa using hkeys))

/-- The numbers in front of some of them, the nearest one first. -/
theorem leads_before : ∀ {front : List Nat} (back : List Nat), keys = front.reverse ++ back →
    Leads l.links Link.before front.head? front
  | [], _, _ => .done
  | key :: front, back, hkeys => by
    have hsplit : keys = front.reverse ++ key :: back := by simpa using hkeys
    refine .step (h.getElem?_links hsplit) ?_
    show Leads l.links Link.before front.reverse.getLast? front
    rw [List.getLast?_reverse]
    exact leads_before (key :: back) hsplit

/-- A number with a slot that leads on is in the list. -/
theorem exists_split {key : Nat} (hkey : linkAt l.links key ≠ .unlinked) :
    ∃ front back, keys = front ++ key :: back ∧
      linkAt l.links key = ⟨front.getLast?, back.head?, true⟩ := by
  have hmem : key ∈ keys := by
    by_contra hmem
    exact hkey (h.unlinked key hmem)
  obtain ⟨front, back, hkeys⟩ := List.append_of_mem hmem
  exact ⟨front, back, hkeys, h.linked front key back hkeys⟩

/-- **The two directions** are those of the same list. -/
theorem after_eq_iff (a b : Nat) :
    (linkAt l.links a).after = some b ↔ (linkAt l.links b).before = some a := by
  constructor
  · intro hafter
    have ha : linkAt l.links a ≠ .unlinked := fun heq => by
      rw [heq] at hafter
      cases hafter
    obtain ⟨front, back, hkeys, hlink⟩ := h.exists_split ha
    rw [hlink] at hafter
    obtain ⟨back, rfl⟩ := List.head?_eq_some_iff.mp hafter
    rw [h.linked (front ++ [a]) b back (by simpa using hkeys)]
    exact List.getLast?_concat
  · intro hbefore
    have hb : linkAt l.links b ≠ .unlinked := fun heq => by
      rw [heq] at hbefore
      cases hbefore
    obtain ⟨front, back, hkeys, hlink⟩ := h.exists_split hb
    rw [hlink] at hbefore
    obtain ⟨front, rfl⟩ := List.getLast?_eq_some_iff.mp hbefore
    rw [h.linked front a (b :: back) (by simpa using hkeys)]
    rfl

/-- **All views** of a list show its numbers. -/
theorem shows : l.Shows keys where
  nodup := h.nodup
  toList := h.toList
  forward := by
    rw [h.first]
    exact h.leads_after [] rfl
  backward := by
    rw [h.last, ← List.head?_reverse]
    exact h.leads_before [] (by simp)
  mirrored := h.after_eq_iff
  size := h.size
  isEmpty := by
    rw [IdleList.isEmpty, h.size]
    cases keys <;> rfl
  first := h.first
  last := h.last
  contains := fun key => Bool.eq_iff_iff.mpr (by rw [h.contains_iff, decide_eq_true_iff])
  unlinked := fun key link hlink hflag => by
    have hat : linkAt l.links key = link := by rw [linkAt, hlink, Option.getD_some]
    have hmem : key ∉ keys := by
      rw [← h.linked_iff, hat, hflag]
      exact Bool.false_ne_true
    rw [← hat, h.unlinked key hmem]

/-! ### Calls -/

/-- **One call** does to the links what it does to a plain list. -/
theorem call (c : Call) :
    ∃ l', l.call c = .ok ((c.onList keys).1, l') ∧ l'.Holds (c.onList keys).2 := by
  have herase : ∀ key, keys.erase key = keys.filter (· ≠ key) := by
    intro key
    rw [h.nodup.erase_eq_filter]
    refine List.filter_congr fun k _ => ?_
    simp [bne, BEq.beq]
  cases c with
  | pushBack key | touch key =>
    refine ⟨l.pushBack key, rfl, ?_⟩
    rw [Call.onList, herase]
    exact h.pushBack key
  | remove key =>
    obtain ⟨hfound, hholds⟩ := h.remove key
    refine ⟨(l.remove key).2, ?_, ?_⟩
    · rw [IdleList.call, Call.onList, ← hfound]
    · rw [Call.onList, herase]
      exact hholds

end Holds

/-- **An idle list is a list without duplicates.**  On an empty list any calls succeed, with any
numbers, and answer what they answer on a plain list; before and after each of them following the
links comes to an end in both directions, and all views of the list show the plain one. -/
theorem run_empty_keepsOrder (calls : List Call) :
    ∃ answers l keys, Calls.run call empty calls = .ok (answers, l) ∧
      Calls.Follows call (fun keys c answer keys' => c.onList keys = (answer, keys')) Shows
        empty [] calls answers l keys := by
  have hsimulates : Calls.Simulates call (fun _ _ => True)
      (fun keys c answer keys' => c.onList keys = (answer, keys')) Holds := by
    intro l keys c h _
    obtain ⟨l', hcall, h'⟩ := h.call c
    exact ⟨_, l', _, hcall, rfl, h'⟩
  exact Calls.run_simulates hsimulates (fun _ _ h => h.shows) holds_empty
    (Calls.admissible_of_forall (fun _ _ => trivial) calls)

end KeyServer.IdleList
