import KeyServer.Proofs.SortedSet.Members

/-! # Queries by order

What the queries answer in terms of the members in order, `items`.  The members before a
pair are a beginning of them, so their number is the position of the first other one.

* **`Holds.seek`** finds the first member that is not before a pair.
* **`Holds.rank`**, **`Holds.countBetween`** count members.
* **`Holds.rangeStart`** finds the member some positions after the first one, and
  **`Holds.takeWithin`** takes the members from a position on.
-/

namespace KeyServer.SortedSet

/-- Whether the member of a node is before a pair. -/
def isBefore (score : Double) (name : Bytes) (e : Nat × Member) : Bool :=
  Member.pairBefore e.2.score e.2.name score name

theorem isBefore_of_before {score : Double} {name : Bytes} {e e' : Nat × Member}
    (h : e.2.before e'.2 = true) (h' : isBefore score name e' = true) :
    isBefore score name e = true :=
  Member.pairBefore_trans h h'

/-- The first element that is not in a beginning comes right after it. -/
theorem find?_not_eq_getElem? {α : Type} {l : List α} {p : α → Bool}
    (hp : l.Pairwise fun a b => p b = true → p a = true) :
    l.find? (fun a => !p a) = l[l.countP p]? := by
  induction l with
  | nil => rfl
  | cons a l ih =>
    cases ha : p a with
    | true => simp [ha, ih (List.pairwise_cons.mp hp).2]
    | false =>
      have hzero : l.countP p = 0 := countP_tail_eq_zero hp ha
      simp [ha, hzero]

/-- Going down the tree finds the first member that is not before a pair. -/
theorem seekWithin_spec {t : RankTree Member} (score : Double) (name : Bytes)
    {sub : RankTree.Tree Member} : ∀ {steps : Nat} {p : Option Nat} (found : Option Nat),
      RankTree.Rep t.content p sub → (sub.items.Pairwise fun a b => a.2.before b.2) →
      sub.height ≤ steps →
      seekWithin t score name steps sub.top? found
        = .ok (((sub.items.find? fun e => !isBefore score name e).map (·.1)).or found) := by
  induction sub with
  | leaf =>
    intro steps p found _ _ _
    cases steps <;> rfl
  | node id m l r ihl ihr =>
    rintro (_ | steps) p found ⟨hid, hl, hr⟩ hsorted hsteps
    · simp [RankTree.Tree.height] at hsteps
    rw [RankTree.Tree.height] at hsteps
    rw [RankTree.Tree.items_node] at hsorted ⊢
    obtain ⟨hsl, hsr, hlr⟩ := List.pairwise_append.mp hsorted
    rw [RankTree.Tree.top?_node, seekWithin, RankTree.node_eq_ok hid, ok_bind]
    have hm : Member.pairBefore m.score m.name score name = isBefore score name (id, m) := rfl
    dsimp only
    rw [hm]
    cases hb : isBefore score name (id, m) with
    | true =>
      -- Everything on the left is before the pair, too.
      have hleft : (l.items.find? fun e => !isBefore score name e) = none := by
        rw [List.find?_eq_none]
        intro e he
        simp [isBefore_of_before (hlr e he (id, m) List.mem_cons_self) hb]
      rw [if_pos rfl, ihr found hr (List.pairwise_cons.mp hsr).2 (by omega), List.find?_append,
        hleft]
      simp [hb]
    | false =>
      rw [if_neg (by simp), ihl (some id) hl hsl (by omega), List.find?_append]
      cases l.items.find? fun e => !isBefore score name e <;> simp [hb]

namespace Holds

variable {s : SortedSet} {items : List (Nat × Member)} (score : Double) (name : Bytes)

/-- The bound on the steps of a walk covers all members. -/
theorem length_le_stepBound (h : s.Holds items) : items.length ≤ s.tree.stepBound := by
  obtain ⟨term, hterm, rfl⟩ := h.tree
  have hsize := hterm.size_le
  rw [RankTree.Tree.length_items]
  unfold RankTree.stepBound
  omega

theorem toList (h : s.Holds items) : s.toList = .ok (items.map (·.2)) := by
  obtain ⟨term, hterm, rfl⟩ := h.tree
  rw [SortedSet.toList, hterm.toList]
  rfl

/-- **Seeking** finds the position behind the members before a pair. -/
theorem seek (h : s.Holds items) :
    s.seek score name = .ok (items[items.countP (isBefore score name)]?.map (·.1)) := by
  have hsorted := h.sorted
  obtain ⟨term, hterm, rfl⟩ := h.tree
  have hheight := term.height_le_size
  have hsize := hterm.size_le
  rw [SortedSet.seek, hterm.root, seekWithin_spec score name none hterm.rep hsorted (by
    unfold RankTree.stepBound
    omega), Option.or_none, find?_not_eq_getElem? (hsorted.imp isBefore_of_before)]

section Positions

variable {n id : Nat} {m : Member}

/-- The members from a position on. -/
theorem drop_members (hn : items[n]? = some (id, m)) :
    (items.map (·.2)).drop n = m :: (items.map (·.2)).drop (n + 1) := by
  obtain ⟨hlt, heq⟩ := List.getElem?_eq_some_iff.mp hn
  rw [List.drop_eq_getElem_cons (by simpa), List.getElem_map, heq]

/-- **The rank** of a member is its position. -/
theorem rank (h : s.Holds items) (hn : items[n]? = some (id, m)) : s.rank id = .ok n := by
  obtain ⟨term, hterm, rfl⟩ := h.tree
  obtain ⟨hsplit, hlen⟩ := RankTree.split_at hn
  rw [SortedSet.rank, hterm.rank hsplit, hlen]

theorem member (h : s.Holds items) (hn : items[n]? = some (id, m)) : s.member id = .ok m :=
  h.get (List.mem_of_getElem? hn)

theorem successor (h : s.Holds items) (hn : items[n]? = some (id, m)) :
    s.successor id = .ok (items[n + 1]?.map (·.1)) := by
  obtain ⟨term, hterm, rfl⟩ := h.tree
  rw [SortedSet.successor, hterm.successor (RankTree.split_at hn).1, List.head?_drop]

theorem offset (h : s.Holds items) (hn : items[n]? = some (id, m)) (k : Int) :
    Answers items.length (s.offset id k) (RankTree.idAt items (n + k)) := by
  obtain ⟨term, hterm, rfl⟩ := h.tree
  obtain ⟨hsplit, hlen⟩ := RankTree.split_at hn
  have := hterm.offset hsplit k
  rwa [hlen, ← RankTree.Tree.length_items] at this

end Positions

/-- Counting the members before a pair. -/
theorem countBefore (h : s.Holds items) :
    s.countBefore score name = .ok (items.countP (isBefore score name)) := by
  rw [SortedSet.countBefore, h.seek score name, ok_bind]
  cases hn : items[items.countP (isBefore score name)]? with
  | some e => exact h.rank hn
  | none =>
    rw [List.getElem?_eq_none_iff] at hn
    show Except.ok s.size = _
    rw [h.size_eq]
    congr 1
    exact Nat.le_antisymm hn List.countP_le_length

/-- **Counting between two pairs** counts the members that are not before the first one but
before the second. -/
theorem countBetween (h : s.Holds items) (low high : Double × Bytes) :
    s.countBetween low high
      = .ok (items.countP fun e => !isBefore low.1 low.2 e && isBefore high.1 high.2 e) := by
  rw [SortedSet.countBetween, h.countBefore, ok_bind, h.countBefore, ok_bind, pure_eq_ok,
    countP_between (h.sorted.imp isBefore_of_before) (h.sorted.imp isBefore_of_before)]

/-- **A range begins** some positions after the first member that is not before a pair, if
there is such a member. -/
theorem rangeStart (h : s.Holds items) (k : Int) :
    Answers items.length (s.rangeStart score name k)
      (if items.countP (isBefore score name) < items.length then
        RankTree.idAt items (items.countP (isBefore score name) + k) else none) := by
  rw [SortedSet.rangeStart, h.seek score name, ok_bind]
  cases hn : items[items.countP (isBefore score name)]? with
  | some e =>
    rw [if_pos (List.getElem?_eq_some_iff.mp hn).1]
    exact h.offset hn k
  | none =>
    rw [List.getElem?_eq_none_iff] at hn
    rw [if_neg (by omega)]
    exact .ok none

/-- **Taking members** from a position on. -/
theorem takeWithin (h : s.Holds items) (limit : Nat) {steps : Nat} (start : Nat)
    (done : List Member) (hsteps : items.length ≤ start + steps) :
    s.takeWithin limit steps (items[start]?.map (·.1)) done
      = .ok (done.reverse ++ ((items.map (·.2)).drop start).take (limit - done.length)) := by
  -- The bound on the steps covers the members from `start` on, so it never ends a range.
  induction steps generalizing start done with
  | zero =>
    rw [List.getElem?_eq_none (by omega), List.drop_of_length_le (by simp; omega)]
    simp [SortedSet.takeWithin]
  | succ steps ih =>
    cases hstart : items[start]? with
    | none =>
      rw [List.getElem?_eq_none_iff] at hstart
      rw [List.drop_of_length_le (by simpa)]
      simp [SortedSet.takeWithin]
    | some entry =>
      obtain ⟨id, m⟩ := entry
      rw [Option.map_some, SortedSet.takeWithin]
      by_cases hlimit : limit ≤ done.length
      · rw [if_pos hlimit, Nat.sub_eq_zero_of_le hlimit]
        simp
      · have hsucc : limit - done.length = limit - (done.length + 1) + 1 := by omega
        rw [if_neg hlimit, h.member hstart, ok_bind, h.successor hstart, ok_bind,
          ih (start + 1) (m :: done) (by omega), drop_members hstart, hsucc, List.take_succ_cons]
        simp

end Holds

end KeyServer.SortedSet
