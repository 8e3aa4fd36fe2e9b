import KeyServer.IdleList
import Mathlib.Data.List.Nodup
import Mathlib.Data.List.Perm.Subperm

/-! # What an idle list holds

`l.Holds keys` reads an idle list as a list of numbers without duplicates: the slot of every
number in it leads to its neighbours on both sides, and no other slot leads anywhere.  Where the
slots lie plays no part.  The operations then are operations on lists:

* **`Holds.remove`** takes a number out and leaves the order of the others;
* **`Holds.pushBack`** moves a number to the end, or adds it there;
* **`Holds.toList`**: following the links from the first number on gives the list.
-/

namespace KeyServer.IdleList

/-! ## Slots -/

/-- The slot of a number; without one it is like a number that is not in the list. -/
def linkAt (links : Array Link) (key : Nat) : Link := links[key]?.getD Link.unlinked

variable {links : Array Link} {key : Nat}

/-- Numbers in the list have slots. -/
theorem lt_size_of_linked (h : (linkAt links key).linked = true) : key < links.size := by
  by_contra hsize
  rw [linkAt, Array.getElem?_eq_none (Nat.le_of_not_lt hsize)] at h
  cases h

theorem getElem?_of_linked (h : (linkAt links key).linked = true) :
    links[key]? = some (linkAt links key) := by
  have hsize := lt_size_of_linked h
  rw [linkAt, Array.getElem?_eq_getElem hsize, Option.getD_some]

theorem linkAt_set (hkey : key < links.size) (link : Link) (k : Nat) :
    linkAt (links.setIfInBounds key link) k = if key = k then link else linkAt links k := by
  rw [linkAt, Array.getElem?_setIfInBounds]
  by_cases hk : key = k
  · subst hk
    simp [hkey]
  · rw [if_neg hk, if_neg hk, linkAt]

theorem linkAt_slotsFor (k : Nat) : linkAt (slotsFor links key) k = linkAt links k := by
  rw [linkAt, linkAt, slotsFor]
  by_cases hk : k < links.size
  · rw [Array.getElem?_append_left hk]
  · rw [Array.getElem?_append_right (Nat.le_of_not_lt hk),
      Array.getElem?_eq_none (Nat.le_of_not_lt hk), Array.getElem?_replicate]
    split <;> rfl

/-- Changes the slot of a neighbour, if there is one. -/
def patch (links : Array Link) (neighbour : Option Nat) (f : Link → Link) : Array Link :=
  match neighbour with
  | some n => links.modify n f
  | none => links

@[simp] theorem size_patch (neighbour : Option Nat) (f : Link → Link) :
    (patch links neighbour f).size = links.size := by
  cases neighbour with
  | none => rfl
  | some n => exact Array.size_modify

theorem linkAt_patch {neighbour : Option Nat} (f : Link → Link)
    (h : ∀ n, neighbour = some n → (linkAt links n).linked = true) (k : Nat) :
    linkAt (patch links neighbour f) k
      = if neighbour = some k then f (linkAt links k) else linkAt links k := by
  cases neighbour with
  | none => rw [if_neg (by simp), patch]
  | some n =>
    rw [patch, linkAt, Array.getElem?_modify]
    by_cases hn : n = k
    · subst hn
      rw [if_pos rfl, if_pos rfl, getElem?_of_linked (h n rfl), Option.map_some, Option.getD_some]
    · rw [if_neg hn, if_neg (by simpa using hn), linkAt]

/-! ## Lists -/

/-- The list consists of `keys`, in this order. -/
structure Holds (l : IdleList) (keys : List Nat) : Prop where
  nodup : keys.Nodup
  /-- The slot of a number leads to the ones before and after it. -/
  linked : ∀ front key back, keys = front ++ key :: back →
    linkAt l.links key = ⟨front.getLast?, back.head?, true⟩
  unlinked : ∀ key, key ∉ keys → linkAt l.links key = .unlinked
  first : l.first = keys.head?
  last : l.last = keys.getLast?
  size : l.size = keys.length

theorem holds_empty : empty.Holds [] where
  nodup := .nil
  linked := by simp
  unlinked := fun _ _ => rfl
  first := rfl
  last := rfl
  size := rfl

namespace Holds

variable {l : IdleList} {keys front back : List Nat}

theorem linked_iff (h : l.Holds keys) : (linkAt l.links key).linked = true ↔ key ∈ keys := by
  constructor
  · intro hlinked
    by_contra hkey
    rw [h.unlinked key hkey] at hlinked
    cases hlinked
  · intro hkey
    obtain ⟨front, back, hkeys⟩ := List.append_of_mem hkey
    rw [h.linked front key back hkeys]

theorem contains_iff (h : l.Holds keys) : l.contains key = true ↔ key ∈ keys := by
  rw [← h.linked_iff, contains, linkAt]
  cases l.links[key]? <;> simp [Link.unlinked]

/-! ### Taking out -/

/-- The neighbours of a number that goes become neighbours of each other. -/
theorem unlink_eq (h : l.Holds (front ++ key :: back)) :
    l.unlink key =
      { links := (patch (patch l.links front.getLast? fun link => { link with after := back.head? })
          back.head? fun link => { link with before := front.getLast? }).setIfInBounds key .unlinked
        first := if front.getLast?.isSome then l.first else back.head?
        last := if back.head?.isSome then l.last else front.getLast?
        size := l.size - 1 } := by
  have hlink := h.linked front key back rfl
  have hslot : l.links[key]? = some (linkAt l.links key) := getElem?_of_linked (by rw [hlink])
  rw [hlink] at hslot
  rw [IdleList.unlink, hslot]
  rfl

/-- What `unlink` makes of the slots. -/
theorem linkAt_unlink (h : l.Holds (front ++ key :: back)) (k : Nat) :
    linkAt (l.unlink key).links k =
      if key = k then .unlinked
      else if back.head? = some k then { linkAt l.links k with before := front.getLast? }
      else if front.getLast? = some k then { linkAt l.links k with after := back.head? }
      else linkAt l.links k := by
  have hlinked : (linkAt l.links key).linked = true := by rw [h.linked front key back rfl]
  have hbefore : ∀ n, front.getLast? = some n → (linkAt l.links n).linked = true := by
    intro n hn
    exact h.linked_iff.mpr (List.mem_append_left _ (List.mem_of_getLast? hn))
  have hafter : ∀ n, back.head? = some n → (linkAt l.links n).linked = true := by
    intro n hn
    exact h.linked_iff.mpr (List.mem_append_right _ (List.mem_cons_of_mem _ (List.mem_of_head? hn)))
  have hfirst := linkAt_patch (fun link => { link with after := back.head? }) hbefore
  rw [h.unlink_eq, linkAt_set (by simpa using lt_size_of_linked hlinked), linkAt_patch, hfirst]
  · split
    · rfl
    · split
      · next hk =>
        -- A number cannot stand on both sides.
        rw [if_neg fun hk' => ?_]
        have hnodup := h.nodup
        rw [List.nodup_middle, List.nodup_cons, List.nodup_append] at hnodup
        exact hnodup.2.2.2 k (List.mem_of_getLast? hk') k (List.mem_of_head? hk) rfl
      · rfl
  · intro n hn
    rw [hfirst]
    split
    · exact hafter n hn
    · exact hafter n hn

/-- **Taking a number out** ties its neighbours together. -/
theorem unlink (h : l.Holds (front ++ key :: back)) : (l.unlink key).Holds (front ++ back) := by
  have hlinks := h.linkAt_unlink
  obtain ⟨hkey, hnodup⟩ := List.nodup_cons.mp (List.nodup_middle.mp h.nodup)
  have hdisjoint := (List.nodup_append.mp hnodup).2.2
  refine ⟨hnodup, fun front' k back' hsplit => ?_, fun k hk => ?_, ?_, ?_, ?_⟩
  · have hne : key ≠ k := by
      rintro rfl
      exact hkey (hsplit ▸ List.mem_append_right _ List.mem_cons_self)
    rw [hlinks, if_neg hne]
    rcases List.append_eq_append_iff.mp hsplit with ⟨more, rfl, rfl⟩ | ⟨more, rfl, hback⟩
    · -- The number stood behind the one that goes.
      have hk : k ∈ more ++ k :: back' := List.mem_append_right _ List.mem_cons_self
      rw [h.linked (front ++ key :: more) k back' (by simp)]
      cases more with
      | nil => simp
      | cons m more =>
        have hm : ¬m = k := by
          rintro rfl
          have := (List.nodup_append.mp hnodup).2.1
          simp at this
        rw [if_neg (by simpa using hm), if_neg fun hlast =>
          hdisjoint k (List.mem_of_getLast? hlast) k hk rfl]
        simp [List.getLast?_append, List.getLast?_cons_cons]
    · cases more with
      | nil =>
        -- The number stood right behind the one that goes.
        rw [List.nil_append] at hback
        subst hback
        rw [h.linked (front' ++ [] ++ [key]) k back' (by simp)]
        simp
      | cons m more =>
        rw [List.cons_append, List.cons.injEq] at hback
        obtain ⟨rfl, rfl⟩ := hback
        rw [h.linked front' k (more ++ key :: back) (by simp)]
        have hk : k ∈ front' ++ k :: more := List.mem_append_right _ List.mem_cons_self
        rw [if_neg fun hfirst => hdisjoint k hk k (List.mem_of_head? hfirst) rfl]
        cases more with
        | nil => simp
        | cons m more =>
          have hlast : (front' ++ k :: m :: more).getLast? ≠ some k := by
            intro hlast
            have hmem : k ∈ m :: more := List.mem_of_getLast? (by simpa using hlast)
            have := (List.nodup_append.mp (List.nodup_append.mp hnodup).1).2.1
            exact (List.nodup_cons.mp this).1 hmem
          rw [if_neg hlast]
          simp
  · rw [hlinks]
    split
    · rfl
    · next hne =>
      rw [if_neg fun hk' => hk (List.mem_append_right _ (List.mem_of_head? hk')),
        if_neg fun hk' => hk (List.mem_append_left _ (List.mem_of_getLast? hk'))]
      exact h.unlinked k (by simp_all [eq_comm])
  · rw [h.unlink_eq, h.first]
    cases front <;> simp
  · rw [h.unlink_eq, h.last]
    cases back <;> simp
  · rw [h.unlink_eq, h.size]
    simp

theorem filter_middle {front back : List Nat} (hnodup : (front ++ key :: back).Nodup) :
    (front ++ key :: back).filter (· ≠ key) = front ++ back := by
  have hkey := (List.nodup_cons.mp (List.nodup_middle.mp hnodup)).1
  rw [List.mem_append, not_or] at hkey
  rw [List.filter_append, List.filter_cons_of_neg (by simp), List.filter_eq_self.mpr,
    List.filter_eq_self.mpr]
  · intro k hk
    simpa using fun heq : k = key => hkey.2 (heq ▸ hk)
  · intro k hk
    simpa using fun heq : k = key => hkey.1 (heq ▸ hk)

/-- **Removing** a number leaves the order of the others. -/
theorem remove (h : l.Holds keys) (key : Nat) :
    (l.remove key).1 = decide (key ∈ keys) ∧ (l.remove key).2.Holds (keys.filter (· ≠ key)) := by
  rw [IdleList.remove]
  by_cases hkey : key ∈ keys
  · rw [if_pos (h.contains_iff.mpr hkey)]
    obtain ⟨front, back, rfl⟩ := List.append_of_mem hkey
    refine ⟨(decide_eq_true hkey).symm, ?_⟩
    rw [filter_middle h.nodup]
    exact h.unlink
  · rw [if_neg (fun hcontains => hkey (h.contains_iff.mp hcontains))]
    refine ⟨(decide_eq_false hkey).symm, ?_⟩
    rwa [List.filter_eq_self.mpr]
    intro k hk
    simpa using fun heq : k = key => hkey (heq ▸ hk)

/-! ### Adding -/

/-- A new number goes behind the last one. -/
theorem pushBack_eq (h : l.Holds keys) (hkey : key ∉ keys) :
    l.pushBack key =
      { links := patch ((slotsFor l.links key).setIfInBounds key ⟨keys.getLast?, none, true⟩)
          keys.getLast? fun link => { link with after := some key }
        first := keys.head?.or (some key)
        last := some key
        size := keys.length + 1 } := by
  have hcontains : l.contains key = false := by
    rw [Bool.eq_false_iff]
    exact fun hcontains => hkey (h.contains_iff.mp hcontains)
  rw [IdleList.pushBack, hcontains, ← h.first, ← h.last, ← h.size]
  rfl

/-- What `pushBack` makes of the slots. -/
theorem linkAt_pushBack (h : l.Holds keys) (hkey : key ∉ keys) (k : Nat) :
    linkAt (l.pushBack key).links k =
      if key = k then ⟨keys.getLast?, none, true⟩
      else if keys.getLast? = some k then { linkAt l.links k with after := some key }
      else linkAt l.links k := by
  have hslot : ∀ k,
      linkAt ((slotsFor l.links key).setIfInBounds key ⟨keys.getLast?, none, true⟩) k
        = if key = k then ⟨keys.getLast?, none, true⟩ else linkAt l.links k := by
    intro k
    rw [linkAt_set, linkAt_slotsFor]
    rw [slotsFor, Array.size_append, Array.size_replicate]
    omega
  rw [h.pushBack_eq hkey, linkAt_patch, hslot]
  · by_cases hk : key = k
    · subst hk
      rw [if_neg fun hlast => hkey (List.mem_of_getLast? hlast), if_pos rfl, if_pos rfl]
    · rw [if_neg hk, if_neg hk]
  · intro n hn
    rw [hslot]
    split
    · rfl
    · exact h.linked_iff.mpr (List.mem_of_getLast? hn)

/-- **Adding** a new number puts it at the end. -/
theorem add (h : l.Holds keys) (hkey : key ∉ keys) : (l.pushBack key).Holds (keys ++ [key]) := by
  have hlinks := h.linkAt_pushBack hkey
  refine ⟨?_, fun front k back hsplit => ?_, fun k hk => ?_, ?_, ?_, ?_⟩
  · rw [List.nodup_append]
    exact ⟨h.nodup, List.nodup_singleton key, by rintro k hk _ hk' rfl; simp_all⟩
  · rw [hlinks]
    rcases List.eq_nil_or_concat back with rfl | ⟨back, last, rfl⟩
    · obtain ⟨rfl, hk⟩ := List.append_inj' hsplit rfl
      rw [List.singleton_inj.mp hk, if_pos rfl]
      rfl
    · rw [List.concat_eq_append, ← List.cons_append, ← List.append_assoc] at hsplit
      obtain ⟨rfl, hlast⟩ := List.append_inj' hsplit rfl
      obtain rfl := List.singleton_inj.mp hlast
      have hne : key ≠ k := by
        rintro rfl
        exact hkey (List.mem_append_right _ List.mem_cons_self)
      rw [if_neg hne, h.linked front k back rfl]
      cases back with
      | nil => simp
      | cons b back =>
        have hlast : (front ++ k :: b :: back).getLast? ≠ some k := by
          intro hlast
          have hmem : k ∈ b :: back := List.mem_of_getLast? (by simpa using hlast)
          exact (List.nodup_cons.mp (List.nodup_append.mp h.nodup).2.1).1 hmem
        rw [if_neg hlast]
        simp
  · rw [List.mem_append, List.mem_singleton, not_or] at hk
    rw [hlinks, if_neg (Ne.symm hk.2), if_neg fun hlast => hk.1 (List.mem_of_getLast? hlast)]
    exact h.unlinked k hk.1
  · rw [h.pushBack_eq hkey]
    cases keys <;> simp
  · rw [h.pushBack_eq hkey]
    simp
  · rw [h.pushBack_eq hkey]
    simp

/-- **Moving to the end** a number that may be in the list. -/
theorem pushBack (h : l.Holds keys) (key : Nat) :
    (l.pushBack key).Holds (keys.filter (· ≠ key) ++ [key]) := by
  have hgone : key ∉ keys.filter (· ≠ key) := by simp
  by_cases hkey : l.contains key = true
  · have hmoved : l.pushBack key = (l.unlink key).pushBack key := by
      obtain ⟨front, back, rfl⟩ := List.append_of_mem (h.contains_iff.mp hkey)
      have hunlinked : (l.unlink key).contains key = false := by
        rw [Bool.eq_false_iff]
        intro hcontains
        exact (List.nodup_cons.mp (List.nodup_middle.mp h.nodup)).1
          (h.unlink.contains_iff.mp hcontains)
      simp only [IdleList.pushBack, hkey, hunlinked, if_true, Bool.false_eq_true, if_false]
    have hremove := (h.remove key).2
    rw [IdleList.remove, if_pos hkey] at hremove
    rw [hmoved]
    exact hremove.add hgone
  · have hkeys : keys.filter (· ≠ key) = keys := by
      rw [List.filter_eq_self]
      intro k hk
      simpa using fun heq : k = key => hkey (h.contains_iff.mpr (heq ▸ hk))
    rw [hkeys] at hgone ⊢
    exact h.add hgone

/-! ### Reading -/

theorem listWithin (h : l.Holds keys) : ∀ {back : List Nat} (front : List Nat) {steps : Nat},
    keys = front ++ back → back.length ≤ steps → l.listWithin steps back.head? = back
  | [], _, steps, _, _ => by cases steps <;> rfl
  | key :: back, front, 0, _, hsteps => by simp at hsteps
  | key :: back, front, steps + 1, hkeys, hsteps => by
    have hlink := h.linked front key back hkeys
    have hslot : l.links[key]? = some (linkAt l.links key) := getElem?_of_linked (by rw [hlink])
    rw [List.head?_cons, IdleList.listWithin, hslot, Option.bind_some, hlink,
      listWithin h (front ++ [key]) (by simpa using hkeys)
        (Nat.le_of_succ_le_succ hsteps)]

/-- **Following the links** from the first number on. -/
theorem toList (h : l.Holds keys) : l.toList = keys := by
  have hsub : keys ⊆ List.range l.links.size := by
    intro key hkey
    exact List.mem_range.mpr (lt_size_of_linked (h.linked_iff.mpr hkey))
  have hlength := (h.nodup.subperm hsub).length_le
  rw [List.length_range] at hlength
  rw [IdleList.toList, h.first]
  exact h.listWithin [] rfl hlength

end Holds

end KeyServer.IdleList
