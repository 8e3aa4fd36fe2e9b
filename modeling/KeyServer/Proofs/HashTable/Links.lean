import KeyServer.HashTable
import Mathlib.Data.List.Nodup

/-!
# Chains of slots

A link **leads** to a chain of slot numbers: the slot it names, the one that slot names as the
next, and so on up to a slot without a next one (`Leads`).  A chain is determined by its link,
ends, and depends on its own slots only (`Leads.congr`).

* **`Leads.skip`**: a slot that takes over the link of the next one leads past it.
-/

namespace KeyServer

variable {α : Type}

namespace Slots

/-- The slot with a number, if it is in use. -/
def at? (slots : Slots α) (i : Nat) : Option (Slot α) := slots[i]?.join

variable {slots slots' : Slots α} {i j : Nat} {s : Slot α}

theorem read_eq_ok_iff : slots.read i = .ok s ↔ slots.at? i = some s := by
  simp only [read, at?]
  split <;> simp_all

theorem lt_size_of_at? (h : slots.at? i = some s) : i < slots.size := by
  simp only [at?, Option.join_eq_some_iff] at h
  exact (Array.getElem?_eq_some_iff.mp h).1

theorem at?_set (hi : i < slots.size) (x : Option (Slot α)) (j : Nat) :
    at? (slots.setIfInBounds i x) j = if i = j then x else slots.at? j := by
  rw [at?, Array.getElem?_setIfInBounds]
  by_cases hj : i = j
  · subst hj
    simp [hi]
  · rw [if_neg hj, if_neg hj, at?]

theorem at?_set_self (hi : i < slots.size) (x : Option (Slot α)) :
    at? (slots.setIfInBounds i x) i = x := by
  rw [at?_set hi, if_pos rfl]

theorem at?_set_ne (h : j ≠ i) (x : Option (Slot α)) :
    at? (slots.setIfInBounds i x) j = slots.at? j := by
  rw [at?, Array.getElem?_setIfInBounds_ne (Ne.symm h), at?]

/-- Two arrays have the same hash code and the same link in a slot. -/
def SameLink (slots slots' : Slots α) (i : Nat) : Prop :=
  (slots'.at? i).map (fun s => (s.hash, s.next)) = (slots.at? i).map fun s => (s.hash, s.next)

theorem sameLink_of_eq (h : slots'.at? i = slots.at? i) : slots.SameLink slots' i := by
  rw [SameLink, h]

theorem SameLink.exists_slot (h : slots.SameLink slots' i) (hi : slots.at? i = some s) :
    ∃ s', slots'.at? i = some s' ∧ s'.hash = s.hash ∧ s'.next = s.next := by
  rw [SameLink, hi, Option.map_some, Option.map_eq_some_iff] at h
  obtain ⟨s', hs', heq⟩ := h
  exact ⟨s', hs', congrArg (·.1) heq, congrArg (·.2) heq⟩

/-- From the first array to the second, only slots in `changed` may have got another link, and no
slot another item. -/
structure Relinked (slots slots' : Slots α) (changed : List Nat) : Prop where
  size : slots'.size = slots.size
  hashed : ∀ i, (slots'.at? i).map (·.toHashed) = (slots.at? i).map (·.toHashed)
  others : ∀ i ∉ changed, slots'.at? i = slots.at? i

namespace Relinked

variable {changed : List Nat}

theorem refl (slots : Slots α) (changed : List Nat) : slots.Relinked slots changed :=
  ⟨rfl, fun _ => rfl, fun _ _ => rfl⟩

theorem set (hi : slots.at? i = some s) (hmem : i ∈ changed) (next : Option Nat) :
    slots.Relinked (slots.setIfInBounds i (some { s with next })) changed where
  size := Array.size_setIfInBounds
  hashed j := by
    rw [at?_set (lt_size_of_at? hi)]
    split
    · next hij =>
      subst hij
      rw [hi]
      rfl
    · rfl
  others j hj := by
    apply at?_set_ne
    rintro rfl
    exact hj hmem

end Relinked

end Slots

/-! ## Chains -/

/-- A link leads to the slots of a chain, one after the other, and no further. -/
inductive Leads (slots : Slots α) : Option Nat → List Nat → Prop where
  | nil : Leads slots none []
  | cons {i : Nat} {s : Slot α} {chain : List Nat} (hi : slots.at? i = some s)
      (hnext : Leads slots s.next chain) : Leads slots (some i) (i :: chain)

namespace Leads

variable {slots slots' : Slots α} {link : Option Nat} {chain front back : List Nat} {i : Nat}

theorem unique {chain' : List Nat} (h : Leads slots link chain) (h' : Leads slots link chain') :
    chain = chain' := by
  induction h generalizing chain' with
  | nil =>
    cases h'
    rfl
  | cons hi _ ih =>
    cases h' with
    | cons hi' hnext' =>
      cases hi.symm.trans hi'
      rw [ih hnext']

theorem eq_head? (h : Leads slots link chain) : link = chain.head? := by
  cases h <;> rfl

theorem nil_iff : Leads slots link [] ↔ link = none := by
  constructor
  · exact fun h => h.eq_head?
  · rintro rfl
    exact .nil

theorem cons_inv (h : Leads slots link (i :: chain)) :
    link = some i ∧ ∃ s, slots.at? i = some s ∧ Leads slots s.next chain := by
  cases h with
  | cons hi hnext => exact ⟨rfl, _, hi, hnext⟩

/-- Only the links of its own slots matter to a chain. -/
theorem congr (h : Leads slots link chain) (hsame : ∀ i ∈ chain, slots.SameLink slots' i) :
    Leads slots' link chain := by
  induction h with
  | nil => exact .nil
  | cons hi _ ih =>
    obtain ⟨s', hs', -, hnext⟩ := (hsame _ List.mem_cons_self).exists_slot hi
    refine .cons hs' ?_
    rw [hnext]
    exact ih fun j hj => hsame j (List.mem_cons_of_mem _ hj)

/-- **Skipping a slot**: the slot before it takes over its link. -/
theorem skip {b : Nat} {s previous : Slot α} (h : Leads slots link (front ++ b :: i :: back))
    (hnodup : (front ++ b :: i :: back).Nodup) (hb : slots.at? b = some previous)
    (hi : slots.at? i = some s) :
    Leads (slots.setIfInBounds b (some { previous with next := s.next })) link
      (front ++ b :: back) := by
  induction front generalizing link with
  | nil =>
    obtain ⟨rfl, s', hb', hnext⟩ := h.cons_inv
    obtain ⟨-, s'', hi', hback⟩ := hnext.cons_inv
    cases hi.symm.trans hi'
    obtain ⟨hbmem, -⟩ := List.nodup_cons.mp hnodup
    refine .cons (Slots.at?_set_self (Slots.lt_size_of_at? hb) _) (hback.congr fun j hj => ?_)
    apply Slots.sameLink_of_eq
    apply Slots.at?_set_ne
    rintro rfl
    exact hbmem (List.mem_cons_of_mem i hj)
  | cons j front ih =>
    obtain ⟨rfl, s', hj, hnext⟩ := h.cons_inv
    obtain ⟨hjmem, hrest⟩ := List.nodup_cons.mp hnodup
    refine .cons ?_ (ih hnext hrest)
    rw [Slots.at?_set_ne, hj]
    rintro rfl
    exact hjmem (by simp)

end Leads

end KeyServer
