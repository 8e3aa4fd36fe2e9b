import KeyServer.Proofs.HashTable.Steps

/-!
# What the operations of a hash table do to its content

Each theorem takes a table between two operations and says that the operation succeeds,
what it answers, and which content the table has afterwards:

* `Valid.lookup` finds a slot with the hash code and the property, if there is one;
* `Valid.insert` fills a slot that was not in use and leaves the others alone, all of it before
  it helps along (`Valid.place`);
* `Valid.delete` and `Valid.remove` free one slot and leave the others alone;
* `Valid.modify` changes one item.

A table can be visited along its chains (`Linked.forEach`) or by slot number (`items_eq`).
-/

namespace KeyServer.HashTable

variable {α : Type} {t : HashTable α} {a r : List (List Nat)} {i : Nat}

namespace Valid

theorem help (ht : t.Valid) :
    ∃ t', t.help = .ok t' ∧ t'.Valid ∧ t'.content = t.content ∧ t'.slots.size = t.slots.size := by
  obtain ⟨a, r, hlinked⟩ := ht.linked
  obtain ⟨t', h, ht', hcontent, hslots, -⟩ := hlinked.help
  exact ⟨t', h, ht', hcontent, hslots⟩

/-- **Looking up** finds a slot with the hash code and the property, if there is one, and
changes no content; no fault of the test is met, if there is none on the items with the hash
code. -/
theorem lookupBy (ht : t.Valid) {hash : UInt32} {test : α → Except Fault Bool} {p : α → Bool}
    (hp : t.Decides hash (fun _ => test) fun _ => p) :
    ∃ found t', t.lookupBy hash test = .ok (found, t') ∧ t'.Valid ∧ t'.content = t.content ∧
      (∀ i, found = some i → ∃ s, t.content i = some s ∧ s.hash = hash ∧ p s.item = true) ∧
      (found = none → ∀ i s, t.content i = some s → s.hash = hash → p s.item = false) := by
  obtain ⟨t', hhelp, ht', hcontent, -⟩ := ht.help
  obtain ⟨a, r, hlinked⟩ := ht'.linked
  have hp' : t'.Decides hash (fun _ => test) fun _ => p := fun i s hs hhash =>
    hp i s (hcontent ▸ hs) hhash
  obtain ⟨found, hfind, hsome, hnone⟩ := hlinked.find hp'
  have hlookup : t.lookupBy hash test = .ok (found.map (·.2.2), t') := by
    simp only [HashTable.lookupBy, hhelp, hfind, ok_bind]
    rfl
  refine ⟨_, t', hlookup, ht', hcontent, ?_, ?_⟩
  · intro i hi
    obtain ⟨⟨inActive, before, j⟩, rfl, rfl⟩ := Option.map_eq_some_iff.mp hi
    rw [← hcontent]
    exact matchesAt_iff.mp (hsome inActive before j rfl).1
  · intro hfound i s hs hhash
    rw [Option.map_eq_none_iff] at hfound
    exact item_eq_false (hnone hfound i) (hcontent ▸ hs) hhash

theorem lookup (ht : t.Valid) (hash : UInt32) (p : α → Bool) :
    ∃ found t', t.lookup hash p = .ok (found, t') ∧ t'.Valid ∧ t'.content = t.content ∧
      (∀ i, found = some i → ∃ s, t.content i = some s ∧ s.hash = hash ∧ p s.item = true) ∧
      (found = none → ∀ i s, t.content i = some s → s.hash = hash → p s.item = false) :=
  ht.lookupBy (t.decides_ok hash fun _ => p)

/-- **Placing** an item fills a slot that was not in use.  If that is a new one, all of them are
in use now. -/
theorem place (ht : t.Valid) {hash : UInt32} {item : α} {t₁ : HashTable α}
    (h : t.withBuckets.allocate hash item = (i, t₁)) :
    ∃ t' a' r', t₁.place i = .ok t' ∧ t'.Linked [] a' r' ∧ t.content i = none ∧
      t'.content = Function.update t.content i (some ⟨hash, item⟩) ∧
      (t'.slots.size ≤ t.slots.size ∨ t'.slots.size = t.slots.size + 1 ∧ t'.free = []) := by
  obtain ⟨a, r, hlinked⟩ := ht.linked
  obtain ⟨a₀, ht₀, halloc, hslots₀, hfree₀⟩ := hlinked.withBuckets
  obtain ⟨hnone, hcontent₁, ht₁, hactive, -, hsize⟩ := ht₀.allocate hash item h
  obtain ⟨slots, active, a₂, hlink, ht₂, hrelinked⟩ := ht₁.link (hactive ▸ halloc)
  have halloc' : active.isAllocated = true :=
    (Generation.isAllocated_congr (Generation.sizes_of_link hlink).1).trans (hactive ▸ halloc)
  obtain ⟨⟨a', r', ht'⟩, hslots, hfree⟩ := ht₂.retireFull halloc'
  rw [content_congr hslots₀] at hnone hcontent₁
  refine ⟨_, a', r', by simp [HashTable.place, hlink], ht', hnone, ?_, ?_⟩
  · rw [content_congr hslots]
    exact (content_relinked hrelinked).trans hcontent₁
  · rw [hslots, hfree]
    show slots.size ≤ _ ∨ slots.size = _ ∧ t₁.free = []
    rw [hrelinked.size, ← hslots₀]
    rcases hsize with ⟨-, hsame⟩ | ⟨-, hgrown, -, hnil⟩
    · exact .inl (Nat.le_of_eq hsame)
    · exact .inr ⟨hgrown, hnil⟩

/-- **Inserting** fills a slot that was not in use.  If that is a new one, all of them are in use
now. -/
theorem insert (ht : t.Valid) (hash : UInt32) (item : α) :
    ∃ i t', t.insert hash item = .ok (i, t') ∧ t'.Valid ∧ t.content i = none ∧
      t'.content = Function.update t.content i (some ⟨hash, item⟩) ∧
      (t'.slots.size ≤ t.slots.size ∨
        t'.slots.size = t.slots.size + 1 ∧ t'.slots.size = t'.size) := by
  obtain ⟨i, t₁, hallocate⟩ : ∃ i t₁, t.withBuckets.allocate hash item = (i, t₁) := ⟨_, _, rfl⟩
  obtain ⟨t₂, a₂, r₂, hplace, ht₂, hnone, hcontent₂, hsize₂⟩ := ht.place hallocate
  obtain ⟨t', hhelp, ht', hcontent, hsize, hfree⟩ := ht₂.help
  refine ⟨i, t', by simp [HashTable.insert, hallocate, hplace, hhelp], ht', hnone,
    hcontent.trans hcontent₂, ?_⟩
  rw [hsize]
  rcases hsize₂ with hle | ⟨hgrown, hnil⟩
  · exact .inl hle
  · obtain ⟨a', r', hlinked⟩ := ht'.linked
    have hcount := hlinked.slots_size_eq
    rw [hfree, hnil, hsize] at hcount
    exact .inr ⟨hgrown, by simpa using hcount⟩

/-- **Deleting** takes one item with the hash code and the property out, if there is one. -/
theorem delete (ht : t.Valid) (hash : UInt32) (p : α → Bool) :
    ∃ found t', t.delete hash p = .ok (found, t') ∧ t'.Valid ∧
      (∀ item, found = some item → ∃ i s, t.content i = some s ∧ s.hash = hash ∧
        p s.item = true ∧ s.item = item ∧ t'.content = Function.update t.content i none) ∧
      (found = none → t'.content = t.content ∧
        ∀ i s, t.content i = some s → s.hash = hash → p s.item = false) := by
  obtain ⟨t₁, hhelp, ht₁, hcontent, -⟩ := ht.help
  obtain ⟨a, r, hlinked⟩ := ht₁.linked
  obtain ⟨found, hfind, hsome, hnone⟩ := hlinked.find (t₁.decides_ok hash fun _ => p)
  cases found with
  | none =>
    refine ⟨none, t₁, by simp [HashTable.delete, hhelp, hfind], ht₁, by simp, fun _ => ?_⟩
    refine ⟨hcontent, fun i s hs hhash => ?_⟩
    exact item_eq_false (hnone rfl i) (hcontent ▸ hs) hhash
  | some found =>
    obtain ⟨inActive, before, i⟩ := found
    obtain ⟨hmatch, b, front, back, hb, rfl⟩ := hsome inActive before i rfl
    obtain ⟨s, hs, hhash, hp⟩ := matchesAt_iff.mp hmatch
    obtain ⟨t', hunlink, ht', hcontent'⟩ := hlinked.unlinkAndRelease hb hs
    refine ⟨some s.item, t', by simp [HashTable.delete, hhelp, hfind, hunlink], ht', ?_, by simp⟩
    rintro _ ⟨⟩
    exact ⟨i, s, hcontent ▸ hs, hhash, hp, rfl, hcontent ▸ hcontent'⟩

/-- **Removing** by handle takes the item out that the handle refers to, if any. -/
theorem remove (ht : t.Valid) (i : Nat) :
    ∃ t', t.remove i = .ok (t.get? i, t') ∧ t'.Valid ∧
      t'.content = Function.update t.content i none := by
  obtain ⟨t₁, hhelp, ht₁, hcontent, -⟩ := ht.help
  obtain ⟨a, r, hlinked⟩ := ht₁.linked
  rw [get?_eq, ← hcontent]
  unfold HashTable.remove
  rw [hhelp, ok_bind]
  cases hs : t₁.slots.at? i with
  | none =>
    have hslot : t₁.slots[i]?.join = none := hs
    have hnone : t₁.content i = none := by rw [content, hs, Option.map_none]
    refine ⟨t₁, by rw [hslot, hnone]; rfl, ht₁, ?_⟩
    rw [← hnone, Function.update_eq_self]
  | some s =>
    have hslot : t₁.slots[i]?.join = some s := hs
    have hsome := content_of_at? hs
    -- The slot is looked for by its own handle, so the search cannot miss it.
    obtain ⟨found, hfind, hfound, hmissed⟩ :=
      hlinked.find (t₁.decides_ok s.hash fun index _ => index == i)
    have hmatch : t₁.matchesAt s.hash (fun index _ => index == i) i = true :=
      matchesAt_iff.mpr ⟨_, hsome, rfl, by simp⟩
    rw [hslot]
    simp only [hfind, ok_bind]
    cases found with
    | none => simp [hmissed rfl i] at hmatch
    | some found =>
      obtain ⟨inActive, before, j⟩ := found
      obtain ⟨hmatch', b, front, back, hb, rfl⟩ := hfound inActive before j rfl
      obtain ⟨s', _, _, heq⟩ := matchesAt_iff.mp hmatch'
      have hji : j = i := by simpa using heq
      subst hji
      obtain ⟨t', hunlink, ht', hcontent'⟩ := hlinked.unlinkAndRelease hb hsome
      exact ⟨t', by simp [hunlink, hsome], ht', hcontent'⟩

end Valid

theorem at?_modify (t : HashTable α) (i : Nat) (f : α → α) (j : Nat) :
    (t.modify i f).slots.at? j =
      if j = i then (t.slots.at? i).map fun s => { s with item := f s.item }
      else t.slots.at? j := by
  simp only [Slots.at?, HashTable.modify, Array.getElem?_modify]
  by_cases hj : i = j
  · subst hj
    rw [if_pos rfl, if_pos rfl]
    cases t.slots[i]? <;> rfl
  · rw [if_neg hj, if_neg (Ne.symm hj)]

/-- **Changing** the item behind a handle keeps its hash code. -/
theorem Valid.modify (ht : t.Valid) (i : Nat) (f : α → α) :
    (t.modify i f).Valid ∧
      (t.modify i f).content =
        Function.update t.content i
          ((t.content i).map fun s => { s with item := f s.item }) := by
  obtain ⟨⟨a, r, hlinked⟩, hsettled⟩ := ht
  have hcontent : (t.modify i f).content =
      Function.update t.content i ((t.content i).map fun s => { s with item := f s.item }) := by
    funext j
    rw [content, at?_modify, Function.update_apply]
    split
    · rw [content, Option.map_map, Option.map_map]
      rfl
    · rw [content]
  have hsame : ∀ j, t.slots.SameLink (t.modify i f).slots j := by
    intro j
    rw [Slots.SameLink, at?_modify]
    split
    · next hj =>
      rw [hj, Option.map_map]
      rfl
    · rfl
  have hlive : ∀ j, ((t.modify i f).content j).isSome = (t.content j).isSome := fun j => by
    rw [hcontent]
    by_cases hj : j = i
    · subst hj
      simp
    · rw [Function.update_of_ne hj]
  refine ⟨⟨⟨a, r, {
    active := hlinked.active.congr fun j _ => hsame j
    retiring := hlinked.retiring.congr fun j _ => hsame j
    nodup := hlinked.nodup
    mem_chains := fun j => (hlinked.mem_chains j).trans (by rw [hlive])
    free_nodup := hlinked.free_nodup
    mem_free := fun j => (hlinked.mem_free j).trans ?_
    swept := hlinked.swept
    ready := hlinked.ready }⟩, hsettled⟩, hcontent⟩
  rw [← Option.not_isSome_iff_eq_none, ← Option.not_isSome_iff_eq_none, hlive]
  simp [HashTable.modify]

/-! ## Visiting -/

section Visiting

variable {σ : Type}

/-- Visits some items in turn until a visit says to stop; the last part tells whether none
did. -/
def visitAll (visit : σ → α → σ × Bool) : List α → σ → σ × Bool
  | [], s => (s, true)
  | item :: items, s =>
    match visit s item with
    | (s, false) => (s, false)
    | (s, true) => visitAll visit items s

theorem visitAll_append (visit : σ → α → σ × Bool) (xs ys : List α) (s : σ) :
    visitAll visit (xs ++ ys) s =
      match visitAll visit xs s with
      | (s, false) => (s, false)
      | (s, true) => visitAll visit ys s := by
  induction xs generalizing s with
  | nil => rfl
  | cons x xs ih =>
    rw [List.cons_append, visitAll, visitAll]
    rcases visit s x with ⟨s, _ | _⟩
    · rfl
    · exact ih s

/-- A visitor that never stops collects everything. -/
theorem visitAll_collect (xs items : List α) :
    visitAll (fun items item => (item :: items, true)) xs items = (xs.reverse ++ items, true) := by
  induction xs generalizing items with
  | nil => rfl
  | cons x xs ih => simp [visitAll, ih]

theorem visitWithin_eq (visit : σ → α → σ × Bool) {link : Option Nat} {chain : List Nat}
    (h : Leads t.slots link chain) {steps : Nat} (hsteps : chain.length ≤ steps) (s : σ) :
    t.visitWithin visit steps link s = .ok (visitAll visit (chain.filterMap t.get?) s) := by
  induction h generalizing steps s with
  | nil => rw [visitWithin]; rfl
  | @cons i slot chain hi hnext ih =>
    obtain ⟨steps, rfl⟩ : ∃ n, steps = n + 1 := ⟨steps - 1, by simp at hsteps; omega⟩
    have hitem : t.get? i = some slot.item := by
      rw [get?_eq, content_of_at? hi, Option.map_some]
    rw [visitWithin, Slots.read_eq_ok_iff.mpr hi, ok_bind, List.filterMap_cons_some hitem, visitAll]
    rcases visit s slot.item with ⟨s, _ | _⟩
    · rfl
    · exact ih (Nat.le_of_succ_le_succ hsteps) s

theorem visitBuckets_eq (visit : σ → α → σ × Bool) {heads : List (Option Nat)}
    {chains : List (List Nat)} (h : List.Forall₂ (Leads t.slots) heads chains)
    (hsteps : ∀ chain ∈ chains, chain.length ≤ t.slots.size) (s : σ) :
    t.visitBuckets visit heads s = .ok (visitAll visit (chains.flatten.filterMap t.get?) s) := by
  induction h generalizing s with
  | nil => rfl
  | @cons head chain heads chains hhead _ ih =>
    rw [visitBuckets, visitWithin_eq visit hhead (hsteps chain List.mem_cons_self), ok_bind,
      List.flatten_cons, List.filterMap_append, visitAll_append]
    rcases visitAll visit (chain.filterMap t.get?) s with ⟨s, _ | _⟩
    · rfl
    · exact ih (fun chain hchain => hsteps chain (List.mem_cons_of_mem _ hchain)) s

/-- **Along the chains** the items are visited in turn. -/
theorem Linked.forEach (ht : t.Linked [] a r) (visit : σ → α → σ × Bool) (s : σ) :
    t.forEach visit s =
      .ok (visitAll visit ((a.flatten ++ r.flatten).filterMap t.get?) s).1 := by
  have hsteps : ∀ chain ∈ a ++ r, chain.length ≤ t.slots.size := by
    intro chain hchain
    have hsub := (List.sublist_flatten_of_mem hchain).length_le
    have hslots := ht.slots_size_eq
    have hsize := ht.size_eq
    rw [List.flatten_append] at hsub
    omega
  have hheads := List.rel_append ht.active.forall₂ ht.retiring.forall₂
  rw [HashTable.forEach, visitBuckets_eq visit hheads hsteps, List.flatten_append]
  rfl

theorem Linked.toList (ht : t.Linked [] a r) :
    t.toList = .ok ((a.flatten ++ r.flatten).filterMap t.get?) := by
  simp [HashTable.toList, ht.forEach, visitAll_collect]

end Visiting

/-- By slot number, too, every item in use is visited once. -/
theorem items_eq (t : HashTable α) :
    t.items = (List.range t.slots.size).filterMap t.get? := by
  have h : t.slots.toList = (List.range t.slots.size).map fun i => t.slots.at? i := by
    apply List.ext_getElem (by simp)
    intro i h₁ _
    have hi : i < t.slots.size := by simpa using h₁
    simp [Slots.at?, hi]
  rw [items, h, List.filterMap_map]
  rfl

end KeyServer.HashTable
