import KeyServer.Proofs.HashTable.Linked

/-!
# What the operations of a hash table are made of

* **Finding** (`Linked.find`) searches the chain of a hash code in both generations; it never fails,
  finds a match if there is one, and knows the slot before it.
* **Freeing a slot**: one that was found is loose once it is unlinked (`Linked.unlink`), and not in
  use once it is released (`Linked.release`).
* **Filling a slot**: one that was not in use is loose once it is allocated (`Linked.allocate`), and
  in the chain of its hash code once it is linked (`Linked.link`).
-/

namespace KeyServer.HashTable

variable {α : Type} {t t' : HashTable α} {a r : List (List Nat)} {i : Nat}

/-- Whether a slot in use has a hash code and a property of slot number and item. -/
def matchesAt (t : HashTable α) (hash : UInt32) (p : Nat → α → Bool) (i : Nat) : Bool :=
  (t.content i).any fun s => s.hash == hash && p i s.item

theorem matchesAt_iff {hash : UInt32} {p : Nat → α → Bool} {i : Nat} :
    t.matchesAt hash p i = true ↔
      ∃ s, t.content i = some s ∧ s.hash = hash ∧ p i s.item = true := by
  simp [matchesAt, Option.any_eq_true]

/-- An item in a slot that is no match, though of the right hash code. -/
theorem item_eq_false {hash : UInt32} {p : α → Bool} {i : Nat} {s : Hashed α}
    (h : t.matchesAt hash (fun _ item => p item) i = false) (hs : t.content i = some s)
    (hhash : s.hash = hash) : p s.item = false := by
  simpa [matchesAt, hs, hhash] using h

/-! ## Finding -/

/-- On the items with a hash code a test that may fault does not, and has the outcomes of a
property. -/
def Decides (t : HashTable α) (hash : UInt32) (test : Nat → α → Except Fault Bool)
    (p : Nat → α → Bool) : Prop :=
  ∀ i s, t.content i = some s → s.hash = hash → test i s.item = .ok (p i s.item)

theorem decides_ok (t : HashTable α) (hash : UInt32) (p : Nat → α → Bool) :
    t.Decides hash (fun i item => .ok (p i item)) p := fun _ _ _ _ => rfl

theorem Decides.accepts {hash : UInt32} {test : Nat → α → Except Fault Bool}
    {p : Nat → α → Bool} (hp : t.Decides hash test p) {s : Slot α} (hs : t.slots.at? i = some s) :
    accepts hash test i s = .ok (t.matchesAt hash p i) := by
  rw [HashTable.accepts, matchesAt, content_of_at? hs]
  by_cases hhash : s.hash = hash
  · simp [hhash, hp i _ (content_of_at? hs) hhash]
  · simp [hhash]

/-- **Along a chain** the first match is found, together with the slot before it. -/
theorem findWithin_spec {hash : UInt32} {test : Nat → α → Except Fault Bool}
    {p : Nat → α → Bool} (hp : t.Decides hash test p) {link : Option Nat} {chain : List Nat}
    (h : Leads t.slots link chain) (before : Option Nat) {steps : Nat}
    (hsteps : chain.length ≤ steps) :
    ∃ found, t.findWithin hash test steps before link = .ok found ∧
      (∀ b i, found = some (b, i) → t.matchesAt hash p i = true ∧
        ∃ front back, chain = front ++ i :: back ∧ b = front.getLast?.or before) ∧
      (found = none → ∀ i ∈ chain, t.matchesAt hash p i = false) := by
  induction h generalizing before steps with
  | nil => exact ⟨none, by rw [findWithin], by simp, by simp⟩
  | @cons i s chain hi hnext ih =>
    obtain ⟨steps, rfl⟩ : ∃ n, steps = n + 1 := ⟨steps - 1, by simp at hsteps; omega⟩
    rw [findWithin, Slots.read_eq_ok_iff.mpr hi, ok_bind, hp.accepts hi, ok_bind]
    cases hmatch : t.matchesAt hash p i with
    | true =>
      refine ⟨_, rfl, ?_, by simp⟩
      rintro b j ⟨⟩
      exact ⟨hmatch, [], chain, rfl, rfl⟩
    | false =>
      obtain ⟨found, hfind, hsome, hnone⟩ := ih (some i) (Nat.le_of_succ_le_succ hsteps)
      refine ⟨found, hfind, fun b j hbj => ?_, fun hn j hj => ?_⟩
      · obtain ⟨hj, front, back, rfl, rfl⟩ := hsome b j hbj
        refine ⟨hj, i :: front, back, rfl, ?_⟩
        cases hlast : front.getLast? <;> simp [List.getLast?_cons, hlast]
      · rcases List.mem_cons.mp hj with rfl | hj
        · exact hmatch
        · exact hnone hn j hj

namespace Linked

/-- Within a generation a match is found if there is one. -/
theorem findIn (ht : t.Linked [] a r) {g : Generation} {chains : List (List Nat)}
    (hg : g.Holds t.slots chains) (hlen : chains.flatten.length ≤ t.size) {hash : UInt32}
    {test : Nat → α → Except Fault Bool} {p : Nat → α → Bool} (hp : t.Decides hash test p) :
    ∃ found, t.findIn g hash test = .ok found ∧
      (∀ before i, found = some (before, i) → t.matchesAt hash p i = true ∧
        ∃ (b : Nat) (front back : List Nat), chains[b]? = some (front ++ i :: back) ∧
          before = front.getLast?) ∧
      (found = none → ∀ i ∈ chains.flatten, t.matchesAt hash p i = false) := by
  unfold HashTable.findIn
  split
  · next halloc =>
    obtain ⟨chain, hchain⟩ := hg.getElem?_bucketOf halloc hash
    obtain ⟨head, hhead, hleads⟩ := hg.leads _ chain hchain
    have hsteps : chain.length ≤ t.slots.size := by
      have hsub := List.sublist_flatten_of_mem (List.mem_of_getElem? hchain)
      have := hsub.length_le
      have := ht.slots_size_eq
      omega
    obtain ⟨found, hfind, hsome, hnone⟩ := findWithin_spec hp hleads none hsteps
    refine ⟨found, by simp [Generation.head, hhead, hfind], fun before i hi => ?_,
      fun hn i hi => ?_⟩
    · obtain ⟨hmatch, front, back, rfl, rfl⟩ := hsome before i hi
      exact ⟨hmatch, _, front, back, hchain, by simp⟩
    · rw [Bool.eq_false_iff]
      intro hmatch
      -- A match in another bucket would have another hash code.
      obtain ⟨x, hx, rfl, -⟩ := matchesAt_iff.mp hmatch
      obtain ⟨s, hs, rfl⟩ := content_eq_some_iff.mp hx
      obtain ⟨chain', hchain', hmem⟩ := hg.mem_chain hi hs
      cases hchain.symm.trans hchain'
      rw [hnone hn i hmem] at hmatch
      cases hmatch
  · next halloc =>
    refine ⟨none, rfl, by simp, fun _ i hi => ?_⟩
    exact absurd (hg.isAllocated_of_mem hi) halloc

/-- **Finding** never fails, finds a match if there is one, and knows its generation and the slot
before it. -/
theorem find (ht : t.Linked [] a r) {hash : UInt32} {test : Nat → α → Except Fault Bool}
    {p : Nat → α → Bool} (hp : t.Decides hash test p) :
    ∃ found, t.find hash test = .ok found ∧
      (∀ inActive before i, found = some (inActive, before, i) → t.matchesAt hash p i = true ∧
        ∃ (b : Nat) (front back : List Nat),
          (if inActive then a else r)[b]? = some (front ++ i :: back) ∧
          before = front.getLast?) ∧
      (found = none → ∀ i, t.matchesAt hash p i = false) := by
  have hsize := ht.size_eq
  rw [List.length_append] at hsize
  obtain ⟨found₁, h₁, hsome₁, hnone₁⟩ := ht.findIn ht.active (by omega) hp
  obtain ⟨found₂, h₂, hsome₂, hnone₂⟩ := ht.findIn ht.retiring (by omega) hp
  unfold HashTable.find
  rw [h₁, ok_bind]
  cases found₁ with
  | some found =>
    refine ⟨_, rfl, ?_, by simp⟩
    rintro _ _ _ ⟨⟩
    exact hsome₁ _ _ rfl
  | none =>
    simp only [h₂, ok_bind, pure_eq_ok]
    refine ⟨_, rfl, ?_, ?_⟩
    · intro inActive before i hfound
      obtain ⟨⟨_, _⟩, rfl, heq⟩ := Option.map_eq_some_iff.mp hfound
      cases heq
      exact hsome₂ _ _ rfl
    · intro hfound i
      rw [Option.map_eq_none_iff] at hfound
      rw [Bool.eq_false_iff]
      intro hmatch
      obtain ⟨s, hs, -⟩ := matchesAt_iff.mp hmatch
      have hi : i ∈ a.flatten ++ r.flatten := (ht.mem_chains i).mpr (by simp [hs])
      rcases List.mem_append.mp hi with hi | hi
      · simp [hnone₁ rfl i hi] at hmatch
      · simp [hnone₂ hfound i hi] at hmatch

end Linked

/-! ## Freeing a slot -/

/-- **Unlinking** a slot that was found makes it loose. -/
theorem Linked.unlink (ht : t.Linked [] a r) {inActive : Bool} {b : Nat} {front back : List Nat}
    (hb : (if inActive then a else r)[b]? = some (front ++ i :: back)) :
    ∃ t' a' r', t.unlink inActive front.getLast? i = .ok t' ∧ t'.Linked [i] a' r' ∧
      t'.content = t.content := by
  have hnodup := ht.nodup
  rw [List.nil_append] at hnodup
  obtain ⟨hactive, hretiring, hapart⟩ := List.nodup_append.mp hnodup
  have hperm : (front ++ i :: back).Perm (i :: (front ++ back)) := List.perm_middle
  unfold HashTable.unlink
  cases inActive with
  | true =>
    obtain ⟨slots, active, hunlink, hholds, hrelinked⟩ := ht.active.unlink hactive hb
    have hsame : ∀ j ∈ r.flatten, t.slots.SameLink slots j := fun j hj =>
      Slots.sameLink_of_eq (hrelinked.others j fun hj' => hapart j hj' j hj rfl)
    have horder : (i :: ((a.set b (front ++ back)).flatten ++ r.flatten)).Perm
        (a.flatten ++ r.flatten) := (perm_of_erase hb hperm).append_right _
    obtain ⟨hsize, -⟩ := Generation.sizes_of_unlink hunlink
    refine ⟨_, _, r, by simp [hunlink], ht.relink hrelinked hholds (ht.retiring.congr hsame) horder
      ht.swept fun h => ?_, content_relinked hrelinked⟩
    exact (Generation.isAllocated_congr hsize).trans (ht.ready h)
  | false =>
    obtain ⟨slots, retiring, hunlink, hholds, hrelinked⟩ := ht.retiring.unlink hretiring hb
    have hsame : ∀ j ∈ a.flatten, t.slots.SameLink slots j := fun j hj =>
      Slots.sameLink_of_eq (hrelinked.others j fun hj' => hapart j hj j hj' rfl)
    have hswept : ∀ c < t.cursor, retiring.heads[c]? = some none := by
      intro c hc
      -- An empty chain is not the one that loses a slot, and stays empty.
      have hempty := ht.retiring.head_eq_none_iff.mp (ht.swept c hc)
      rw [hholds.head_eq_none_iff, List.getElem?_set_ne, hempty]
      rintro rfl
      simp [hempty] at hb
    have horder : (i :: (a.flatten ++ (r.set b (front ++ back)).flatten)).Perm
        (a.flatten ++ r.flatten) :=
      List.perm_middle.symm.trans ((perm_of_erase hb hperm).append_left _)
    obtain ⟨hsize, -⟩ := Generation.sizes_of_unlink hunlink
    refine ⟨_, a, _, by simp [hunlink], ht.relink hrelinked (ht.active.congr hsame) hholds horder
      hswept fun h => ?_, content_relinked hrelinked⟩
    exact ht.ready ((Generation.isAllocated_congr hsize).symm.trans h)

@[simp] theorem content_release (t : HashTable α) (i : Nat) :
    (t.release i).content = Function.update t.content i none := by
  funext j
  rw [Function.update_apply, content, release, content]
  split
  · next h =>
    subst h
    rw [Slots.at?, Array.getElem?_setIfInBounds, if_pos rfl]
    split <;> rfl
  · next h => rw [Slots.at?_set_ne h]

/-- **Freeing** a loose slot. -/
theorem Linked.release (ht : t.Linked [i] a r) : (t.release i).Linked [] a r := by
  obtain ⟨hi, hnodup⟩ := List.nodup_cons.mp ht.nodup
  obtain ⟨s, hs⟩ : ∃ s, t.content i = some s :=
    Option.isSome_iff_exists.mp ((ht.mem_chains i).mp (by simp))
  have hsame : ∀ j ∈ a.flatten ++ r.flatten, t.slots.SameLink (t.release i).slots j := by
    intro j hj
    apply Slots.sameLink_of_eq
    apply Slots.at?_set_ne
    rintro rfl
    exact hi hj
  refine {
    active := ht.active.congr fun j hj => hsame j (List.mem_append_left _ hj)
    retiring := ht.retiring.congr fun j hj => hsame j (List.mem_append_right _ hj)
    nodup := hnodup
    mem_chains := fun j => ?_
    free_nodup := ?_
    mem_free := fun j => ?_
    swept := ht.swept
    ready := ht.ready }
  · rw [content_release, List.nil_append]
    by_cases hj : j = i
    · subst hj
      simpa using hi
    · rw [Function.update_of_ne hj, ← ht.mem_chains j]
      simp [hj]
  · refine List.nodup_cons.mpr ⟨fun hfree => ?_, ht.free_nodup⟩
    rw [((ht.mem_free i).mp hfree).2] at hs
    cases hs
  · rw [content_release]
    simp only [HashTable.release, Array.size_setIfInBounds, List.mem_cons]
    by_cases hj : j = i
    · subst hj
      simp [lt_size_of_content hs]
    · rw [Function.update_of_ne hj, ← ht.mem_free j]
      simp [hj]

/-- **Unlinking and freeing** a slot that was found takes its item out. -/
theorem Linked.unlinkAndRelease (ht : t.Linked [] a r) {inActive : Bool} {b : Nat}
    {front back : List Nat} (hb : (if inActive then a else r)[b]? = some (front ++ i :: back))
    {s : Hashed α} (hs : t.content i = some s) :
    ∃ t', t.unlinkAndRelease inActive front.getLast? i = .ok (s.item, t') ∧ t'.Valid ∧
      t'.content = Function.update t.content i none := by
  obtain ⟨t₁, a₁, r₁, hunlink, ht₁, hcontent₁⟩ := ht.unlink hb
  obtain ⟨⟨r₂, ht₂⟩, hsettled⟩ := ht₁.dropRetired
  have hcontent₂ : t₁.dropRetired.content = t.content :=
    (content_congr (dropRetired_slots t₁)).trans hcontent₁
  obtain ⟨slot, hslot, rfl⟩ := content_eq_some_iff.mp ((congrFun hcontent₂ i).trans hs)
  refine ⟨t₁.dropRetired.release i, ?_, ⟨⟨a₁, r₂, ht₂.release⟩, hsettled⟩, ?_⟩
  · simp [HashTable.unlinkAndRelease, hunlink, Slots.read_eq_ok_iff.mpr hslot]
  · rw [content_release, hcontent₂]

theorem slots_size_of_unlink {inActive : Bool} {before : Option Nat}
    (h : t.unlink inActive before i = .ok t') : t'.slots.size = t.slots.size := by
  unfold HashTable.unlink at h
  split at h
  · obtain ⟨⟨slots, active⟩, hunlink, heq⟩ := bind_eq_ok_iff.mp h
    cases heq
    exact (Generation.sizes_of_unlink hunlink).2.2
  · obtain ⟨⟨slots, retiring⟩, hunlink, heq⟩ := bind_eq_ok_iff.mp h
    cases heq
    exact (Generation.sizes_of_unlink hunlink).2.2

theorem slots_size_of_unlinkAndRelease {inActive : Bool} {before : Option Nat} {item : α}
    (h : t.unlinkAndRelease inActive before i = .ok (item, t')) :
    t'.slots.size = t.slots.size := by
  simp only [HashTable.unlinkAndRelease, bind_eq_ok_iff] at h
  obtain ⟨t₁, hunlink, slot, -, heq⟩ := h
  cases heq
  rw [HashTable.release, Array.size_setIfInBounds, dropRetired_slots, slots_size_of_unlink hunlink]

/-! ## Filling a slot -/

/-- The first buckets are empty like the table. -/
theorem Linked.withBuckets (ht : t.Linked [] a r) :
    ∃ a', t.withBuckets.Linked [] a' r ∧ t.withBuckets.active.isAllocated = true ∧
      t.withBuckets.slots = t.slots ∧ t.withBuckets.free = t.free := by
  unfold HashTable.withBuckets
  split
  · next h => exact ⟨a, ht, h, rfl, rfl⟩
  · next h =>
    have hnil : a = [] := ht.active.eq_nil (Bool.eq_false_iff.mpr h)
    subst hnil
    have hflatten : (List.replicate firstBuckets ([] : List Nat)).flatten = [] := by simp
    refine ⟨List.replicate firstBuckets [], ?_, by simp [firstBuckets], rfl, rfl⟩
    exact {
      active := Generation.holds_ofSize _
      retiring := ht.retiring
      nodup := by rw [hflatten]; exact ht.nodup
      mem_chains := fun i => by rw [hflatten]; exact ht.mem_chains i
      free_nodup := ht.free_nodup
      mem_free := ht.mem_free
      swept := ht.swept
      ready := fun _ => by simp [firstBuckets] }

/-- A slot that was not in use is a loose one when it has been filled. -/
theorem Linked.fill (ht : t.Linked [] a r) {x : Hashed α} (hfree : t.content i = none)
    (hcontent : t'.content = Function.update t.content i (some x))
    (hothers : ∀ j, j ≠ i → t'.slots.at? j = t.slots.at? j)
    (hactive : t'.active = t.active) (hretiring : t'.retiring = t.retiring)
    (hcursor : t'.cursor = t.cursor) (hnodup : t'.free.Nodup)
    (hmem : ∀ j, j ∈ t'.free ↔ j < t'.slots.size ∧ t'.content j = none) :
    t'.Linked [i] a r := by
  have hnew : i ∉ a.flatten ++ r.flatten := fun hi => by
    simpa [hfree] using (ht.mem_chains i).mp hi
  have hsame : ∀ j ∈ a.flatten ++ r.flatten, t.slots.SameLink t'.slots j := by
    intro j hj
    refine Slots.sameLink_of_eq (hothers j ?_)
    rintro rfl
    exact hnew hj
  exact {
    active := hactive ▸ ht.active.congr fun j hj => hsame j (List.mem_append_left _ hj)
    retiring := hretiring ▸ ht.retiring.congr fun j hj => hsame j (List.mem_append_right _ hj)
    nodup := List.nodup_cons.mpr ⟨hnew, ht.nodup⟩
    mem_chains := fun j => by
      rw [hcontent, List.singleton_append, List.mem_cons]
      by_cases hj : j = i
      · simp [hj]
      · rw [Function.update_of_ne hj, ← ht.mem_chains j]
        simp [hj]
    free_nodup := hnodup
    mem_free := hmem
    swept := by rw [hcursor, hretiring]; exact ht.swept
    ready := by rw [hactive, hretiring]; exact ht.ready }

/-- **Allocating** fills a slot that was not in use.  If none was freed before, it is one more
slot. -/
theorem Linked.allocate (ht : t.Linked [] a r) (hash : UInt32) (item : α)
    (h : t.allocate hash item = (i, t')) :
    t.content i = none ∧ t'.content = Function.update t.content i (some ⟨hash, item⟩) ∧
      t'.Linked [i] a r ∧ t'.active = t.active ∧ t'.retiring = t.retiring ∧
      (i < t.slots.size ∧ t'.slots.size = t.slots.size ∨
        i = t.slots.size ∧ t'.slots.size = t.slots.size + 1 ∧ t.free = [] ∧ t'.free = []) := by
  have hnodup := ht.free_nodup
  have hmem := ht.mem_free
  unfold HashTable.allocate at h
  split at h
  · next slots k free active retiring cursor =>
    cases h
    obtain ⟨hlt, hnone⟩ := (hmem i).mp List.mem_cons_self
    have hcontent : (⟨slots.setIfInBounds i (some ⟨⟨hash, item⟩, none⟩), free, active, retiring,
        cursor⟩ : HashTable α).content
        = Function.update (⟨slots, i :: free, active, retiring, cursor⟩ : HashTable α).content i
          (some ⟨hash, item⟩) := by
      funext j
      rw [content, Slots.at?_set hlt, Function.update_apply]
      by_cases hj : i = j
      · simp [hj]
      · rw [if_neg hj, if_neg (Ne.symm hj), content]
    refine ⟨hnone, hcontent, ht.fill hnone hcontent (fun j hj => Slots.at?_set_ne hj _) rfl rfl rfl
      (List.nodup_cons.mp hnodup).2 (fun j => ?_), rfl, rfl,
      .inl ⟨hlt, Array.size_setIfInBounds⟩⟩
    rw [hcontent]
    by_cases hj : j = i
    · subst hj
      simp [(List.nodup_cons.mp hnodup).1]
    · have := hmem j
      rw [List.mem_cons] at this
      simpa [hj] using this
  · next slots active retiring cursor =>
    cases h
    have hothers : ∀ j, j ≠ slots.size →
        Slots.at? (slots.push (some ⟨⟨hash, item⟩, none⟩)) j = slots.at? j := fun j hj => by
      rw [Slots.at?, Array.getElem?_push, if_neg hj, Slots.at?]
    have hcontent : (⟨slots.push (some ⟨⟨hash, item⟩, none⟩), [], active, retiring, cursor⟩ :
        HashTable α).content
        = Function.update (⟨slots, [], active, retiring, cursor⟩ : HashTable α).content slots.size
          (some ⟨hash, item⟩) := by
      funext j
      rw [Function.update_apply]
      by_cases hj : j = slots.size
      · subst hj
        simp [content, Slots.at?]
      · rw [if_neg hj, content, hothers j hj, content]
    have hnone :
        (⟨slots, [], active, retiring, cursor⟩ : HashTable α).content slots.size = none := by
      simp [content, Slots.at?]
    refine ⟨hnone, hcontent, ht.fill hnone hcontent hothers rfl rfl rfl List.nodup_nil
      (fun j => ?_), rfl, rfl, .inr ⟨rfl, Array.size_push _, rfl, rfl⟩⟩
    rw [hcontent]
    by_cases hj : j = slots.size
    · subst hj
      simp
    · have := hmem j
      simp only [List.not_mem_nil, false_iff] at this
      simp only [List.not_mem_nil, Function.update_of_ne hj, Array.size_push, false_iff]
      rintro ⟨hlt, hnone⟩
      exact this ⟨by show j < slots.size; omega, hnone⟩

/-- **Linking** a loose slot. -/
theorem Linked.link (ht : t.Linked [i] a r) (halloc : t.active.isAllocated = true) :
    ∃ slots active a', t.active.link t.slots i = .ok (slots, active) ∧
      ({ t with slots, active } : HashTable α).Linked [] a' r ∧
      t.slots.Relinked slots [i] := by
  have hmem := ht.mem_chains
  have hnodup := ht.nodup
  rw [List.singleton_append] at hmem hnodup
  have hi := (List.nodup_cons.mp hnodup).1
  rw [List.mem_append, not_or] at hi
  obtain ⟨s, hs⟩ : ∃ s, t.content i = some s :=
    Option.isSome_iff_exists.mp ((hmem i).mp List.mem_cons_self)
  obtain ⟨slot, hslot, -⟩ := content_eq_some_iff.mp hs
  obtain ⟨slots, active, a', hlink, hholds, hperm, hrelinked⟩ :=
    ht.active.link halloc hslot hi.1
  have hsame : ∀ j ∈ r.flatten, t.slots.SameLink slots j := by
    intro j hj
    refine Slots.sameLink_of_eq (hrelinked.others j ?_)
    rw [List.mem_singleton]
    rintro rfl
    exact hi.2 hj
  have halloc' : active.isAllocated = true :=
    (Generation.isAllocated_congr (Generation.sizes_of_link hlink).1).trans halloc
  exact ⟨slots, active, a', hlink, ht.relink hrelinked hholds (ht.retiring.congr hsame)
    (hperm.append_right _) ht.swept fun _ => halloc', hrelinked⟩

/-- The active buckets can retire while there are no other retiring ones. -/
theorem Linked.startRehash (ht : t.Linked [] a r) (halloc : t.active.isAllocated = true)
    (hidle : t.retiring.isAllocated = false) : ∃ a', t.startRehash.Linked [] a' a := by
  have hnil : r = [] := ht.retiring.eq_nil hidle
  subst hnil
  have hflatten : (List.replicate (t.active.heads.size * 2) ([] : List Nat)).flatten ++ a.flatten
      = a.flatten ++ [] := by simp
  have hpos := Generation.isAllocated_iff.mp halloc
  exact ⟨List.replicate (t.active.heads.size * 2) [], {
    active := Generation.holds_ofSize _
    retiring := ht.active
    nodup := by rw [hflatten]; exact ht.nodup
    mem_chains := fun i => by rw [hflatten]; exact ht.mem_chains i
    free_nodup := ht.free_nodup
    mem_free := ht.mem_free
    swept := by simp [HashTable.startRehash]
    ready := by
      intro _
      simp only [HashTable.startRehash, Generation.isAllocated_ofSize, decide_eq_true_eq]
      omega }⟩

theorem Linked.retireFull (ht : t.Linked [] a r) (halloc : t.active.isAllocated = true) :
    (∃ a' r', t.retireFull.Linked [] a' r') ∧ t.retireFull.slots = t.slots ∧
      t.retireFull.free = t.free := by
  unfold HashTable.retireFull
  split
  · next h =>
    obtain ⟨a', ht'⟩ := ht.startRehash halloc (by simp_all)
    exact ⟨⟨a', a, ht'⟩, rfl, rfl⟩
  · exact ⟨⟨a, r, ht⟩, rfl, rfl⟩

end KeyServer.HashTable
