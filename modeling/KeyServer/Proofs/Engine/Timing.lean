import KeyServer.Proofs.DeadlineHeap.Order
import KeyServer.Proofs.Engine.Representation

/-! # Keys have deadlines

`e.Timed m d` says that an engine represents a plain keyspace and that `d` tells the deadlines
of its keys.  The heap knows them by handle only; `Timed` reads them by key, and what the engine
does to single keys changes them so:

* **`Timed.nextExpiry?_eq_some_iff`**: the first deadline of the heap is the earliest of all keys;
* **`Timed.setTtl`** gives one key another deadline, or none;
* **`Timed.discard`** and **`Timed.expire`** remove one key with its deadline;
* **`Timed.keep`**: whatever leaves the heap and the keys of all slots alone leaves all
  deadlines alone, and new keys have none (`Keeps`).
-/

namespace KeyServer.Engine

/-! ## Keys and their deadlines -/

/-- Whether a key is there. -/
def Has (e : Engine) (key : Bytes) : Prop :=
  ∃ h slot, e.keyspace.content h = some slot ∧ slot.item.key = key

/-- The deadline of the entry in a slot. -/
def deadlineAt (e : Engine) (slot : Hashed Entry) : Option Nat :=
  slot.item.heapIndex.bind fun p => e.deadlines.items[p]?.map (·.expiresAt)

/-- Whether a key is there and has this deadline, or none. -/
def DeadlineIs (e : Engine) (key : Bytes) (t : Option Nat) : Prop :=
  ∃ h slot, e.keyspace.content h = some slot ∧ slot.item.key = key ∧ e.deadlineAt slot = t

/-- The deadline of a key that lives `ttl` milliseconds from now, or for ever if `ttl` is
negative. -/
def deadlineFor (ttl : Int) (now : Nat) : Option Nat :=
  if ttl < 0 then none else some (min (now + ttl.toNat) maxWord)

/-- An engine with the keys and values of a plain keyspace and some deadlines. -/
structure Timed (e : Engine) (m : Keyspace) (d : Bytes → Option Nat) : Prop where
  represents : e.Represents m
  ordered : DeadlineHeap.Ordered e.deadlines.items
  due : ∀ h slot t, e.keyspace.content h = some slot →
    (⟨t, h⟩ ∈ e.deadlines.items ↔ d slot.item.key = some t)
  gone : ∀ key, key ∉ m → d key = none

@[simp] theorem dispose_keyspace (e : Engine) (data : Data) :
    (e.dispose data).keyspace = e.keyspace := by
  unfold dispose
  split
  · rfl
  · split <;> rfl

@[simp] theorem dispose_deadlines (e : Engine) (data : Data) :
    (e.dispose data).deadlines = e.deadlines := by
  unfold dispose
  split
  · rfl
  · split <;> rfl

@[simp] theorem dispose_limit (e : Engine) (data : Data) :
    (e.dispose data).maxExpirationsPerSweep = e.maxExpirationsPerSweep := by
  unfold dispose
  split
  · rfl
  · split <;> rfl

theorem setTtl_limit (e : Engine) (i : Nat) (index : Option Nat) (ttl : Int) (now : Nat) :
    (e.setTtl i index ttl now).maxExpirationsPerSweep = e.maxExpirationsPerSweep := by
  unfold setTtl
  split
  · cases index <;> rfl
  · rfl

theorem discard_limit (e : Engine) (entry : Entry) :
    (e.discard entry).maxExpirationsPerSweep = e.maxExpirationsPerSweep := by
  unfold discard
  rw [dispose_limit]
  cases entry.heapIndex <;> rfl

theorem timed_ofConfig (c : Config) : (ofConfig c).Timed ∅ fun _ => none where
  represents := represents_ofConfig c
  ordered := DeadlineHeap.ordered_empty
  due := by simp [ofConfig]
  gone := fun _ _ => rfl

variable {e e' : Engine} {m m' : Keyspace} {d : Bytes → Option Nat}

theorem Represents.has_iff (h : e.Represents m) {key : Bytes} : e.Has key ↔ key ∈ m := by
  rw [← AList.lookup_isSome]
  constructor
  · rintro ⟨i, slot, hi, rfl⟩
    obtain ⟨-, v, hv, -⟩ := h.stores.stored i slot hi
    rw [hv, Option.isSome_some]
  · intro hkey
    obtain ⟨v, hv⟩ := Option.isSome_iff_exists.mp hkey
    exact h.stores.listed key v hv

/-- The owner of a deadline is an entry that notes where it is. -/
theorem Represents.exists_slot (h : e.Represents m) {p : Nat} {due : Deadline Nat}
    (hp : e.deadlines.items[p]? = some due) :
    ∃ slot, e.keyspace.content due.owner = some slot ∧ slot.item.heapIndex = some p := by
  have howner := (h.tracks due.owner p).mpr (by rw [DeadlineHeap.ownerAt, hp, Option.map_some])
  exact Option.bind_eq_some_iff.mp howner

namespace Timed

/-- The deadline in the heap is the one of the key. -/
theorem deadlineAt (h : e.Timed m d) {i : Nat} {slot : Hashed Entry}
    (hi : e.keyspace.content i = some slot) : e.deadlineAt slot = d slot.item.key := by
  refine Option.ext fun t => ?_
  rw [← h.due i slot t hi, h.represents.tracks.mem_iff, indexOf_eq hi, Engine.deadlineAt,
    Option.bind_eq_some_iff]
  refine exists_congr fun p => and_congr_right fun hp => ?_
  rw [Option.map_eq_some_iff]
  constructor
  · rintro ⟨due, hdue, rfl⟩
    have howner := (h.represents.tracks i p).mp ((indexOf_eq hi).trans hp)
    rw [DeadlineHeap.ownerAt, hdue, Option.map_some, Option.some_inj] at howner
    rw [hdue, ← howner]
  · exact fun hdue => ⟨_, hdue, rfl⟩

theorem deadlineIs_iff (h : e.Timed m d) {key : Bytes} {t : Option Nat} :
    e.DeadlineIs key t ↔ key ∈ m ∧ d key = t := by
  rw [← h.represents.has_iff]
  constructor
  · rintro ⟨i, slot, hi, rfl, rfl⟩
    exact ⟨⟨i, slot, hi, rfl⟩, (h.deadlineAt hi).symm⟩
  · rintro ⟨⟨i, slot, hi, rfl⟩, rfl⟩
    exact ⟨i, slot, hi, rfl, h.deadlineAt hi⟩

/-- **One key changes** its deadline, perhaps because it goes. -/
theorem change (h : e.Timed m d) {i : Nat} {slot : Hashed Entry}
    (hi : e.keyspace.content i = some slot) (h' : e'.Represents m')
    (hordered : DeadlineHeap.Ordered e'.deadlines.items) {t : Option Nat}
    (hslots : ∀ j slot', e'.keyspace.content j = some slot' →
      ∃ old, e.keyspace.content j = some old ∧ old.item.key = slot'.item.key)
    (hmem : ∀ due, due ∈ e'.deadlines.items ↔
      due.owner ≠ i ∧ due ∈ e.deadlines.items ∨ due.owner = i ∧ t = some due.expiresAt)
    (hkeys : ∀ key, key ∉ m' → key ≠ slot.item.key → key ∉ m)
    (hgone : slot.item.key ∉ m' → t = none) :
    e'.Timed m' (Function.update d slot.item.key t) where
  represents := h'
  ordered := hordered
  due j slot' u hj := by
    obtain ⟨old, hold, hkey⟩ := hslots j slot' hj
    rw [hmem]
    by_cases hji : j = i
    · subst hji
      rw [hi, Option.some_inj] at hold
      rw [← hkey, ← hold, Function.update_self]
      simp
    · have hne : slot'.item.key ≠ slot.item.key := fun heq =>
        hji (h.represents.stores.once j i old slot hold hi (hkey.trans heq))
      rw [Function.update_of_ne hne, ← hkey, ← h.due j old u hold]
      simp [hji]
  gone key hkey := by
    rw [Function.update_apply]
    split
    · next heq => exact hgone (heq ▸ hkey)
    · next hne => exact h.gone key (hkeys key hkey hne)

end Timed

/-! ## The next deadline -/

namespace Timed

theorem exists_deadlineIs_iff (h : e.Timed m d) {t : Nat} :
    (∃ key, e.DeadlineIs key (some t)) ↔ ∃ i, ⟨t, i⟩ ∈ e.deadlines.items := by
  constructor
  · rintro ⟨key, i, slot, hi, rfl, hdue⟩
    rw [h.deadlineAt hi] at hdue
    exact ⟨i, (h.due i slot t hi).mpr hdue⟩
  · rintro ⟨i, hitem⟩
    obtain ⟨p, -, hp⟩ := h.represents.tracks.mem_iff.mp hitem
    obtain ⟨slot, hi, -⟩ := h.represents.exists_slot hp
    exact ⟨_, i, slot, hi, rfl, (h.deadlineAt hi).trans ((h.due i slot t hi).mp hitem)⟩

theorem nextExpiry?_eq_none_iff (h : e.Timed m d) :
    e.nextExpiry? = none ↔ ∀ key t, ¬e.DeadlineIs key (some t) := by
  rw [nextExpiry?, Option.map_eq_none_iff, DeadlineHeap.peek?, Array.getElem?_eq_none_iff,
    Nat.le_zero]
  constructor
  · intro hempty key t hdue
    obtain ⟨i, hitem⟩ := h.exists_deadlineIs_iff.mp ⟨key, hdue⟩
    rw [Array.eq_empty_of_size_eq_zero hempty] at hitem
    simp at hitem
  · intro hnone
    by_contra hsize
    have hfirst : e.deadlines.items[0] ∈ e.deadlines.items := Array.getElem_mem (by omega)
    obtain ⟨key, hdue⟩ := h.exists_deadlineIs_iff.mpr ⟨_, hfirst⟩
    exact hnone key _ hdue

/-- The earliest deadline of all is the one in front. -/
theorem nextExpiry?_eq_some_iff (h : e.Timed m d) {t : Nat} :
    e.nextExpiry? = some t ↔
      (∃ key, e.DeadlineIs key (some t)) ∧ ∀ key t', e.DeadlineIs key (some t') → t ≤ t' := by
  have hearliest : ∀ {first}, e.deadlines.peek? = some first →
      (∃ key, e.DeadlineIs key (some first.expiresAt)) ∧
        ∀ key t', e.DeadlineIs key (some t') → first.expiresAt ≤ t' := by
    intro first hpeek
    refine ⟨h.exists_deadlineIs_iff.mpr ⟨first.owner, Array.mem_of_getElem? hpeek⟩, ?_⟩
    intro key t' hdue
    obtain ⟨i, hitem⟩ := h.exists_deadlineIs_iff.mp ⟨key, hdue⟩
    exact h.ordered.peek? hpeek hitem
  constructor
  · intro hnext
    obtain ⟨first, hpeek, rfl⟩ := Option.map_eq_some_iff.mp hnext
    exact hearliest hpeek
  · rintro ⟨⟨key, hdue⟩, hmin⟩
    cases hpeek : e.deadlines.peek? with
    | none =>
      have hnone := h.nextExpiry?_eq_none_iff.mp (by rw [nextExpiry?, hpeek, Option.map_none])
      exact absurd hdue (hnone key t)
    | some first =>
      obtain ⟨⟨key', hdue'⟩, hmin'⟩ := hearliest hpeek
      rw [nextExpiry?, hpeek, Option.map_some,
        Nat.le_antisymm (hmin' key t hdue) (hmin key' _ hdue')]

end Timed

/-! ## One key at a time -/

/-- Slots with the same keys. -/
theorem SameEntries.exists_key {c c' : Content} (h : SameEntries c c') {i : Nat}
    {slot : Hashed Entry} (hi : c' i = some slot) :
    ∃ old, c i = some old ∧ old.item.key = slot.item.key := by
  obtain ⟨old, hold, heq⟩ := h.exists_slot hi
  exact ⟨old, hold, congrArg (·.item.key) heq⟩

theorem sameEntries_noteMoves {t : HashTable Entry} (ht : t.Valid) (moves : List (Nat × Nat)) :
    SameEntries t.content (noteMoves t moves).content := by
  rw [(noteMoves_spec ht moves).2]
  exact sameEntries_withNotes _ _

theorem sameEntries_clear {t : HashTable Entry} (ht : t.Valid) (i : Nat) :
    SameEntries t.content (t.modify i fun entry => { entry with heapIndex := none }).content := by
  intro j
  rw [(ht.modify i _).2, Function.update_apply]
  split
  · next heq => cases hj : t.content i <;> simp [heq, hj, withIndex]
  · rfl

theorem SameEntries.trans {c c₁ c₂ : Content} (h : SameEntries c c₁) (h' : SameEntries c₁ c₂) :
    SameEntries c c₂ :=
  fun i => (h' i).trans (h i)

/-- The heap without the deadline of one owner. -/
theorem mem_deleteDeadline {f : Nat → Option Nat} (hf : DeadlineHeap.Tracks f e.deadlines.items)
    {i p : Nat} (hi : f i = some p) {item : Deadline Nat} :
    item ∈ (e.deleteDeadline p).deadlines.items ↔ item.owner ≠ i ∧ item ∈ e.deadlines.items :=
  DeadlineHeap.mem_delete hf hi

namespace Timed

/-- **Setting a deadline** by the note of the entry. -/
theorem setTtl (h : e.Timed m d) {i : Nat} {slot : Hashed Entry}
    (hi : e.keyspace.content i = some slot) (ttl : Int) (now : Nat) :
    (e.setTtl i slot.item.heapIndex ttl now).Timed m
      (Function.update d slot.item.key (deadlineFor ttl now)) := by
  have h' := h.represents.setTtl hi ttl now
  have hlive : slot.item.key ∈ m := h.represents.has_iff.mp ⟨i, slot, hi, rfl⟩
  have htracks := h.represents.tracks
  have hvalid := h.represents.valid
  unfold Engine.setTtl deadlineFor at *
  split
  · next hneg =>
    rw [if_pos hneg] at h'
    cases hindex : slot.item.heapIndex with
    | none =>
      have hnone : d slot.item.key = none := by
        rw [← h.deadlineAt hi, Engine.deadlineAt, hindex, Option.bind_none]
      rwa [← hnone, Function.update_eq_self, hnone]
    | some p =>
      rw [hindex] at h'
      have hp : indexOf e.keyspace.content i = some p := (indexOf_eq hi).trans hindex
      refine h.change hi h' (DeadlineHeap.delete_ordered h.ordered p) (fun j slot' hj => ?_)
        (fun item => ?_) (fun _ hkey _ => hkey) fun hkey => absurd hlive hkey
      · have hnoted : SameEntries e.keyspace.content (e.deleteDeadline p).keyspace.content :=
          sameEntries_noteMoves hvalid _
        have hvalid₁ : (e.deleteDeadline p).keyspace.Valid := (noteMoves_spec hvalid _).1
        exact (hnoted.trans (sameEntries_clear hvalid₁ i)).exists_key hj
      · simpa using mem_deleteDeadline htracks hp
  · next hneg =>
    rw [if_neg hneg] at h'
    refine h.change hi h' (DeadlineHeap.upsert_ordered h.ordered _ _)
      (fun j slot' hj => (sameEntries_noteMoves hvalid _).exists_key hj)
      (fun item => ?_) (fun _ hkey _ => hkey) fun hkey => absurd hlive hkey
    obtain ⟨t, o⟩ := item
    have hmem := DeadlineHeap.mem_upsert htracks ⟨min (now + ttl.toNat) maxWord, i⟩ (d := ⟨t, o⟩)
    rw [indexOf_eq hi] at hmem
    rw [hmem, or_comm]
    simp [and_comm, eq_comm]

/-! ## Removing keys -/

/-- An entry without a note has no deadline. -/
theorem owner_ne (h : e.Timed m d) {i : Nat} {slot : Hashed Entry}
    (hi : e.keyspace.content i = some slot) (hindex : slot.item.heapIndex = none)
    {item : Deadline Nat} (hitem : item ∈ e.deadlines.items) : item.owner ≠ i := by
  rintro rfl
  obtain ⟨p, hp, -⟩ := h.represents.tracks.mem_iff.mp hitem
  rw [indexOf_eq hi, hindex] at hp
  cases hp

/-- **Discarding** an entry that was taken out of the table. -/
theorem discard (h : e.Timed m d) {i : Nat} {slot : Hashed Entry}
    (hi : e.keyspace.content i = some slot) {t' : HashTable Entry} (hvalid : t'.Valid)
    (hcontent : t'.content = Function.update e.keyspace.content i none) :
    ({ e with keyspace := t' }.discard slot.item).Timed (m.erase slot.item.key)
      (Function.update d slot.item.key none) := by
  have h' := h.represents.discard hi hvalid hcontent
  have hold : ∀ j slot', t'.content j = some slot' → e.keyspace.content j = some slot' := by
    intro j slot' hj
    rw [hcontent, Function.update_apply] at hj
    split at hj
    · cases hj
    · exact hj
  unfold Engine.discard at *
  cases hindex : slot.item.heapIndex with
  | none =>
    rw [hindex] at h'
    refine h.change hi h' (by simpa using h.ordered) (fun j slot' hj => ?_) (fun item => ?_)
      (fun key hkey hne => ?_) fun _ => rfl
    · rw [dispose_keyspace] at hj
      exact ⟨slot', hold j slot' hj, rfl⟩
    · simpa using h.owner_ne hi hindex
    · simpa [AList.mem_erase, hne] using hkey
  | some p =>
    rw [hindex] at h'
    have hp : indexOf e.keyspace.content i = some p := (indexOf_eq hi).trans hindex
    refine h.change hi h' ?_ (fun j slot' hj => ?_) (fun item => ?_)
      (fun key hkey hne => ?_) fun _ => rfl
    · rw [dispose_deadlines]
      exact DeadlineHeap.delete_ordered h.ordered p
    · rw [dispose_keyspace] at hj
      obtain ⟨old, hj', hkey⟩ := (sameEntries_noteMoves hvalid _).exists_key hj
      exact ⟨old, hold j old hj', hkey⟩
    · rw [dispose_deadlines]
      simpa using mem_deleteDeadline (e := { e with keyspace := t' }) h.represents.tracks hp
    · simpa [AList.mem_erase, hne] using hkey

/-- **Expiring** the first deadline removes the slot of its owner and changes no other key. -/
theorem expire (h : e.Timed m d) {first : Deadline Nat} (hpeek : e.deadlines.peek? = some first) :
    ∃ slot entry keyspace', e.keyspace.content first.owner = some slot ∧
      slot.item.key = entry.key ∧ d entry.key = some first.expiresAt ∧
      (e.deleteDeadline 0).keyspace.remove first.owner = .ok (some entry, keyspace') ∧
      SameEntries (Function.update e.keyspace.content first.owner none) keyspace'.content ∧
      Timed { e.deleteDeadline 0 with keyspace := keyspace' } (m.erase entry.key)
        (Function.update d entry.key none) := by
  obtain ⟨entry, t', hremove, -, h'⟩ := h.represents.expire hpeek
  obtain ⟨slot, hi, hindex⟩ := h.represents.exists_slot hpeek
  have hvalid := (noteMoves_spec h.represents.valid (e.deadlines.delete 0).2.2).1
  have hsame := sameEntries_noteMoves h.represents.valid (e.deadlines.delete 0).2.2
  obtain ⟨t'', hremove', -, hcontent⟩ := hvalid.remove first.owner
  obtain ⟨hentry, rfl⟩ : some entry = _ ∧ t' = t'' := by
    simpa using hremove.symm.trans hremove'
  rw [HashTable.get?_eq, eq_comm, Option.map_eq_some_iff] at hentry
  obtain ⟨slot', hi', rfl⟩ := hentry
  obtain ⟨old, hold, hkey⟩ := hsame.exists_key hi'
  rw [hi, Option.some_inj] at hold
  subst hold
  have hothers : SameEntries (Function.update e.keyspace.content first.owner none) t'.content := by
    intro j
    rw [hcontent, Function.update_apply, Function.update_apply]
    split
    · rfl
    · exact hsame j
  refine ⟨slot, slot'.item, t', hi, hkey, ?_, hremove, hothers, ?_⟩
  · rw [← hkey]
    exact (h.due first.owner slot _ hi).mp (Array.mem_of_getElem? hpeek)
  rw [← hkey] at h' ⊢
  refine h.change hi h' (DeadlineHeap.delete_ordered h.ordered 0) (fun j slot'' hj => ?_)
    (fun item => ?_) (fun key hgone hne => ?_) fun _ => rfl
  · obtain ⟨old, hold, hkey'⟩ := hothers.exists_key hj
    rw [Function.update_apply] at hold
    split at hold
    · cases hold
    · exact ⟨old, hold, hkey'⟩
  · simpa using mem_deleteDeadline h.represents.tracks ((indexOf_eq hi).trans hindex)
  · simpa [AList.mem_erase, hne] using hgone

end Timed

/-! ## Leaving deadlines alone -/

/-- No deadline changes and no key goes, and sweeps have the same limit. -/
structure Keeps (e e' : Engine) : Prop where
  valid : e'.keyspace.Valid
  deadlines : e'.deadlines = e.deadlines
  limit : e'.maxExpirationsPerSweep = e.maxExpirationsPerSweep
  slots : ∀ i slot, e.keyspace.content i = some slot →
    ∃ slot', e'.keyspace.content i = some slot' ∧ slot'.item.key = slot.item.key

theorem Keeps.refl (hvalid : e.keyspace.Valid) : e.Keeps e where
  valid := hvalid
  deadlines := rfl
  limit := rfl
  slots := fun _ slot hi => ⟨slot, hi, rfl⟩

theorem Keeps.trans {e₁ : Engine} (h : e.Keeps e₁) (h' : e₁.Keeps e') : e.Keeps e' where
  valid := h'.valid
  deadlines := h'.deadlines.trans h.deadlines
  limit := h'.limit.trans h.limit
  slots i slot hi := by
    obtain ⟨slot₁, hi₁, hkey₁⟩ := h.slots i slot hi
    obtain ⟨slot', hi', hkey'⟩ := h'.slots i slot₁ hi₁
    exact ⟨slot', hi', hkey'.trans hkey₁⟩

/-- **What leaves deadlines alone** leaves those of all keys alone, and new keys have none. -/
theorem Timed.keep (h : e.Timed m d) (hkeeps : e.Keeps e') (h' : e'.Represents m') :
    e'.Timed m' d := by
  have hkeys : ∀ key, key ∈ m → ∃ i slot slot', e.keyspace.content i = some slot ∧
      e'.keyspace.content i = some slot' ∧ slot'.item.key = key := by
    intro key hkey
    obtain ⟨i, slot, hi, rfl⟩ := h.represents.has_iff.mpr hkey
    obtain ⟨slot', hi', hkey'⟩ := hkeeps.slots i slot hi
    exact ⟨i, slot, slot', hi, hi', hkey'⟩
  refine ⟨h', hkeeps.deadlines ▸ h.ordered, fun j slot' t hj => ?_, fun key hkey => ?_⟩
  · rw [hkeeps.deadlines]
    cases hold : e.keyspace.content j with
    | some slot =>
      obtain ⟨slot'', hj', hkey⟩ := hkeeps.slots j slot hold
      rw [hj, Option.some_inj] at hj'
      rw [hj', hkey]
      exact h.due j slot t hold
    | none =>
      -- The slot is new, so nobody had its handle, and nobody its key.
      refine iff_of_false (fun hmem => ?_) fun hdue => ?_
      · obtain ⟨p, hp, -⟩ := h.represents.tracks.mem_iff.mp hmem
        rw [indexOf_eq_none hold] at hp
        cases hp
      · have hlive : slot'.item.key ∈ m := by
          by_contra hgone
          rw [h.gone _ hgone] at hdue
          cases hdue
        obtain ⟨i, slot, slot'', hi, hi', hkey⟩ := hkeys _ hlive
        rw [h'.stores.once i j slot'' slot' hi' hj hkey, hold] at hi
        cases hi
  · refine h.gone key fun hlive => hkey ?_
    obtain ⟨i, -, slot', -, hi', hkey'⟩ := hkeys key hlive
    exact h'.has_iff.mp ⟨i, slot', hi', hkey'⟩

end KeyServer.Engine
