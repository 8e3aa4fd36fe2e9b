import KeyServer.Proofs.Engine.Deadlines
import KeyServer.Proofs.Engine.Scores

/-! # Engines represent plain keyspaces

`e.Represents m` says that the table of an engine has exactly the keys of `m`, each once
and with its value (`Stores`), and that the entries know where their deadlines are.  It
holds of a new engine, and what the engine does to single keys keeps it:

* **`Represents.find`** and **`Represents.add`**, **`Represents.setData`**;
* **`Represents.setTtl`**, which changes no key;
* **`Represents.discard`** and **`Represents.expire`**, which remove one.
-/

namespace KeyServer

/-- Whether the value of an entry is a value of a plain keyspace. -/
def Data.Is : Data → Value → Prop
  | .str data, .str data' => data = data'
  | .set s, .set scores => ∃ items, s.Lists items scores
  | _, _ => False

namespace Engine

/-! ## Slots store keys -/

/-- The slots have exactly the keys with a value, each once and under its hash code. -/
structure Stores (c : Content) (f : Bytes → Option Value) : Prop where
  stored : ∀ h slot, c h = some slot → slot.hash = hashBytes slot.item.key ∧
    ∃ v, f slot.item.key = some v ∧ slot.item.data.Is v
  listed : ∀ key v, f key = some v → ∃ h slot, c h = some slot ∧ slot.item.key = key
  once : ∀ h h' slot slot', c h = some slot → c h' = some slot' →
    slot.item.key = slot'.item.key → h = h'

theorem SameEntries.exists_slot {c c' : Content} (h : SameEntries c c') {i : Nat}
    {slot : Hashed Entry} (hi : c' i = some slot) :
    ∃ slot', c i = some slot' ∧ withIndex none slot' = withIndex none slot := by
  have := h i
  rw [hi, Option.map_some] at this
  exact Option.map_eq_some_iff.mp this.symm

theorem SameEntries.symm {c c' : Content} (h : SameEntries c c') : SameEntries c' c :=
  fun i => (h i).symm

theorem SameEntries.eq_none {c c' : Content} (h : SameEntries c c') {i : Nat} (hi : c i = none) :
    c' i = none := by
  have := h i
  rw [hi, Option.map_none] at this
  exact Option.map_eq_none_iff.mp this

namespace Stores

variable {c c' : Content} {f : Bytes → Option Value}

/-- Notes do not matter. -/
theorem congr (hs : Stores c f) (h : SameEntries c c') : Stores c' f where
  stored i slot hi := by
    obtain ⟨⟨hash, key, data, index⟩, hi', heq⟩ := h.exists_slot hi
    cases heq
    have hstored := hs.stored i _ hi'
    exact hstored
  listed key v hkey := by
    obtain ⟨i, slot, hi, rfl⟩ := hs.listed key v hkey
    obtain ⟨⟨hash, key, data, index⟩, hi', heq⟩ := h.symm.exists_slot hi
    cases heq
    exact ⟨i, _, hi', rfl⟩
  once i j slot slot' hi hj heq := by
    obtain ⟨⟨hash, key, data, index⟩, hi', heq₁⟩ := h.exists_slot hi
    obtain ⟨⟨hash', key', data', index'⟩, hj', heq₂⟩ := h.exists_slot hj
    cases heq₁
    cases heq₂
    exact hs.once i j _ _ hi' hj' heq

/-- A key that no slot matches has no value. -/
theorem eq_none (hs : Stores c f) {key : Bytes} (hmiss : ∀ i slot, c i = some slot →
    slot.hash = hashBytes key → (slot.item.key == key) = false) : f key = none := by
  rw [Option.eq_none_iff_forall_ne_some]
  intro v hv
  obtain ⟨i, slot, hi, rfl⟩ := hs.listed key v hv
  simpa using hmiss i slot hi (hs.stored i slot hi).1

/-- The slot of a key is the only one. -/
theorem eq_of_key (hs : Stores c f) {h h' : Nat} {key : Bytes} {slot : Hashed Entry}
    (hold : ∀ slot, c h = some slot → slot.item.key = key) (hnew : c h = none → f key = none)
    (hh' : c h' = some slot) (hkey : slot.item.key = key) : h' = h := by
  cases hh : c h with
  | some slot' => exact hs.once h' h slot slot' hh' hh (hkey.trans (hold slot' hh).symm)
  | none =>
    obtain ⟨-, v, hv, -⟩ := hs.stored h' slot hh'
    rw [hkey, hnew hh] at hv
    cases hv

/-- **One key changes** with its slot: it may come, go or get another value. -/
theorem update (hs : Stores c f) {h : Nat} {key : Bytes} {x : Option (Hashed Entry)}
    {y : Option Value} (hold : ∀ slot, c h = some slot → slot.item.key = key)
    (hnew : c h = none → f key = none)
    (hx : ∀ slot, x = some slot → slot.item.key = key ∧ slot.hash = hashBytes key ∧
      ∃ v, y = some v ∧ slot.item.data.Is v)
    (hy : ∀ v, y = some v → ∃ slot, x = some slot) :
    Stores (Function.update c h x) (Function.update f key y) where
  stored i slot hi := by
    rw [Function.update_apply] at hi
    split at hi
    · obtain ⟨rfl, hhash, hv⟩ := hx slot hi
      rw [Function.update_self]
      exact ⟨hhash, hv⟩
    · next hne =>
      rw [Function.update_of_ne fun hkey => hne (hs.eq_of_key hold hnew hi hkey)]
      exact hs.stored i slot hi
  listed key' v hkey' := by
    rw [Function.update_apply] at hkey'
    split at hkey'
    · next heq =>
      obtain ⟨slot, rfl⟩ := hy v hkey'
      exact ⟨h, slot, Function.update_self .., by rw [heq, (hx slot rfl).1]⟩
    · next hne =>
      obtain ⟨i, slot, hi, rfl⟩ := hs.listed key' v hkey'
      refine ⟨i, slot, ?_, rfl⟩
      rw [Function.update_of_ne, hi]
      rintro rfl
      exact hne (hold slot hi)
  once i j slot slot' hi hj heq := by
    rw [Function.update_apply] at hi hj
    split at hi
    · next hih =>
      split at hj
      · next hjh => rw [hih, hjh]
      · rw [(hx slot hi).1] at heq
        rw [hih, hs.eq_of_key hold hnew hj heq.symm]
    · split at hj
      · next hjh =>
        rw [(hx slot' hj).1] at heq
        rw [hjh, hs.eq_of_key hold hnew hi heq]
      · exact hs.once i j slot slot' hi hj heq

/-- A key goes. -/
theorem erase (hs : Stores c f) {h : Nat} {slot : Hashed Entry} (hh : c h = some slot) :
    Stores (Function.update c h none) (Function.update f slot.item.key none) := by
  refine hs.update (fun slot' hslot' => ?_) (fun hnone => ?_) (by simp) (by simp)
  · rw [hh, Option.some_inj] at hslot'
    rw [hslot']
  · rw [hh] at hnone
    cases hnone

end Stores

end Engine

namespace Keyspace

theorem lookup_insert_eq (m : Keyspace) (key : Bytes) (v : Value) :
    (fun k => (m.insert key v).lookup k) = Function.update (fun k => m.lookup k) key (some v) := by
  funext k
  by_cases hk : k = key
  · subst hk
    rw [Function.update_self, AList.lookup_insert]
  · rw [Function.update_of_ne hk, AList.lookup_insert_ne hk]

theorem lookup_erase_eq (m : Keyspace) (key : Bytes) :
    (fun k => (m.erase key).lookup k) = Function.update (fun k => m.lookup k) key none := by
  funext k
  by_cases hk : k = key
  · subst hk
    rw [Function.update_self, AList.lookup_erase]
  · rw [Function.update_of_ne hk, AList.lookup_erase_ne hk]

end Keyspace

namespace Engine

/-! ## Representation -/

/-- An engine with the keys and values of a plain keyspace. -/
structure Represents (e : Engine) (m : Keyspace) : Prop where
  valid : e.keyspace.Valid
  tracks : DeadlineHeap.Tracks (indexOf e.keyspace.content) e.deadlines.items
  stores : Stores e.keyspace.content fun key => m.lookup key

theorem represents_ofConfig (c : Config) : (ofConfig c).Represents ∅ where
  valid := HashTable.valid_empty
  tracks := DeadlineHeap.tracks_empty
  stores := ⟨by simp [ofConfig], by simp, by simp [ofConfig]⟩

namespace Represents

variable {e : Engine} {m : Keyspace}

/-- Giving a key the value it has changes nothing. -/
theorem insert_same_iff {key : Bytes} {v : Value} (hv : m.lookup key = some v) :
    e.Represents (m.insert key v) ↔ e.Represents m := by
  have hlookup : (fun k => (m.insert key v).lookup k) = fun k => m.lookup k := by
    rw [Keyspace.lookup_insert_eq, ← hv, Function.update_eq_self]
  exact ⟨fun h => ⟨h.valid, h.tracks, hlookup ▸ h.stores⟩,
    fun h => ⟨h.valid, h.tracks, hlookup ▸ h.stores⟩⟩

/-- **Finding** the entry of a key. -/
theorem find (h : e.Represents m) (key : Bytes) :
    ∃ found e', e.find key = .ok (found, e') ∧ e'.Represents m ∧
      (found = none → m.lookup key = none) ∧
      ∀ i entry, found = some (i, entry) →
        ∃ v, e'.keyspace.content i = some ⟨hashBytes key, entry⟩ ∧ entry.key = key ∧
          m.lookup key = some v ∧ entry.data.Is v := by
  obtain ⟨r, t', hlookup, hvalid, hcontent, hsome, hnone⟩ :=
    h.valid.lookup (hashBytes key) (·.key == key)
  have h' : Represents { e with keyspace := t' } m :=
    ⟨hvalid, hcontent ▸ h.tracks, hcontent ▸ h.stores⟩
  refine ⟨r.bind fun i => (t'.get? i).map fun entry => (i, entry), { e with keyspace := t' }, ?_,
    h', fun hr => ?_, fun i entry hr => ?_⟩
  · simp [Engine.find, hlookup]
  · cases r with
    | none => exact h.stores.eq_none (hnone rfl)
    | some i =>
      obtain ⟨slot, hi, -⟩ := hsome i rfl
      simp [HashTable.get?_eq, hcontent, hi] at hr
  · obtain ⟨j, rfl, hj⟩ := Option.bind_eq_some_iff.mp hr
    obtain ⟨slot, hslot, hhash, hkey⟩ := hsome j rfl
    obtain ⟨-, v, hv, hdata⟩ := h.stores.stored j slot hslot
    have hkey : slot.item.key = key := by simpa using hkey
    rw [HashTable.get?_eq, hcontent, hslot] at hj
    cases hj
    refine ⟨v, ?_, hkey, hkey ▸ hv, hdata⟩
    rw [← hhash]
    exact hcontent ▸ hslot

/-- **Adding** a key. -/
theorem add (h : e.Represents m) {key : Bytes} (hkey : m.lookup key = none) {data : Data}
    {v : Value} (hdata : data.Is v) :
    ∃ e', e.add key data = .ok e' ∧ e'.Represents (m.insert key v) := by
  obtain ⟨i, t', hinsert, hvalid, hfree, hcontent, -⟩ :=
    h.valid.insert (hashBytes key) ⟨key, data, none⟩
  refine ⟨{ e with keyspace := t' }, by simp [Engine.add, hinsert], hvalid, ?_, ?_⟩
  · have hindex : indexOf t'.content = indexOf e.keyspace.content := by
      funext j
      rw [indexOf, hcontent, Function.update_apply]
      split
      · next heq => rw [heq, indexOf_eq_none hfree, Option.bind_some]
      · rfl
    exact hindex ▸ h.tracks
  · rw [Keyspace.lookup_insert_eq, hcontent]
    refine h.stores.update (fun slot hslot => ?_) (fun _ => hkey) ?_ ?_
    · rw [hfree] at hslot
      cases hslot
    · rintro slot ⟨⟩
      exact ⟨rfl, rfl, v, rfl, hdata⟩
    · exact fun _ _ => ⟨_, rfl⟩

/-- **Changing** the value of a key. -/
theorem setData (h : e.Represents m) {i : Nat} {slot : Hashed Entry}
    (hi : e.keyspace.content i = some slot) {data : Data} {v : Value} (hdata : data.Is v) :
    (e.setData i data).Represents (m.insert slot.item.key v) := by
  obtain ⟨hvalid, hcontent⟩ := h.valid.modify i fun entry => { entry with data }
  refine ⟨hvalid, ?_, ?_⟩
  · have hindex : indexOf (e.setData i data).keyspace.content = indexOf e.keyspace.content := by
      funext j
      rw [indexOf, Engine.setData, hcontent, Function.update_apply]
      split
      · next heq => simp [heq, hi, indexOf]
      · rfl
    exact hindex ▸ h.tracks
  · rw [Keyspace.lookup_insert_eq, Engine.setData, hcontent, hi]
    refine h.stores.update (fun slot' hslot' => ?_) (fun hnone => ?_) ?_ fun _ _ => ⟨_, rfl⟩
    · rw [hi, Option.some_inj] at hslot'
      rw [hslot']
    · rw [hi] at hnone
      cases hnone
    · rintro _ ⟨⟩
      exact ⟨rfl, (h.stores.stored i slot hi).1, v, rfl, hdata⟩

/-- Another representation of the same value. -/
theorem setData_same (h : e.Represents m) {i : Nat} {slot : Hashed Entry}
    (hi : e.keyspace.content i = some slot) {data : Data} {v : Value}
    (hv : m.lookup slot.item.key = some v) (hdata : data.Is v) : (e.setData i data).Represents m :=
  (insert_same_iff hv).mp (h.setData hi hdata)

/-- Giving up a value changes no key. -/
theorem dispose (h : e.Represents m) (data : Data) : (e.dispose data).Represents m := by
  unfold Engine.dispose
  split
  · exact h
  · split
    · exact ⟨h.valid, h.tracks, h.stores⟩
    · exact h

/-- **Setting a deadline** changes no key. -/
theorem setTtl (h : e.Represents m) {i : Nat} {slot : Hashed Entry}
    (hi : e.keyspace.content i = some slot) (ttl : Int) (now : Nat) :
    (e.setTtl i slot.item.heapIndex ttl now).Represents m := by
  unfold Engine.setTtl
  split
  · cases hindex : slot.item.heapIndex with
    | none => exact h
    | some p =>
      obtain ⟨hvalid, hsame, g, htracks, hg, hnotes⟩ := deleteDeadline_spec h.valid h.tracks
        (by rw [indexOf_eq hi, hindex]) fun _ _ => rfl
      dsimp only
      generalize e.deleteDeadline p = e₁ at *
      -- The entry still notes the position; clearing that note is the last step.
      obtain ⟨hvalid₂, hcontent₂⟩ := hvalid.modify i fun entry => { entry with heapIndex := none }
      refine ⟨hvalid₂, ?_, h.stores.congr fun j => ?_⟩
      · have hall : indexOf (e₁.keyspace.modify i fun entry =>
            { entry with heapIndex := none }).content = g := by
          funext j
          rw [indexOf, hcontent₂, Function.update_apply]
          split
          · next heq => cases hj : e₁.keyspace.content i <;> simp [heq, hg]
          · next hne => exact hnotes j hne
        exact hall ▸ htracks
      · rw [hcontent₂, Function.update_apply, ← hsame j]
        split
        · next heq => cases hj : e₁.keyspace.content i <;> simp [heq, hj, withIndex]
        · rfl
  · obtain ⟨hvalid, hsame, htracks⟩ := upsert_spec h.valid h.tracks hi _ rfl
    exact ⟨hvalid, htracks, h.stores.congr hsame⟩

/-! ## Removing keys -/

/-- **Discarding** an entry that was taken out of the table. -/
theorem discard (h : e.Represents m) {i : Nat} {slot : Hashed Entry}
    (hi : e.keyspace.content i = some slot) {t' : HashTable Entry} (hvalid : t'.Valid)
    (hcontent : t'.content = Function.update e.keyspace.content i none) :
    ({ e with keyspace := t' }.discard slot.item).Represents (m.erase slot.item.key) := by
  have hstores : Stores t'.content fun key => (m.erase slot.item.key).lookup key := by
    rw [Keyspace.lookup_erase_eq, hcontent]
    exact h.stores.erase hi
  have hother : ∀ j, j ≠ i → indexOf t'.content j = indexOf e.keyspace.content j := by
    intro j hj
    rw [indexOf, hcontent, Function.update_of_ne hj, indexOf]
  have hgone : t'.content i = none := by rw [hcontent, Function.update_self]
  unfold Engine.discard
  refine Represents.dispose ?_ _
  cases hindex : slot.item.heapIndex with
  | none =>
    have hall : indexOf t'.content = indexOf e.keyspace.content := by
      funext j
      by_cases hj : j = i
      · rw [hj, indexOf_eq_none hgone, indexOf_eq hi, hindex]
      · exact hother j hj
    have htracks : DeadlineHeap.Tracks (indexOf t'.content) e.deadlines.items := hall ▸ h.tracks
    exact ⟨hvalid, htracks, hstores⟩
  | some p =>
    obtain ⟨hvalid', hsame, g, htracks, hg, hnotes⟩ :=
      deleteDeadline_spec (e := { e with keyspace := t' }) hvalid h.tracks
        (by rw [indexOf_eq hi, hindex]) hother
    dsimp only
    generalize Engine.deleteDeadline { e with keyspace := t' } p = e₁ at *
    have hall : indexOf e₁.keyspace.content = g := by
      funext j
      by_cases hj : j = i
      · rw [hj, hg]
        exact indexOf_eq_none (hsame.eq_none hgone)
      · exact hnotes j hj
    exact ⟨hvalid', hall ▸ htracks, hstores.congr hsame⟩

/-- **Expiring** the first deadline removes its key. -/
theorem expire (h : e.Represents m) {first : Deadline Nat}
    (hpeek : e.deadlines.peek? = some first) :
    ∃ entry keyspace',
      (e.deleteDeadline 0).keyspace.remove first.owner = .ok (some entry, keyspace') ∧
      entry.key ∈ m ∧
      Represents { e.deleteDeadline 0 with keyspace := keyspace' } (m.erase entry.key) := by
  -- Whoever owns the first deadline notes position 0, and so is an entry of the table.
  have howner : indexOf e.keyspace.content first.owner = some 0 := by
    rw [h.tracks first.owner 0, DeadlineHeap.ownerAt]
    have hitems : e.deadlines.items[0]? = some first := hpeek
    rw [hitems, Option.map_some]
  obtain ⟨slot, hslot, hindex⟩ := Option.bind_eq_some_iff.mp howner
  obtain ⟨hvalid, hsame, g, htracks, hg, hnotes⟩ := deleteDeadline_spec h.valid h.tracks howner
    fun _ _ => rfl
  generalize e.deleteDeadline 0 = e₁ at *
  obtain ⟨⟨hash, entry⟩, hslot', heq⟩ := hsame.symm.exists_slot hslot
  have hkey : entry.key = slot.item.key := congrArg (·.item.key) heq
  obtain ⟨t', hremove, hvalid', hcontent⟩ := hvalid.remove first.owner
  obtain ⟨-, v, hv, -⟩ := h.stores.stored first.owner slot hslot
  refine ⟨entry, t', ?_, ?_, hvalid', ?_, ?_⟩
  · rw [hremove, HashTable.get?_eq, hslot', Option.map_some]
  · rw [hkey, ← AList.lookup_isSome, hv, Option.isSome_some]
  · have hall : indexOf t'.content = g := by
      funext j
      rw [indexOf, hcontent, Function.update_apply]
      split
      · next heq => rw [heq, hg, Option.bind_none]
      · next hne => exact hnotes j hne
    exact hall ▸ htracks
  · rw [Keyspace.lookup_erase_eq]
    show Stores t'.content _
    rw [hcontent]
    exact (h.stores.congr hsame).erase hslot'

end Represents

end Engine

end KeyServer
