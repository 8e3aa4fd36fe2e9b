import KeyServer.Proofs.Calls
import KeyServer.Proofs.HashTable.Operations

/-!
# A hash table is a finite map from handles to items

`FiniteMap.Step` says what an operation may answer and leave when the table is read as a
finite map from handles to hash codes and items; which free handle a new item gets, and
which of several matching items a lookup finds, is left open.

* **`run_empty_refines`**: whatever calls are made in whatever order on an empty table, none of
  them fails, each answers what the map may answer, and before and after each the table holds
  what the map holds (`Shows`), in every view of it: along the links, by slot number, and by
  count.  The lowest 32 bits of the slot numbers are enough for all this while there are fewer
  items than such numbers.
-/

namespace KeyServer.HashTable

variable {α : Type} {t t' : HashTable α}

/-- A call of an operation; handles and hash codes are arbitrary. -/
inductive Call (α : Type) where
  | insert (hash : UInt32) (item : α)
  | lookup (hash : UInt32) (p : α → Bool)
  | delete (hash : UInt32) (p : α → Bool)
  | remove (handle : Nat)
  /-- Access to the item behind a handle, to change it by `f`. -/
  | modify (handle : Nat) (f : α → α)
  | clear

/-- What a call answers. -/
inductive Answer (α : Type) where
  | handle (i : Nat)
  | found (i : Option Nat)
  | item (item : Option α)
  | done

/-- Carries out one call. -/
def call (t : HashTable α) : Call α → Except Fault (Answer α × HashTable α)
  | .insert hash item => do
    let (i, t) ← t.insert hash item
    return (.handle i, t)
  | .lookup hash p => do
    let (i, t) ← t.lookup hash p
    return (.found i, t)
  | .delete hash p => do
    let (item, t) ← t.delete hash p
    return (.item item, t)
  | .remove i => do
    let (item, t) ← t.remove i
    return (.item item, t)
  | .modify i f => return (.item (t.get? i), t.modify i f)
  | .clear => return (.done, empty)

/-! ## The finite map -/

/-- Hash codes and items by handle. -/
abbrev FiniteMap (α : Type) := Nat → Option (Hashed α)

namespace FiniteMap

/-- What a call on a finite map may answer and leave. -/
inductive Step : FiniteMap α → Call α → Answer α → FiniteMap α → Prop where
  | insert {m : FiniteMap α} {i : Nat} {hash : UInt32} {item : α} (hfree : m i = none) :
      Step m (.insert hash item) (.handle i) (Function.update m i (some ⟨hash, item⟩))
  | found {m : FiniteMap α} {i : Nat} {hash : UInt32} {p : α → Bool} {item : α}
      (hlive : m i = some ⟨hash, item⟩) (hitem : p item = true) :
      Step m (.lookup hash p) (.found (some i)) m
  | missing {m : FiniteMap α} {hash : UInt32} {p : α → Bool}
      (hnone : ∀ i item, m i = some ⟨hash, item⟩ → p item = false) :
      Step m (.lookup hash p) (.found none) m
  | deleted {m : FiniteMap α} {i : Nat} {hash : UInt32} {p : α → Bool} {item : α}
      (hlive : m i = some ⟨hash, item⟩) (hitem : p item = true) :
      Step m (.delete hash p) (.item (some item)) (Function.update m i none)
  | absent {m : FiniteMap α} {hash : UInt32} {p : α → Bool}
      (hnone : ∀ i item, m i = some ⟨hash, item⟩ → p item = false) :
      Step m (.delete hash p) (.item none) m
  | removed {m : FiniteMap α} {i : Nat} :
      Step m (.remove i) (.item ((m i).map (·.item))) (Function.update m i none)
  | modified {m : FiniteMap α} {i : Nat} {f : α → α} :
      Step m (.modify i f) (.item ((m i).map (·.item)))
        (Function.update m i ((m i).map fun s => { s with item := f s.item }))
  | cleared {m : FiniteMap α} : Step m .clear .done fun _ => none

end FiniteMap

/-! ## Views of one table -/

/-- The active generation or the retiring one. -/
def generation (t : HashTable α) (inActive : Bool) : Generation :=
  if inActive then t.active else t.retiring

/-- A list of the handles in use, each of them once. -/
def Enumerates (t : HashTable α) (handles : List Nat) : Prop :=
  handles.Nodup ∧ ∀ i, i ∈ handles ↔ (t.content i).isSome

/-- A slot with this hash code is linked once in its bucket of one generation, and nowhere
else. -/
def LinkedOnce (t : HashTable α) (i : Nat) (hash : UInt32) : Prop :=
  ∃ inActive chain,
    (t.generation inActive).ChainAt t.slots ((t.generation inActive).bucketOf hash) chain ∧
    chain.count i = 1 ∧
    ∀ other b chain', (t.generation other).ChainAt t.slots b chain' → i ∈ chain' →
      other = inActive ∧ b = (t.generation inActive).bucketOf hash

/-- All views of a table show the same items. -/
structure Consistent (t : HashTable α) : Prop where
  /-- Every bucket leads along slots in use to the end of a chain. -/
  ends : ∀ inActive b, b < (t.generation inActive).heads.size →
    ∃ chain, (t.generation inActive).ChainAt t.slots b chain
  /-- Along the chains every item is visited once, and the size counts them. -/
  chains : ∃ handles, t.Enumerates handles ∧ t.size = handles.length ∧
    t.toList = .ok (handles.filterMap t.get?)
  /-- By slot number, too, every item is visited once. -/
  slots : ∃ handles, t.Enumerates handles ∧ t.items = handles.filterMap t.get?
  /-- Every item is linked once. -/
  linked : ∀ i s, t.content i = some s → t.LinkedOnce i s.hash

/-- A table that holds what a finite map holds, in all views. -/
structure Shows (t : HashTable α) (m : FiniteMap α) : Prop where
  content : t.content = m
  consistent : t.Consistent

section Views

variable {a r : List (List Nat)} {i : Nat}

theorem Linked.holds_generation (ht : t.Linked [] a r) (inActive : Bool) :
    (t.generation inActive).Holds t.slots (if inActive then a else r) := by
  cases inActive with
  | true => exact ht.active
  | false => exact ht.retiring

theorem Linked.linkedOnce (ht : t.Linked [] a r) {s : Hashed α} (hs : t.content i = some s) :
    t.LinkedOnce i s.hash := by
  obtain ⟨slot, hslot, rfl⟩ := content_eq_some_iff.mp hs
  have hmem : i ∈ a.flatten ++ r.flatten := (ht.mem_chains i).mpr (by simp [hs])
  have hnodup : (a.flatten ++ r.flatten).Nodup := ht.nodup
  obtain ⟨hactive, hretiring, hdisjoint⟩ := List.nodup_append.mp hnodup
  obtain ⟨inActive, hin⟩ : ∃ inActive : Bool, i ∈ (if inActive then a else r).flatten := by
    rcases List.mem_append.mp hmem with h | h
    · exact ⟨true, h⟩
    · exact ⟨false, h⟩
  have hnodup : (if inActive then a else r).flatten.Nodup := by
    cases inActive with
    | true => exact hactive
    | false => exact hretiring
  have hholds := ht.holds_generation inActive
  obtain ⟨chain, hchain, hic⟩ := hholds.mem_chain hin hslot
  refine ⟨inActive, chain, hholds.leads _ chain hchain, ?_, ?_⟩
  · exact List.count_eq_one_of_mem (nodup_chain hnodup hchain) hic
  · intro other b chain' hleads hi
    have hb := (ht.holds_generation other).chain_eq hleads
    have hother := mem_chains_iff.mpr ⟨b, chain', hb, hi⟩
    -- The two generations have no number in common.
    have heq : other = inActive := by
      cases other <;> cases inActive <;> first
        | rfl
        | exact absurd rfl (hdisjoint i hother i hin)
        | exact absurd rfl (hdisjoint i hin i hother)
    subst heq
    exact ⟨rfl, eq_of_mem_chains hnodup hb hchain hi hic⟩

theorem Linked.enumerates (ht : t.Linked [] a r) : t.Enumerates (a.flatten ++ r.flatten) :=
  ⟨ht.nodup, ht.mem_chains⟩

theorem Valid.consistent (ht : t.Valid) : t.Consistent := by
  obtain ⟨a, r, hlinked⟩ := ht.linked
  constructor
  case ends =>
    intro inActive b hb
    have hholds := hlinked.holds_generation inActive
    rw [← hholds.size] at hb
    exact ⟨_, hholds.leads b _ (List.getElem?_eq_getElem hb)⟩
  case chains => exact ⟨_, hlinked.enumerates, hlinked.size_eq, hlinked.toList⟩
  case slots =>
    refine ⟨(List.range t.slots.size).filter fun i => (t.content i).isSome, ⟨?_, ?_⟩, ?_⟩
    · exact List.nodup_range.sublist List.filter_sublist
    · intro i
      rw [List.mem_filter, List.mem_range]
      constructor
      · exact fun h => h.2
      · intro h
        obtain ⟨s, hs⟩ := Option.isSome_iff_exists.mp h
        exact ⟨lt_size_of_content hs, h⟩
    · rw [items_eq, List.filterMap_filter]
      congr 1
      funext i
      rw [get?_eq]
      cases t.content i <;> rfl
  case linked => exact fun _ _ hs => hlinked.linkedOnce hs

end Views

/-! ## One call -/

/-- **One call** succeeds and is a step of the finite map. -/
theorem Valid.call (ht : t.Valid) (c : Call α) :
    ∃ answer t', t.call c = .ok (answer, t') ∧ t'.Valid ∧
      FiniteMap.Step t.content c answer t'.content := by
  cases c with
  | insert hash item =>
    obtain ⟨i, t', h, ht', hfree, hcontent, -⟩ := ht.insert hash item
    exact ⟨.handle i, t', by simp [HashTable.call, h], ht', hcontent ▸ .insert hfree⟩
  | lookup hash p =>
    obtain ⟨found, t', h, ht', hcontent, hsome, hnone⟩ := ht.lookup hash p
    refine ⟨.found found, t', by simp [HashTable.call, h], ht', ?_⟩
    rw [hcontent]
    cases found with
    | some i =>
      obtain ⟨s, hs, rfl, hp⟩ := hsome i rfl
      exact .found hs hp
    | none => exact .missing fun i item hs => hnone rfl i _ hs rfl
  | delete hash p =>
    obtain ⟨found, t', h, ht', hsome, hnone⟩ := ht.delete hash p
    refine ⟨.item found, t', by simp [HashTable.call, h], ht', ?_⟩
    cases found with
    | some item =>
      obtain ⟨i, s, hs, rfl, hp, rfl, hcontent⟩ := hsome item rfl
      rw [hcontent]
      exact .deleted hs hp
    | none =>
      obtain ⟨hcontent, hno⟩ := hnone rfl
      rw [hcontent]
      exact .absent fun i item hs => hno i _ hs rfl
  | remove i =>
    obtain ⟨t', h, ht', hcontent⟩ := ht.remove i
    refine ⟨.item (t.get? i), t', by simp [HashTable.call, h], ht', ?_⟩
    rw [hcontent, get?_eq]
    exact .removed
  | modify i f =>
    obtain ⟨ht', hcontent⟩ := ht.modify i f
    refine ⟨.item (t.get? i), t.modify i f, rfl, ht', ?_⟩
    rw [hcontent, get?_eq]
    exact .modified
  | clear => exact ⟨.done, empty, rfl, valid_empty, .cleared⟩

/-! ## Short slot numbers -/

/-- Adds an item whose slot is known by the lowest 32 bits of its number only. -/
def insertShort (t : HashTable α) (hash : UInt32) (item : α) :
    Except Fault (Nat × HashTable α) := do
  let (index, t) := t.withBuckets.allocate hash item
  let index := index.toUInt32.toNat
  let t ← (← t.place index).help
  return (index, t)

/-- Carries out one call, with slots known by the lowest 32 bits of their numbers only. -/
def callShort (t : HashTable α) : Call α → Except Fault (Answer α × HashTable α)
  | .insert hash item => do
    let (i, t) ← t.insertShort hash item
    return (.handle i, t)
  | c => t.call c

/-- Whether a call leaves fewer items than there are numbers of 32 bits. -/
def LeavesFew (t : HashTable α) (c : Call α) : Prop :=
  ∀ answer t', t.call c = .ok (answer, t') → t'.size < UInt32.size

theorem insertShort_eq {hash : UInt32} {item : α} {i : Nat}
    (h : t.insert hash item = .ok (i, t')) (hi : i < UInt32.size) :
    t.insertShort hash item = .ok (i, t') := by
  obtain ⟨j, t₁, hallocate⟩ : ∃ j t₁, t.withBuckets.allocate hash item = (j, t₁) := ⟨_, _, rfl⟩
  simp only [HashTable.insert, hallocate, bind_eq_ok_iff] at h
  obtain ⟨t₂, hplace, t₃, hhelp, heq⟩ := h
  cases heq
  have hcast : i.toUInt32.toNat = i := UInt32.toNat_ofNat_of_lt hi
  simp only [insertShort, hallocate, hcast, hplace, hhelp, ok_bind]
  rfl

section Sizes

variable {hash : UInt32} {p : α → Bool}

theorem Valid.slots_size_of_lookup (ht : t.Valid) {found : Option Nat}
    (h : t.lookup hash p = .ok (found, t')) : t'.slots.size = t.slots.size := by
  obtain ⟨t₁, hhelp, -, -, hslots⟩ := ht.help
  simp only [HashTable.lookup, HashTable.lookupBy, hhelp, ok_bind] at h
  obtain ⟨_, -, heq⟩ := bind_eq_ok_iff.mp h
  cases heq
  exact hslots

theorem Valid.slots_size_of_delete (ht : t.Valid) {item : Option α}
    (h : t.delete hash p = .ok (item, t')) : t'.slots.size = t.slots.size := by
  obtain ⟨t₁, hhelp, -, -, hslots⟩ := ht.help
  simp only [HashTable.delete, hhelp, ok_bind] at h
  obtain ⟨found, -, h⟩ := bind_eq_ok_iff.mp h
  cases found with
  | none =>
    cases h
    exact hslots
  | some found =>
    obtain ⟨_, hrelease, heq⟩ := bind_eq_ok_iff.mp h
    cases heq
    exact (slots_size_of_unlinkAndRelease hrelease).trans hslots

theorem Valid.slots_size_of_remove (ht : t.Valid) {i : Nat} {item : Option α}
    (h : t.remove i = .ok (item, t')) : t'.slots.size = t.slots.size := by
  obtain ⟨t₁, hhelp, -, -, hslots⟩ := ht.help
  simp only [HashTable.remove, hhelp, ok_bind] at h
  split at h
  · cases h
    exact hslots
  · obtain ⟨found, -, h⟩ := bind_eq_ok_iff.mp h
    cases found with
    | none =>
      cases h
      exact hslots
    | some found =>
      obtain ⟨_, hrelease, heq⟩ := bind_eq_ok_iff.mp h
      cases heq
      exact (slots_size_of_unlinkAndRelease hrelease).trans hslots

/-- **A slot is added** only when all of them are in use. -/
theorem Valid.slots_size_of_call (ht : t.Valid) {c : Call α} {answer : Answer α}
    (h : t.call c = .ok (answer, t')) :
    t'.slots.size ≤ t.slots.size ∨
      t'.slots.size = t.slots.size + 1 ∧ t'.slots.size = t'.size := by
  cases c with
  | insert hash item =>
    obtain ⟨i, t'', hinsert, -, -, -, hsize⟩ := ht.insert hash item
    simp only [HashTable.call, hinsert, ok_bind, pure_eq_ok] at h
    cases h
    exact hsize
  | lookup hash p =>
    obtain ⟨_, hlookup, heq⟩ := bind_eq_ok_iff.mp h
    cases heq
    exact .inl (Nat.le_of_eq (ht.slots_size_of_lookup hlookup))
  | delete hash p =>
    obtain ⟨_, hdelete, heq⟩ := bind_eq_ok_iff.mp h
    cases heq
    exact .inl (Nat.le_of_eq (ht.slots_size_of_delete hdelete))
  | remove i =>
    obtain ⟨_, hremove, heq⟩ := bind_eq_ok_iff.mp h
    cases heq
    exact .inl (Nat.le_of_eq (ht.slots_size_of_remove hremove))
  | modify i f =>
    cases h
    exact .inl (Nat.le_of_eq (by simp [HashTable.modify]))
  | clear =>
    cases h
    exact .inl (Nat.zero_le _)

end Sizes

/-- Every item has a slot of its own. -/
theorem Valid.size_le (ht : t.Valid) : t.size ≤ t.slots.size := by
  obtain ⟨a, r, hlinked⟩ := ht.linked
  rw [hlinked.slots_size_eq]
  omega

/-- **A call with short slot numbers** does the same, as long as it leaves fewer items than there
are such numbers. -/
theorem Valid.callShort (ht : t.Valid) (hslots : t.slots.size ≤ UInt32.size) {c : Call α}
    {answer : Answer α} (h : t.call c = .ok (answer, t')) (hsize : t'.size < UInt32.size) :
    t.callShort c = .ok (answer, t') ∧ t'.slots.size ≤ UInt32.size := by
  have hslots' : t'.slots.size ≤ UInt32.size := by
    rcases ht.slots_size_of_call h with hle | ⟨-, heq⟩
    · exact Nat.le_trans hle hslots
    · exact heq ▸ Nat.le_of_lt hsize
  refine ⟨?_, hslots'⟩
  cases c with
  | insert hash item =>
    obtain ⟨i, t'', hinsert, -, -, hcontent, -⟩ := ht.insert hash item
    simp only [HashTable.call, hinsert, ok_bind, pure_eq_ok] at h
    cases h
    have hi : i < t'.slots.size := lt_size_of_content (x := ⟨hash, item⟩) (by simp [hcontent])
    simp [HashTable.callShort, insertShort_eq hinsert (Nat.lt_of_lt_of_le hi hslots')]
  | lookup hash p => exact h
  | delete hash p => exact h
  | remove i => exact h
  | modify i f => exact h
  | clear => exact h

/-! ## Calls in turn -/

theorem simulates_call :
    Calls.Simulates call (fun _ _ => True) FiniteMap.Step
      fun (t : HashTable α) m => t.Valid ∧ t.content = m := by
  rintro t _ c ⟨ht, rfl⟩ -
  obtain ⟨answer, t', hcall, ht', hstep⟩ := ht.call c
  exact ⟨answer, t', t'.content, hcall, hstep, ht', rfl⟩

/-- Fewer calls than there are short numbers leave fewer items than that. -/
theorem Valid.admissible_leavesFew (ht : t.Valid) {calls : List (Call α)}
    (hlength : t.slots.size + calls.length < UInt32.size) :
    Calls.Admissible HashTable.call LeavesFew t calls := by
  induction calls generalizing t with
  | nil => trivial
  | cons c cs ih =>
    obtain ⟨answer, t₁, hcall, ht₁, -⟩ := ht.call c
    have hslots := ht.slots_size_of_call hcall
    rw [List.length_cons] at hlength
    apply Calls.Admissible.cons answer t₁ _ hcall
    · exact ih ht₁ (by omega)
    · intro answer' t' hcall'
      cases hcall.symm.trans hcall'
      have := ht₁.size_le
      omega

/-- **A hash table refines a finite map.**  On an empty table any calls in any order succeed, and
each answers what the finite map may answer and leaves a table that shows the map in every view.
With slot numbers of 32 bits they do the same, as long as every call leaves fewer items than there
are such numbers. -/
theorem run_empty_refines (calls : List (Call α)) :
    ∃ answers t m, Calls.run call (empty : HashTable α) calls = .ok (answers, t) ∧
      Calls.Follows call FiniteMap.Step Shows empty (fun _ => none) calls answers t m ∧
      (Calls.Admissible call LeavesFew empty calls →
        Calls.run callShort empty calls = .ok (answers, t)) := by
  have hshows : ∀ (t : HashTable α) m, t.Valid ∧ t.content = m → t.Shows m := fun t m h =>
    ⟨h.2, h.1.consistent⟩
  obtain ⟨answers, t, m, hrun, hfollows⟩ :=
    Calls.run_simulates simulates_call hshows ⟨valid_empty, content_empty⟩
      (Calls.admissible_of_forall (fun _ _ => trivial) calls)
  refine ⟨answers, t, m, hrun, hfollows, fun hfew => ?_⟩
  refine Calls.run_eq_of_call_eq (P := fun t => t.Valid ∧ t.slots.size ≤ UInt32.size) ?_
    ⟨valid_empty, Nat.zero_le _⟩ hfew hrun
  rintro t c answer t' ⟨ht, hslots⟩ hleaves hcall
  obtain ⟨_, t'', hcall', ht', -⟩ := ht.call c
  cases hcall.symm.trans hcall'
  obtain ⟨hwords, hslots'⟩ := ht.callShort hslots hcall (hleaves answer t' hcall)
  exact ⟨hwords, ht', hslots'⟩

/-- Two items share a hash code; the first one leaves, and its slot is filled again. -/
theorem run_empty_refines_collided :
    let calls : List (Call Nat) :=
      [.insert 3 10, .insert 3 20, .remove 0, .lookup 3 (· == 20), .insert 7 30]
    Calls.Admissible call LeavesFew empty calls ∧
      ∃ answers t m, Calls.run call empty calls = .ok (answers, t) ∧
        Calls.Follows call FiniteMap.Step Shows empty (fun _ => none) calls answers t m ∧
        Calls.run callShort empty calls = .ok (answers, t) := by
  intro calls
  have hfew : Calls.Admissible call LeavesFew empty calls :=
    valid_empty.admissible_leavesFew (by decide)
  obtain ⟨answers, t, m, hrun, hfollows, hwords⟩ := run_empty_refines calls
  exact ⟨hfew, answers, t, m, hrun, hfollows, hwords hfew⟩

end KeyServer.HashTable
