import KeyServer.Engine.Expiry
import KeyServer.Proofs.DeadlineHeap.Tracking
import KeyServer.Proofs.HashTable.Operations

/-! # Entries know their deadlines

The entries of an engine note where their deadlines are in the heap; `indexOf c` reads
these notes off the content `c` of the keyspace.  Whatever the engine does with deadlines,
entries differ afterwards in their notes only (`withIndex`), and the notes keep track of
the heap:

* **`deleteDeadline_spec`** for the deadline of one entry, which may be gone already;
* **`upsert_spec`** for a new or changed deadline.
-/

namespace KeyServer.Engine

/-- What the slots of a keyspace hold. -/
abbrev Content := Nat → Option (Hashed Entry)

/-- The noted position of the deadline of an entry. -/
def indexOf (c : Content) (h : Nat) : Option Nat := (c h).bind (·.item.heapIndex)

/-- A slot with another note. -/
def withIndex (index : Option Nat) (slot : Hashed Entry) : Hashed Entry :=
  { slot with item := { slot.item with heapIndex := index } }

theorem indexOf_eq {c : Content} {h : Nat} {slot : Hashed Entry} (hh : c h = some slot) :
    indexOf c h = slot.item.heapIndex := by
  simp [indexOf, hh]

theorem indexOf_eq_none {c : Content} {h : Nat} (hh : c h = none) : indexOf c h = none := by
  simp [indexOf, hh]

/-- What is noted for one owner depends on its own position and the reports. -/
theorem noted_congr {f g : Nat → Option Nat} {o : Nat} (moves : List (Nat × Nat))
    (h : f o = g o) : DeadlineHeap.noted f moves o = DeadlineHeap.noted g moves o := by
  induction moves generalizing f g with
  | nil => exact h
  | cons m moves ih =>
    obtain ⟨p, q⟩ := m
    rw [DeadlineHeap.noted_cons, DeadlineHeap.noted_cons]
    exact ih (by rw [Function.update_apply, Function.update_apply, h])

/-- Every slot with the note that `f` has for it. -/
def withNotes (c : Content) (f : Nat → Option Nat) : Content := fun h => (c h).map (withIndex (f h))

theorem withNotes_indexOf (c : Content) : withNotes c (indexOf c) = c := by
  funext h
  cases hh : c h with
  | none => simp [withNotes, hh]
  | some slot => simp [withNotes, hh, indexOf, withIndex]

theorem indexOf_withNotes {c : Content} {h : Nat} {slot : Hashed Entry} (hh : c h = some slot)
    (f : Nat → Option Nat) : indexOf (withNotes c f) h = f h := by
  simp [indexOf, withNotes, hh, withIndex]

/-- Noting one position. -/
theorem update_withIndex (c : Content) (o p : Nat) :
    Function.update c o ((c o).map (withIndex (some p)))
      = withNotes c (Function.update (indexOf c) o (some p)) := by
  funext h
  by_cases ho : h = o
  · subst ho
    simp [withNotes]
  · rw [Function.update_of_ne ho, withNotes, Function.update_of_ne ho]
    exact (congrFun (withNotes_indexOf c) h).symm

/-- **Noting moves** changes notes only. -/
theorem noteMoves_spec {t : HashTable Entry} (ht : t.Valid) (moves : List (Nat × Nat)) :
    (noteMoves t moves).Valid ∧ (noteMoves t moves).content
      = withNotes t.content (DeadlineHeap.noted (indexOf t.content) moves) := by
  induction moves generalizing t with
  | nil => exact ⟨ht, (withNotes_indexOf t.content).symm⟩
  | cons m moves ih =>
    obtain ⟨o, p⟩ := m
    obtain ⟨ht₁, hcontent₁⟩ := ht.modify o fun entry => { entry with heapIndex := some p }
    obtain ⟨hvalid, hcontent⟩ := ih ht₁
    refine ⟨hvalid, hcontent.trans ?_⟩
    rw [hcontent₁.trans (update_withIndex t.content o p), DeadlineHeap.noted_cons]
    funext h
    cases hh : t.content h with
    | none => simp [withNotes, hh]
    | some slot =>
      rw [withNotes, noted_congr moves (indexOf_withNotes hh _)]
      simp [withNotes, hh, withIndex]

/-- The notes after moves of entries that are there. -/
theorem indexOf_noteMoves {c : Content} {g : Nat → Option Nat} {h : Nat} {moves : List (Nat × Nat)}
    (hg : g h = indexOf c h) (hmoves : c h = none → ∀ m ∈ moves, m.1 ≠ h) :
    indexOf (withNotes c (DeadlineHeap.noted (indexOf c) moves)) h
      = DeadlineHeap.noted g moves h := by
  cases hh : c h with
  | none =>
    rw [DeadlineHeap.noted_of_notMem (hmoves hh), hg]
    simp [indexOf, withNotes, hh]
  | some slot => rw [indexOf_withNotes hh, noted_congr moves hg]

/-- Entries that differ in their notes only. -/
def SameEntries (c c' : Content) : Prop :=
  ∀ h, (c' h).map (withIndex none) = (c h).map (withIndex none)

theorem sameEntries_withNotes (c : Content) (f : Nat → Option Nat) :
    SameEntries c (withNotes c f) := by
  intro h
  rw [withNotes]
  cases c h <;> rfl

/-- **Deleting the deadline** of an entry keeps track of all others, also when the entry
itself is no longer there. -/
theorem deleteDeadline_spec {e : Engine} {f : Nat → Option Nat} {o p : Nat}
    (ht : e.keyspace.Valid) (hf : DeadlineHeap.Tracks f e.deadlines.items) (ho : f o = some p)
    (hnotes : ∀ h, h ≠ o → indexOf e.keyspace.content h = f h) :
    (e.deleteDeadline p).keyspace.Valid ∧
      SameEntries e.keyspace.content (e.deleteDeadline p).keyspace.content ∧
      ∃ g, DeadlineHeap.Tracks g (e.deleteDeadline p).deadlines.items ∧ g o = none ∧
        ∀ h, h ≠ o → indexOf (e.deleteDeadline p).keyspace.content h = g h := by
  obtain ⟨htracks, hmoves⟩ := DeadlineHeap.delete_tracks hf ho
  have hdelete : e.deleteDeadline p = { e with
      deadlines := (e.deadlines.delete p).2.1
      keyspace := noteMoves e.keyspace (e.deadlines.delete p).2.2 } := rfl
  obtain ⟨hvalid, hcontent⟩ := noteMoves_spec ht (e.deadlines.delete p).2.2
  rw [hdelete]
  refine ⟨hvalid, ?_, _, htracks, ?_, fun h hh => ?_⟩
  · rw [hcontent]
    exact sameEntries_withNotes _ _
  · rw [DeadlineHeap.noted_of_notMem fun m hm => (hmoves m hm).1, Function.update_self]
  · rw [hcontent]
    refine indexOf_noteMoves ?_ fun hnone m hm heq => ?_
    · rw [Function.update_of_ne hh, hnotes h hh]
    · -- Only owners with a deadline move, and an entry that is gone has none.
      have hsome := (hmoves m hm).2
      rw [heq, ← hnotes h hh, indexOf_eq_none hnone] at hsome
      cases hsome

/-- **Setting the deadline** of an entry keeps track of all. -/
theorem upsert_spec {e : Engine} {o : Nat} {slot : Hashed Entry} (ht : e.keyspace.Valid)
    (hf : DeadlineHeap.Tracks (indexOf e.keyspace.content) e.deadlines.items)
    (ho : e.keyspace.content o = some slot) (expiresAt : Nat) {settled : DeadlineHeap.Settled Nat}
    (hsettled : e.deadlines.upsert slot.item.heapIndex ⟨expiresAt, o⟩ = settled) :
    (noteMoves e.keyspace settled.moves).Valid ∧
      SameEntries e.keyspace.content (noteMoves e.keyspace settled.moves).content ∧
      DeadlineHeap.Tracks (indexOf (noteMoves e.keyspace settled.moves).content)
        settled.heap.items := by
  have hindex := indexOf_eq ho
  obtain ⟨htracks, hmoves⟩ := DeadlineHeap.upsert_tracks hf ⟨expiresAt, o⟩
  rw [hindex, hsettled] at htracks hmoves
  obtain ⟨hvalid, hcontent⟩ := noteMoves_spec ht settled.moves
  refine ⟨hvalid, ?_, ?_⟩
  · rw [hcontent]
    exact sameEntries_withNotes _ _
  · have hall : indexOf (noteMoves e.keyspace settled.moves).content
        = DeadlineHeap.noted (indexOf e.keyspace.content) settled.moves := by
      rw [hcontent]
      funext h
      refine indexOf_noteMoves rfl fun hnone m hm heq => ?_
      rcases hmoves m hm with hm' | hm'
      · have hm' : m.1 = o := hm'
        rw [← heq, hm', ho] at hnone
        cases hnone
      · rw [heq, indexOf_eq_none hnone] at hm'
        cases hm'
    rwa [hall]

end KeyServer.Engine
