import KeyServer.Proofs.Calls
import KeyServer.Proofs.DeadlineHeap.Order
import Mathlib.Data.List.Nodup

/-! # A heap of deadlines is a finite map from owners to times

Owners set and unset their deadlines in any order; all they know is the position that was
reported last for them (`Watched`).  `Roster.Step` says what such a call may answer and leave when
the heap is read as a list of deadlines, one for an owner, and of the positions that they stand at:
which positions these are is left open, but whoever moved is told (`Roster.Tells`).

* **`settle_last`**: the item that finds its place is reported last, with that place.
* **`run_empty_shows`**: on an empty heap all calls succeed and are such steps, and in between the
  heap is in order, has just the deadlines that were set and not unset, and every owner's note is
  right (`Shows`).
-/

namespace KeyServer.DeadlineHeap

variable {ρ : Type} {items : Array (Deadline ρ)} {i : Nat}

/-! ## The last report -/

/-- A report in front does not change which one is last. -/
theorem Settled.report_last {s : Settled ρ} {owner other : ρ} {position : Nat}
    (h : ∃ before, s.moves = before ++ [(owner, s.position)]) :
    ∃ before, (s.report other position).moves = before ++ [(owner, s.position)] := by
  obtain ⟨before, hmoves⟩ := h
  exact ⟨(other, position) :: before, by rw [report, hmoves, List.cons_append]⟩

theorem siftUp_last (items : Array (Deadline ρ)) (i : Nat) (hi : i < items.size) :
    ∃ before, (siftUp items i hi).moves
      = before ++ [(items[i].owner, (siftUp items i hi).position)] := by
  induction items, i, hi using siftUp.induct with
  | case1 items i hi above hp hlt ih =>
    rw [siftUp, dif_pos hp]
    rw [Array.getElem_swap_right] at ih
    exact Settled.report_last ih
  | case2 items i hi above hp =>
    rw [siftUp, dif_neg hp]
    exact ⟨[], rfl⟩

theorem siftDown_last (items : Array (Deadline ρ)) (i : Nat) (hi : i < items.size) :
    ∃ before, (siftDown items i hi).moves
      = before ++ [(items[i].owner, (siftDown items i hi).position)] := by
  induction items, i, hi using siftDown.induct with
  | case1 items i hi hle hb hbest =>
    rw [siftDown, hbest]
    dsimp only
    rw [if_pos rfl]
    exact ⟨[], rfl⟩
  | case2 items i hi best hle hb hbest hmove ih =>
    rw [siftDown, hbest]
    dsimp only
    rw [if_neg hmove]
    rw [Array.getElem_swap_right] at ih
    exact Settled.report_last ih

/-- **The item that finds its place** is reported last. -/
theorem settle_last (items : Array (Deadline ρ)) (i : Nat) (hi : i < items.size) :
    ∃ before, (settle items i hi).moves
      = before ++ [(items[i].owner, (settle items i hi).position)] := by
  unfold settle
  dsimp only
  split
  · exact siftUp_last items i hi
  · exact siftDown_last items i hi

theorem upsert_last (heap : DeadlineHeap ρ) (pos : Option Nat) (item : Deadline ρ) :
    ∃ before, (heap.upsert pos item).moves
      = before ++ [(item.owner, (heap.upsert pos item).position)] := by
  have hpush := settle_last (heap.items.push item) heap.items.size (by simp)
  rw [Array.getElem_push_eq] at hpush
  unfold upsert
  dsimp only
  split
  · next pos =>
    split
    · next hp =>
      have hset := settle_last (heap.items.set pos item) pos (by simpa using hp)
      rwa [Array.getElem_set_self] at hset
    · exact hpush
  · exact hpush

/-- What is deleted is the deadline at the position. -/
theorem delete_item (heap : DeadlineHeap ρ) (p : Nat) : (heap.delete p).1 = heap.items[p]? := by
  unfold delete
  split
  · next hp =>
    dsimp only
    split <;> simp [hp]
  · next hp => simp [Nat.not_lt.mp hp]

/-! ## Calls -/

/-- A heap whose owners note the positions reported for them. -/
structure Watched (ρ : Type) where
  heap : DeadlineHeap ρ
  /-- What an owner noted last. -/
  position : ρ → Option Nat

/-- What owners do. -/
inductive Call (ρ : Type) where
  /-- An owner sets its deadline, its first one or another one. -/
  | set (owner : ρ) (expiresAt : Nat)
  /-- An owner gives up its deadline, if it has one. -/
  | unset (owner : ρ)

/-- What a call answers, and the reports it makes. -/
inductive Answer (ρ : Type) where
  /-- The deadline stands at a position. -/
  | placed (position : Nat) (moves : List (ρ × Nat))
  /-- A deadline was deleted, if there was one. -/
  | deleted (item : Option (Deadline ρ)) (moves : List (ρ × Nat))

variable [DecidableEq ρ]

namespace Watched

/-- An empty heap. -/
def empty : Watched ρ := ⟨DeadlineHeap.empty, fun _ => none⟩

/-- Carries out one call.  Owners note nothing but the reports, and forget the position of a deleted
deadline. -/
def call (w : Watched ρ) : Call ρ → Except Fault (Answer ρ × Watched ρ)
  | .set owner expiresAt =>
    let s := w.heap.upsert (w.position owner) ⟨expiresAt, owner⟩
    .ok (.placed s.position s.moves, ⟨s.heap, noted w.position s.moves⟩)
  | .unset owner =>
    match w.position owner with
    | none => .ok (.deleted none [], w)
    | some pos =>
      let (item, heap, moves) := w.heap.delete pos
      .ok (.deleted item moves, ⟨heap, noted (Function.update w.position owner none) moves⟩)

end Watched

/-! ## The finite map -/

/-- Deadlines, one for an owner, and the positions that they stand at. -/
structure Roster (ρ : Type) where
  deadlines : List (Deadline ρ)
  position : ρ → Option Nat

namespace Roster

/-- The deadlines of all owners but one. -/
def others (m : Roster ρ) (owner : ρ) : List (Deadline ρ) :=
  m.deadlines.filter fun d => d.owner ≠ owner

omit [DecidableEq ρ] in
/-- Whether some reports tell where everybody went. -/
structure Tells (m m' : Roster ρ) (moves : List (ρ × Nat)) : Prop where
  /-- Whoever stands at another position than before is reported. -/
  moved : ∀ o p, m'.position o = some p → m.position o ≠ some p → ∃ q, (o, q) ∈ moves
  /-- The last report of an owner is where it stands. -/
  last : ∀ before o p after, moves = before ++ (o, p) :: after → (∀ x ∈ after, x.1 ≠ o) →
    m'.position o = some p
  /-- Nobody else is reported. -/
  present : ∀ o q, (o, q) ∈ moves → ∃ d ∈ m'.deadlines, d.owner = o

/-- What a call may answer and leave. -/
inductive Step : Roster ρ → Call ρ → Answer ρ → Roster ρ → Prop where
  | set {m m' : Roster ρ} {owner : ρ} {expiresAt p : Nat} {moves : List (ρ × Nat)}
      (hdeadlines : m'.deadlines = ⟨expiresAt, owner⟩ :: m.others owner)
      (hposition : m'.position owner = some p) (htells : m.Tells m' moves) :
      Step m (.set owner expiresAt) (.placed p moves) m'
  | unset {m m' : Roster ρ} {d : Deadline ρ} {moves : List (ρ × Nat)} (hd : d ∈ m.deadlines)
      (hdeadlines : m'.deadlines = m.others d.owner) (hposition : m'.position d.owner = none)
      (htells : m.Tells m' moves) : Step m (.unset d.owner) (.deleted (some d) moves) m'
  | missing {m : Roster ρ} {owner : ρ} (hnone : ∀ d ∈ m.deadlines, d.owner ≠ owner) :
      Step m (.unset owner) (.deleted none []) m

end Roster

omit [DecidableEq ρ] in
/-- A heap in order has some deadlines, and all owners know where theirs are. -/
structure Shows (w : Watched ρ) (m : Roster ρ) : Prop where
  ordered : Ordered w.heap.items
  items : w.heap.items.toList.Perm m.deadlines
  distinct : (m.deadlines.map (·.owner)).Nodup
  /-- At a position stands its owner, and nobody else has one. -/
  tracks : Tracks m.position w.heap.items
  notes : w.position = m.position

/-! ## Every call -/

omit [DecidableEq ρ] in
/-- Nobody has two deadlines. -/
theorem Tracks.nodup {f : ρ → Option Nat} (h : Tracks f items) :
    (items.toList.map (·.owner)).Nodup := by
  rw [List.nodup_iff_injective_getElem]
  rintro ⟨j, hj⟩ ⟨k, hk⟩ heq
  rw [List.length_map, Array.length_toList] at hj hk
  simp only [List.getElem_map, Array.getElem_toList] at heq
  have hfj := h.eq_some hj
  rw [heq, h.eq_some hk, Option.some_inj] at hfj
  exact Fin.ext hfj.symm

/-- Owners who note the reports are told where everybody went. -/
theorem Roster.tells_noted {m m' : Roster ρ} {f : ρ → Option Nat} {moves : List (ρ × Nat)}
    (hf : ∀ o p, f o = some p → m.position o = some p) (hnoted : m'.position = noted f moves)
    (hstands : ∀ o p, m'.position o = some p → ∃ d ∈ m'.deadlines, d.owner = o) :
    m.Tells m' moves where
  moved o p hp hmoved := by
    by_contra hnone
    rw [hnoted, noted_of_notMem] at hp
    · exact hmoved (hf o p hp)
    · rintro ⟨o', q⟩ hq rfl
      exact hnone ⟨q, hq⟩
  last before o p after hmoves hafter := by
    rw [hnoted, hmoves, noted_append_cons before hafter]
  present o q hq := by
    obtain ⟨p, hp⟩ := exists_noted (f := f) hq
    exact hstands o p (hnoted ▸ hp)

namespace Shows

variable {w : Watched ρ} {m : Roster ρ}

omit [DecidableEq ρ] in
theorem empty : Shows (Watched.empty : Watched ρ) ⟨[], fun _ => none⟩ where
  ordered := ordered_empty
  items := .refl _
  distinct := .nil
  tracks := tracks_empty
  notes := rfl

omit [DecidableEq ρ] in
/-- Owners who stand somewhere have a deadline. -/
theorem exists_deadline (h : Shows w m) {o : ρ} {p : Nat} (hp : m.position o = some p) :
    ∃ d ∈ m.deadlines, d.owner = o := by
  obtain ⟨hlt, hown⟩ := ownerAt_eq_some_iff.mp ((h.tracks o p).mp hp)
  exact ⟨_, h.items.mem_iff.mp (Array.getElem_mem_toList hlt), hown⟩

omit [DecidableEq ρ] in
/-- Heaps with the same deadlines of the same owners. -/
theorem of_mem {heap : DeadlineHeap ρ} {f : ρ → Option Nat} {deadlines : List (Deadline ρ)}
    (hordered : Ordered heap.items) (htracks : Tracks f heap.items)
    (hdistinct : (deadlines.map (·.owner)).Nodup)
    (hmem : ∀ d, d ∈ heap.items ↔ d ∈ deadlines) : Shows ⟨heap, f⟩ ⟨deadlines, f⟩ where
  ordered := hordered
  items := by
    refine (List.perm_ext_iff_of_nodup (.of_map _ htracks.nodup) (.of_map _ hdistinct)).mpr ?_
    simpa using hmem
  distinct := hdistinct
  tracks := htracks
  notes := rfl

theorem mem_others (h : Shows w m) {owner : ρ} {d : Deadline ρ} :
    d ∈ m.others owner ↔ d.owner ≠ owner ∧ d ∈ w.heap.items := by
  rw [Roster.others, List.mem_filter, ← h.items.mem_iff, Array.mem_toList_iff, decide_eq_true_eq,
    and_comm]

/-- A heap that keeps the deadlines of the others. -/
theorem of_mem_others (h : Shows w m) {heap : DeadlineHeap ρ} {f : ρ → Option Nat} {owner : ρ}
    (hordered : Ordered heap.items) (htracks : Tracks f heap.items)
    (hmem : ∀ d, d ∈ heap.items ↔ d.owner ≠ owner ∧ d ∈ w.heap.items) :
    Shows ⟨heap, f⟩ ⟨m.others owner, f⟩ := by
  refine of_mem hordered htracks (h.distinct.sublist (List.filter_sublist.map _)) fun d => ?_
  rw [hmem, ← h.mem_others]

/-- **Setting a deadline.** -/
theorem set (h : Shows w m) (owner : ρ) (expiresAt : Nat) :
    ∃ answer w' m', w.call (.set owner expiresAt) = .ok (answer, w') ∧
      m.Step (.set owner expiresAt) answer m' ∧ Shows w' m' := by
  have htracks : Tracks w.position w.heap.items := h.notes ▸ h.tracks
  obtain ⟨htracks', -⟩ := upsert_tracks htracks ⟨expiresAt, owner⟩
  obtain ⟨before, hlast⟩ := upsert_last w.heap (w.position owner) ⟨expiresAt, owner⟩
  have hshows : Shows
      ⟨(w.heap.upsert (w.position owner) ⟨expiresAt, owner⟩).heap,
        noted w.position (w.heap.upsert (w.position owner) ⟨expiresAt, owner⟩).moves⟩
      ⟨⟨expiresAt, owner⟩ :: m.others owner,
        noted w.position (w.heap.upsert (w.position owner) ⟨expiresAt, owner⟩).moves⟩ := by
    refine of_mem (upsert_ordered h.ordered _ _) htracks' ?_ fun d => ?_
    · refine List.nodup_cons.mpr ⟨?_, h.distinct.sublist (List.filter_sublist.map _)⟩
      simp [Roster.others]
    · rw [mem_upsert htracks ⟨expiresAt, owner⟩, List.mem_cons, h.mem_others]
  refine ⟨_, _, _, rfl, ?_, hshows⟩
  refine .set rfl ?_ ?_
  · rw [hlast]
    exact noted_append_cons before (by simp)
  · refine Roster.tells_noted (fun o p hp => ?_) rfl fun o p hp => hshows.exists_deadline hp
    rwa [← h.notes]

/-- **Giving up a deadline.** -/
theorem unset (h : Shows w m) (owner : ρ) :
    ∃ answer w' m', w.call (.unset owner) = .ok (answer, w') ∧
      m.Step (.unset owner) answer m' ∧ Shows w' m' := by
  have htracks : Tracks w.position w.heap.items := h.notes ▸ h.tracks
  cases hpos : w.position owner with
  | none =>
    refine ⟨.deleted none [], w, m, by simp [Watched.call, hpos], .missing fun d hd => ?_, h⟩
    rintro rfl
    obtain ⟨p, hp, -⟩ := htracks.mem_iff.mp (Array.mem_toList_iff.mp (h.items.mem_iff.mpr hd))
    rw [hpos] at hp
    cases hp
  | some p =>
    obtain ⟨hp, rfl⟩ := ownerAt_eq_some_iff.mp ((htracks _ p).mp hpos)
    obtain ⟨htracks', hothers⟩ := delete_tracks htracks hpos
    have hshows := h.of_mem_others (delete_ordered h.ordered p) htracks'
      fun d => mem_delete htracks hpos
    have hd : w.heap.items[p] ∈ m.deadlines := h.items.mem_iff.mp (Array.getElem_mem_toList hp)
    refine ⟨.deleted (some w.heap.items[p]) (w.heap.delete p).2.2, _, _, ?_,
      .unset hd rfl ?_ ?_, hshows⟩
    · simp only [Watched.call, hpos, delete_item, Array.getElem?_eq_getElem hp]
    · dsimp only
      rw [noted_of_notMem fun x hx => (hothers x hx).1, Function.update_self]
    · refine Roster.tells_noted (fun o q hq => ?_) rfl fun o q hq => hshows.exists_deadline hq
      rw [Function.update_apply] at hq
      split at hq
      · cases hq
      · rwa [← h.notes]

/-- **Every call** succeeds and is a step of the finite map. -/
theorem simulates_call :
    Calls.Simulates Watched.call (fun _ _ => True) Roster.Step (Shows (ρ := ρ)) := by
  intro w m c h _
  cases c with
  | set owner expiresAt => exact h.set owner expiresAt
  | unset owner => exact h.unset owner

end Shows

/-- **A heap of deadlines refines a finite map.**  On an empty heap owners set and unset their
deadlines in any order, knowing only what was reported to them.  The answers and reports are right,
and before and after each call the heap is in order, has just the deadlines of the map, and every
owner, and nobody else, knows where its deadline stands. -/
theorem run_empty_shows (calls : List (Call ρ)) :
    ∃ answers w m, Calls.run Watched.call Watched.empty calls = .ok (answers, w) ∧
      Calls.Follows Watched.call Roster.Step Shows Watched.empty ⟨[], fun _ => none⟩ calls answers
        w m :=
  Calls.run_simulates Shows.simulates_call (fun _ _ h => h) Shows.empty
    (Calls.admissible_of_forall (fun _ _ => trivial) calls)

end KeyServer.DeadlineHeap
