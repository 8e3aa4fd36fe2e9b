import KeyServer.DeadlineHeap
import Mathlib.Logic.Function.Basic

/-! # Owners keep track of their deadlines

An owner that notes every position reported for it always knows where its deadline is.
`Tracks f items` says so of the noted positions `f`: they are exactly the positions at
which the owners are found.  A heap in which only the item at one position is not tracked
yet is tracked once the reports of settling it are noted (`settle_tracks`); so the
operations keep all owners up to date (`upsert_tracks`, `delete_tracks`).
-/

namespace KeyServer.DeadlineHeap

variable {ρ : Type} {items : Array (Deadline ρ)}

/-- The owner of the deadline at a position. -/
def ownerAt (items : Array (Deadline ρ)) (p : Nat) : Option ρ := items[p]?.map (·.owner)

/-- The positions of the owners, and of nobody else. -/
def Tracks (f : ρ → Option Nat) (items : Array (Deadline ρ)) : Prop :=
  ∀ o p, f o = some p ↔ ownerAt items p = some o

theorem ownerAt_eq {p : Nat} (h : p < items.size) : ownerAt items p = some items[p].owner := by
  simp [ownerAt, h]

theorem ownerAt_eq_some_iff {p : Nat} {o : ρ} :
    ownerAt items p = some o ↔ ∃ h : p < items.size, items[p].owner = o := by
  simp [ownerAt, Array.getElem?_eq_some_iff]

theorem ownerAt_swap {i j : Nat} (hi : i < items.size) (hj : j < items.size) (p : Nat) :
    ownerAt (items.swap i j) p =
      if p = j then some items[i].owner else if p = i then some items[j].owner
      else ownerAt items p := by
  unfold ownerAt
  rw [Array.getElem?_swap]
  simp only [eq_comm (a := p)]
  split
  · rfl
  · split <;> rfl

/-- A deadline is replaced by another one of its owner. -/
theorem ownerAt_set {p : Nat} (hp : p < items.size) {item : Deadline ρ}
    (howner : items[p].owner = item.owner) (q : Nat) :
    ownerAt (items.set p item) q = ownerAt items q := by
  rw [ownerAt, ownerAt, Array.getElem?_set]
  split
  · next hq =>
    subst hq
    simp [hp, howner]
  · rfl

theorem ownerAt_push (item : Deadline ρ) (q : Nat) :
    ownerAt (items.push item) q
      = if q = items.size then some item.owner else ownerAt items q := by
  rw [ownerAt, ownerAt, Array.getElem?_push]
  split <;> rfl

theorem ownerAt_pop (q : Nat) :
    ownerAt items.pop q = if q < items.size - 1 then ownerAt items q else none := by
  rw [ownerAt, ownerAt, Array.getElem?_pop]
  split <;> rfl

variable [DecidableEq ρ] {f : ρ → Option Nat}

/-- Positions with some reports noted. -/
def noted (f : ρ → Option Nat) (moves : List (ρ × Nat)) : ρ → Option Nat :=
  moves.foldl (fun f m => Function.update f m.1 (some m.2)) f

theorem noted_cons (f : ρ → Option Nat) (o : ρ) (p : Nat) (moves : List (ρ × Nat)) :
    noted f ((o, p) :: moves) = noted (Function.update f o (some p)) moves := rfl

/-- Whoever is not reported stays where he is. -/
theorem noted_of_notMem {o : ρ} {moves : List (ρ × Nat)} (h : ∀ m ∈ moves, m.1 ≠ o) :
    noted f moves o = f o := by
  induction moves generalizing f with
  | nil => rfl
  | cons m moves ih =>
    rw [noted, List.foldl_cons, ← noted, ih fun m' hm' => h m' (List.mem_cons_of_mem m hm'),
      Function.update_of_ne (Ne.symm (h m List.mem_cons_self))]

/-- The last report of an owner counts. -/
theorem noted_append_cons {o : ρ} {p : Nat} (before : List (ρ × Nat)) {after : List (ρ × Nat)}
    (h : ∀ m ∈ after, m.1 ≠ o) : noted f (before ++ (o, p) :: after) o = some p := by
  rw [noted, List.foldl_append, List.foldl_cons, ← noted, noted_of_notMem h, Function.update_self]

/-- Whoever is reported has a position. -/
theorem exists_noted {o : ρ} {q : Nat} {moves : List (ρ × Nat)} (h : (o, q) ∈ moves) :
    ∃ p, noted f moves o = some p := by
  induction moves generalizing f q with
  | nil => cases h
  | cons m moves ih =>
    by_cases hagain : ∃ x ∈ moves, x.1 = o
    · obtain ⟨⟨o, q'⟩, hmem, rfl⟩ := hagain
      exact ih hmem
    · simp only [not_exists, not_and] at hagain
      rcases List.mem_cons.mp h with rfl | hmem
      · exact ⟨q, noted_append_cons [] hagain⟩
      · exact absurd rfl (hagain _ hmem)

omit [DecidableEq ρ] in
theorem tracks_empty : Tracks (fun _ => none) (empty : DeadlineHeap ρ).items := by
  intro o p
  simp [ownerAt, empty]

omit [DecidableEq ρ] in
theorem Tracks.eq_some (h : Tracks f items) {p : Nat} (hp : p < items.size) :
    f items[p].owner = some p :=
  (h _ p).mpr (ownerAt_eq hp)

/-- Two deadlines change places. -/
theorem Tracks.swap (h : Tracks f items) {i j : Nat} (hi : i < items.size) (hj : j < items.size) :
    Tracks (Function.update (Function.update f items[j].owner (some i)) items[i].owner (some j))
      (items.swap i j) := by
  intro o p
  have hoi := h.eq_some hi
  have hoj := h.eq_some hj
  rw [ownerAt_swap hi hj, Function.update_apply, Function.update_apply]
  by_cases h₁ : o = items[i].owner
  · subst h₁
    rw [if_pos rfl]
    constructor
    · rintro ⟨⟩
      rw [if_pos rfl]
    · split
      · next hp => exact fun _ => by rw [hp]
      · split
        · next hpj hpi =>
          intro heq
          rw [Option.some_inj] at heq
          rw [heq, hoi] at hoj
          exact absurd (hpi.trans (Option.some_inj.mp hoj)) hpj
        · next hpj hpi =>
          intro hown
          rw [← h, hoi] at hown
          exact absurd (Option.some_inj.mp hown).symm hpi
  · rw [if_neg h₁]
    by_cases h₂ : o = items[j].owner
    · subst h₂
      rw [if_pos rfl]
      have hij : i ≠ j := by
        rintro rfl
        exact h₁ rfl
      constructor
      · rintro ⟨⟩
        rw [if_neg hij, if_pos rfl]
      · split
        · intro heq
          exact absurd (Option.some_inj.mp heq).symm h₁
        · split
          · next hp => exact fun _ => by rw [hp]
          · next hpj hpi =>
            intro hown
            rw [← h, hoj] at hown
            exact absurd (Option.some_inj.mp hown).symm hpj
    · rw [if_neg h₂, h o p]
      split
      · next hp =>
        rw [hp, ownerAt_eq hj]
        simp [Ne.symm h₁, Ne.symm h₂]
      · split
        · next hp =>
          rw [hp, ownerAt_eq hi]
          simp [Ne.symm h₁, Ne.symm h₂]
        · rfl

/-- A deadline of a new owner comes last. -/
theorem Tracks.push (h : Tracks f items) {item : Deadline ρ} (hnew : f item.owner = none) :
    Tracks (Function.update f item.owner (some items.size)) (items.push item) := by
  intro o q
  rw [ownerAt_push, Function.update_apply]
  by_cases ho : o = item.owner
  · subst ho
    rw [if_pos rfl]
    constructor
    · rintro ⟨⟩
      rw [if_pos rfl]
    · split
      · next hq => exact fun _ => by rw [hq]
      · intro hq
        rw [← h, hnew] at hq
        cases hq
  · rw [if_neg ho, h o q]
    split
    · next hq =>
      rw [hq]
      simp [ownerAt, Ne.symm ho]
    · rfl

/-- The last deadline goes. -/
theorem Tracks.pop (h : Tracks f items) {o : ρ} (ho : f o = some (items.size - 1)) :
    Tracks (Function.update f o none) items.pop := by
  obtain ⟨hlast, -⟩ := ownerAt_eq_some_iff.mp ((h o _).mp ho)
  intro o' q
  rw [ownerAt_pop, Function.update_apply]
  by_cases hoo : o' = o
  · subst hoo
    rw [if_pos rfl]
    simp only [reduceCtorEq, false_iff]
    split
    · intro hq
      rw [← h, ho, Option.some_inj] at hq
      omega
    · simp
  · rw [if_neg hoo]
    split
    · exact h o' q
    · next hq =>
      simp only [reduceCtorEq, iff_false]
      intro hfo'
      -- Beyond the other positions there is only the last one, which was the one of `o`.
      have hown := (h o' q).mp hfo'
      obtain ⟨hlt, -⟩ := ownerAt_eq_some_iff.mp hown
      have hqlast : q = items.size - 1 := by omega
      rw [hqlast, (h o _).mp ho, Option.some_inj] at hown
      exact hoo hown.symm

/-! ## Sifting -/

/-- What settling an item does for the owners: the reports make everybody tracked, and are
about owners in the heap. -/
def Settles (f : ρ → Option Nat) (items : Array (Deadline ρ)) (s : Settled ρ) : Prop :=
  Tracks (noted f s.moves) s.heap.items ∧ ∀ m ∈ s.moves, ∃ p, ownerAt items p = some m.1

/-- One step of sifting: the items at `i` and `j` change places, the one that was at `j` is
reported, and sifting goes on with the other one. -/
theorem settles_swap {i j : Nat} (hi : i < items.size) (hj : j < items.size)
    (h : Tracks (Function.update f items[i].owner (some i)) items) {s : Settled ρ}
    (hs : ∀ g, Tracks (Function.update g items[i].owner (some j)) (items.swap i j) →
      Settles g (items.swap i j) s) :
    Settles f items (s.report items[j].owner i) := by
  have htracks : Tracks (Function.update (Function.update f items[j].owner (some i)) items[i].owner
      (some j)) (items.swap i j) := by
    have hswap := h.swap hi hj
    have hsame : Function.update (Function.update (Function.update f items[i].owner (some i))
        items[j].owner (some i)) items[i].owner (some j)
        = Function.update (Function.update f items[j].owner (some i)) items[i].owner (some j) := by
      funext o
      simp only [Function.update_apply]
      split <;> rfl
    rwa [hsame] at hswap
  obtain ⟨hall, hmoves⟩ := hs _ htracks
  refine ⟨hall, fun m hm => ?_⟩
  rcases List.mem_cons.mp hm with rfl | hm
  · exact ⟨j, ownerAt_eq hj⟩
  · obtain ⟨p, hp⟩ := hmoves m hm
    rw [ownerAt_swap hi hj] at hp
    split at hp
    · exact ⟨i, (ownerAt_eq hi).trans hp⟩
    · split at hp
      · exact ⟨j, (ownerAt_eq hj).trans hp⟩
      · exact ⟨p, hp⟩

/-- An item that stays is reported where it is. -/
theorem settles_stay {i : Nat} (hi : i < items.size)
    (h : Tracks (Function.update f items[i].owner (some i)) items) :
    Settles f items ⟨⟨items⟩, i, [(items[i].owner, i)]⟩ := by
  refine ⟨h, fun m hm => ⟨i, ?_⟩⟩
  rw [List.mem_singleton.mp hm, ownerAt_eq hi]

theorem siftUp_tracks (items : Array (Deadline ρ)) (i : Nat) (hi : i < items.size) :
    ∀ {f : ρ → Option Nat}, Tracks (Function.update f items[i].owner (some i)) items →
      Settles f items (siftUp items i hi) := by
  induction items, i, hi using siftUp.induct with
  | case1 items i hi above hp hlt ih =>
    intro f h
    rw [siftUp, dif_pos hp]
    refine settles_swap hi above h fun g hg => ih ?_
    rwa [Array.getElem_swap_right]
  | case2 items i hi above hp =>
    intro f h
    rw [siftUp, dif_neg hp]
    exact settles_stay hi h

theorem siftDown_tracks (items : Array (Deadline ρ)) (i : Nat) (hi : i < items.size) :
    ∀ {f : ρ → Option Nat}, Tracks (Function.update f items[i].owner (some i)) items →
      Settles f items (siftDown items i hi) := by
  induction items, i, hi using siftDown.induct with
  | case1 items i hi hle hb hbest =>
    intro f h
    rw [siftDown, hbest]
    dsimp only
    rw [if_pos rfl]
    exact settles_stay hi h
  | case2 items i hi best hle hb hbest hmove ih =>
    intro f h
    rw [siftDown, hbest]
    dsimp only
    rw [if_neg hmove]
    refine settles_swap hi hb h fun g hg => ih ?_
    rwa [Array.getElem_swap_right]

/-- **Settling** the one item that is not tracked makes everybody tracked. -/
theorem settle_tracks {i : Nat} {o : ρ} (hi : i < items.size) (ho : ownerAt items i = some o)
    (h : Tracks (Function.update f o (some i)) items) : Settles f items (settle items i hi) := by
  rw [ownerAt_eq hi, Option.some_inj] at ho
  subst ho
  unfold settle
  dsimp only
  split
  · exact siftUp_tracks items i hi h
  · exact siftDown_tracks items i hi h

/-! ## Operations -/

/-- **Setting the deadline** of an owner, new or known, keeps everybody tracked. -/
theorem upsert_tracks {heap : DeadlineHeap ρ} (h : Tracks f heap.items) (item : Deadline ρ) :
    Tracks (noted f (heap.upsert (f item.owner) item).moves)
        (heap.upsert (f item.owner) item).heap.items ∧
      ∀ m ∈ (heap.upsert (f item.owner) item).moves, m.1 = item.owner ∨ (f m.1).isSome := by
  cases hf : f item.owner with
  | some p =>
    obtain ⟨hp, howner⟩ := ownerAt_eq_some_iff.mp ((h _ p).mp hf)
    have htracks : Tracks (Function.update f item.owner (some p)) (heap.items.set p item) := by
      rw [← hf, Function.update_eq_self]
      exact fun o q => (h o q).trans (by rw [ownerAt_set hp howner])
    have hset : ownerAt (heap.items.set p item) p = some item.owner := by simp [ownerAt, hp]
    have hlt : p < (heap.items.set p item).size := by simpa using hp
    obtain ⟨hall, hmoves⟩ := settle_tracks hlt hset htracks
    simp only [upsert, dif_pos hp]
    refine ⟨hall, fun m hm => .inr ?_⟩
    obtain ⟨q, hq⟩ := hmoves m hm
    rw [ownerAt_set hp howner, ← h] at hq
    simp [hq]
  | none =>
    have hpush : ownerAt (heap.items.push item) heap.items.size = some item.owner := by
      simp [ownerAt_push]
    obtain ⟨hall, hmoves⟩ := settle_tracks (by simp) hpush (h.push hf)
    refine ⟨hall, fun m hm => ?_⟩
    obtain ⟨q, hq⟩ := hmoves m hm
    rw [ownerAt_push] at hq
    split at hq
    · exact .inl (Option.some_inj.mp hq).symm
    · rw [← h] at hq
      exact .inr (by simp [hq])

/-- **Deleting the deadline** of an owner keeps everybody else tracked. -/
theorem delete_tracks {heap : DeadlineHeap ρ} (h : Tracks f heap.items) {o : ρ} {p : Nat}
    (ho : f o = some p) :
    Tracks (noted (Function.update f o none) (heap.delete p).2.2) (heap.delete p).2.1.items ∧
      ∀ m ∈ (heap.delete p).2.2, m.1 ≠ o ∧ (f m.1).isSome := by
  obtain ⟨hp, rfl⟩ := ownerAt_eq_some_iff.mp ((h o p).mp ho)
  -- The deadline changes places with the last one, and then goes.
  have hlast : heap.items.size - 1 < heap.items.size := by omega
  have hswap := h.swap hp hlast
  have hpop := hswap.pop (by rw [Array.size_swap, Function.update_self])
  rw [Function.update_idem] at hpop
  simp only [delete, dif_pos hp]
  split
  · next hp' =>
    rw [Array.size_pop, Array.size_swap] at hp'
    have hne : heap.items[heap.items.size - 1].owner ≠ heap.items[p].owner := by
      intro heq
      have hlo := h.eq_some hlast
      rw [heq, ho, Option.some_inj] at hlo
      omega
    rw [Function.update_comm hne] at hpop
    have hmoved : ownerAt (heap.items.swap p (heap.items.size - 1)).pop p
        = some heap.items[heap.items.size - 1].owner := by
      rw [ownerAt_pop, Array.size_swap, if_pos hp', ownerAt_swap hp hlast, if_neg (by omega),
        if_pos rfl]
    obtain ⟨hall, hmoves⟩ := settle_tracks _ hmoved hpop
    refine ⟨hall, fun m hm => ?_⟩
    obtain ⟨q, hq⟩ := hmoves m hm
    rw [← hpop, Function.update_apply, Function.update_apply] at hq
    split at hq
    · next hml =>
      rw [hml]
      exact ⟨hne, by rw [h.eq_some hlast]; rfl⟩
    · split at hq
      · cases hq
      · next hmo => exact ⟨hmo, by rw [hq]; rfl⟩
  · next hp' =>
    rw [Array.size_pop, Array.size_swap] at hp'
    obtain rfl : p = heap.items.size - 1 := by omega
    rw [Function.update_idem] at hpop
    exact ⟨hpop, by simp⟩

end KeyServer.DeadlineHeap
