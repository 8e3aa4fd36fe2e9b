import KeyServer.Proofs.DeadlineHeap.Tracking
import Mathlib.Tactic.SplitIfs

/-! # Earlier deadlines lie above later ones

A heap is in order when no deadline is earlier than the one above it (`Ordered`).  While an
item is on its way, the order may be broken at its position, but nowhere else and not across
it (`OrderedExcept`); from there both ways of sifting restore it (`settle_ordered`).

* **`upsert_ordered`** and **`delete_ordered`**: the operations keep the order.
* **`mem_upsert`** and **`mem_delete`**: they change the deadline of one owner only.
* **`Ordered.peek?`**: in front is the earliest deadline.
-/

namespace KeyServer.DeadlineHeap

variable {ρ : Type} {items : Array (Deadline ρ)} {i : Nat}

/-- No deadline is earlier than the one above it. -/
def Ordered (items : Array (Deadline ρ)) : Prop :=
  ∀ i (_ : i < items.size) (_ : parent i < items.size),
    items[parent i].expiresAt ≤ items[i].expiresAt

/-! ## Times -/

/-- The time of the deadline at a position. -/
def timeAt (items : Array (Deadline ρ)) (p : Nat) : Nat := (items[p]?.map (·.expiresAt)).getD 0

theorem timeAt_eq {p : Nat} (h : p < items.size) : timeAt items p = items[p].expiresAt := by
  simp [timeAt, h]

theorem ordered_iff :
    Ordered items ↔ ∀ j < items.size, timeAt items (parent j) ≤ timeAt items j := by
  constructor
  · intro h j hj
    have hp : parent j < items.size := Nat.lt_of_le_of_lt (parent_le j) hj
    rw [timeAt_eq hj, timeAt_eq hp]
    exact h j hj hp
  · intro h j hj hp
    have := h j hj
    rwa [timeAt_eq hj, timeAt_eq hp] at this

theorem timeAt_swap {i j : Nat} (hi : i < items.size) (hj : j < items.size) (p : Nat) :
    timeAt (items.swap i j) p =
      if p = j then timeAt items i else if p = i then timeAt items j else timeAt items p := by
  unfold timeAt
  rw [Array.getElem?_swap]
  simp only [eq_comm (a := p)]
  split
  · simp [hi]
  · split
    · simp [hj]
    · rfl

theorem timeAt_set_ne {p q : Nat} (hp : p < items.size) (item : Deadline ρ) (hq : q ≠ p) :
    timeAt (items.set p item) q = timeAt items q := by
  rw [timeAt, timeAt, Array.getElem?_set_ne hp (Ne.symm hq)]

theorem timeAt_push_lt {q : Nat} (item : Deadline ρ) (hq : q < items.size) :
    timeAt (items.push item) q = timeAt items q := by
  rw [timeAt, timeAt, Array.getElem?_push_lt hq, Array.getElem?_eq_getElem hq]

theorem timeAt_pop_lt {q : Nat} (hq : q < items.size - 1) :
    timeAt items.pop q = timeAt items q := by
  rw [timeAt, timeAt, Array.getElem?_pop, if_pos hq]

/-! ## One item out of place -/

/-- The order holds everywhere but at one position, and across it. -/
structure OrderedExcept (items : Array (Deadline ρ)) (i : Nat) : Prop where
  other : ∀ j < items.size, j ≠ i → parent j ≠ i → timeAt items (parent j) ≤ timeAt items j
  across : ∀ j < items.size, j ≠ i → parent j = i → 0 < i →
    timeAt items (parent i) ≤ timeAt items j

/-- Whether the item at a position is not later than the ones below it. -/
def AboveFine (items : Array (Deadline ρ)) (i : Nat) : Prop :=
  ∀ j < items.size, parent j = i → timeAt items i ≤ timeAt items j

theorem parent_ne {j : Nat} (hj : 0 < j) : parent j ≠ j := Nat.ne_of_lt (parent_lt hj)

/-- The order is whole when it holds around the position, too. -/
theorem OrderedExcept.ordered (h : OrderedExcept items i) (hbelow : AboveFine items i)
    (habove : timeAt items (parent i) ≤ timeAt items i) : Ordered items := by
  refine ordered_iff.mpr fun j hj => ?_
  by_cases hji : j = i
  · rw [hji]
    exact habove
  · by_cases hpi : parent j = i
    · rw [hpi]
      exact hbelow j hj hpi
    · exact h.other j hj hji hpi

/-- The times after two deadlines changed places. -/
theorem timeAt_swapped {i j : Nat} (hi : i < items.size) (hj : j < items.size) (hne : i ≠ j) :
    timeAt (items.swap i j) i = timeAt items j ∧ timeAt (items.swap i j) j = timeAt items i ∧
      ∀ q, q ≠ i → q ≠ j → timeAt (items.swap i j) q = timeAt items q := by
  refine ⟨?_, ?_, fun q hqi hqj => ?_⟩
  · rw [timeAt_swap hi hj, if_neg hne, if_pos rfl]
  · rw [timeAt_swap hi hj, if_pos rfl]
  · rw [timeAt_swap hi hj, if_neg hqj, if_neg hqi]

/-- An item earlier than the one above it changes places with that one. -/
theorem OrderedExcept.swap_parent (h : OrderedExcept items i) (hbelow : AboveFine items i)
    (hi : i < items.size) (hp : parent i < items.size) (h0 : 0 < i)
    (hlt : timeAt items i < timeAt items (parent i)) :
    OrderedExcept (items.swap i (parent i)) (parent i) ∧
      AboveFine (items.swap i (parent i)) (parent i) := by
  have hne : i ≠ parent i := Ne.symm (parent_ne h0)
  obtain ⟨hati, hatp, hat⟩ := timeAt_swapped hi hp hne
  -- What lies below the upper position is the item that came down, or was below that before.
  have hchild : ∀ j < items.size, j ≠ parent i → parent j = parent i →
      timeAt items (parent i) ≤ timeAt (items.swap i (parent i)) j := by
    intro j hj hjp hpj
    by_cases hji : j = i
    · exact Nat.le_of_eq (by rw [hji, hati])
    · rw [hat j hji hjp, ← hpj]
      exact h.other j hj hji (by rw [hpj]; exact Ne.symm hne)
  refine ⟨⟨fun j hj hjp hpj => ?_, fun j hj hjp hpj hp0 => ?_⟩, fun j hj hpj => ?_⟩
  · rw [Array.size_swap] at hj
    have hji : j ≠ i := by
      rintro rfl
      exact hpj rfl
    rw [hat j hji hjp]
    by_cases hpi : parent j = i
    · rw [hpi, hati]
      exact h.across j hj hji hpi h0
    · rw [hat _ hpi hpj]
      exact h.other j hj hji hpi
  · rw [Array.size_swap] at hj
    have hpp : parent (parent i) ≠ parent i := parent_ne hp0
    have hpi : parent (parent i) ≠ i := Nat.ne_of_lt (Nat.lt_trans (parent_lt hp0) (parent_lt h0))
    rw [hat _ hpi hpp]
    exact Nat.le_trans (h.other _ hp (Ne.symm hne) hpi) (hchild j hj hjp hpj)
  · rw [Array.size_swap] at hj
    rw [hatp]
    by_cases hjp : j = parent i
    · exact Nat.le_of_eq (by rw [hjp, hatp])
    · exact Nat.le_trans (Nat.le_of_lt hlt) (hchild j hj hjp hpj)

/-- An item later than the earliest one below it changes places with that one. -/
theorem OrderedExcept.swap_child (h : OrderedExcept items i) (hi : i < items.size) {c : Nat}
    (hc : c < items.size) (hpc : parent c = i) (hci : c ≠ i)
    (hlt : timeAt items c < timeAt items i)
    (hmin : ∀ j < items.size, j ≠ i → parent j = i → timeAt items c ≤ timeAt items j) :
    OrderedExcept (items.swap i c) c ∧
      timeAt (items.swap i c) (parent c) ≤ timeAt (items.swap i c) c := by
  obtain ⟨hati, hatc, hat⟩ := timeAt_swapped hi hc (Ne.symm hci)
  refine ⟨⟨fun j hj hjc hpj => ?_, fun j hj hjc hpj hc0 => ?_⟩, ?_⟩
  · rw [Array.size_swap] at hj
    by_cases hji : j = i
    · subst hji
      by_cases hp : parent j = j
      · exact Nat.le_of_eq (by rw [hp])
      · have h0 : 0 < j := by
          unfold parent at hp
          omega
        rw [hat _ hp hpj, hati]
        exact h.across c hc hci hpc h0
    · rw [hat j hji hjc]
      by_cases hpi : parent j = i
      · rw [hpi, hati]
        exact hmin j hj hji hpi
      · rw [hat _ hpi hpj]
        exact h.other j hj hji hpi
  · rw [Array.size_swap] at hj
    have hji : j ≠ i := by
      unfold parent at hpj hpc
      omega
    rw [hpc, hati, hat j hji hjc, ← hpj]
    exact h.other j hj hji (by rw [hpj]; exact hci)
  · rw [hpc, hati, hatc]
    exact Nat.le_of_lt hlt

/-! ## Sifting -/

/-- The position with the earliest deadline, of a position and the two below it. -/
theorem earliest_spec (items : Array (Deadline ρ)) (i : Nat) (hi : i < items.size) {best : Nat}
    (hbest : (earliest items i hi).1 = best) :
    (best = i ∨ parent best = i ∧ best ≠ i ∧ timeAt items best < timeAt items i) ∧
      ∀ j < items.size, j ≠ i → parent j = i → timeAt items best ≤ timeAt items j := by
  have hj : ∀ {j}, j ≠ i → parent j = i → j = firstChild i ∨ j = firstChild i + 1 := by
    unfold parent firstChild
    omega
  have hl : parent (firstChild i) = i ∧ firstChild i ≠ i := by
    unfold parent firstChild
    omega
  have hr : parent (firstChild i + 1) = i ∧ firstChild i + 1 ≠ i := by
    unfold parent firstChild
    omega
  subst hbest
  simp only [earliest, ← timeAt_eq]
  constructor
  · split_ifs <;> grind
  · intro j hjs hji hpj
    rcases hj hji hpj with rfl | rfl <;> split_ifs at * <;> dsimp only at * <;> omega

theorem siftUp_ordered (items : Array (Deadline ρ)) (i : Nat) (hi : i < items.size)
    (h : OrderedExcept items i) (hbelow : AboveFine items i) :
    Ordered (siftUp items i hi).heap.items := by
  induction items, i, hi using siftUp.induct with
  | case1 items i hi above hp hlt ih =>
    rw [siftUp, dif_pos hp]
    rw [← timeAt_eq hi, ← timeAt_eq above] at hp
    obtain ⟨h', hbelow'⟩ := h.swap_parent hbelow hi above hp.1 hp.2
    exact ih h' hbelow'
  | case2 items i hi above hp =>
    rw [siftUp, dif_neg hp]
    rw [← timeAt_eq hi, ← timeAt_eq above] at hp
    refine h.ordered hbelow ?_
    by_cases h0 : 0 < i
    · omega
    · obtain rfl : i = 0 := by omega
      exact Nat.le_refl _

theorem siftDown_ordered (items : Array (Deadline ρ)) (i : Nat) (hi : i < items.size)
    (h : OrderedExcept items i) (habove : timeAt items (parent i) ≤ timeAt items i) :
    Ordered (siftDown items i hi).heap.items := by
  induction items, i, hi using siftDown.induct with
  | case1 items i hi hle hb hbest =>
    obtain ⟨-, hmin⟩ := earliest_spec items i hi (congrArg (·.1) hbest)
    rw [siftDown, hbest]
    dsimp only
    rw [if_pos rfl]
    refine h.ordered (fun j hj hpj => ?_) habove
    by_cases hji : j = i
    · exact hji ▸ Nat.le_refl _
    · exact hmin j hj hji hpj
  | case2 items i hi best hle hb hbest hmove ih =>
    obtain ⟨hstay | ⟨hp, -, hlt⟩, hmin⟩ := earliest_spec items i hi (congrArg (·.1) hbest)
    · exact absurd hstay hmove
    rw [siftDown, hbest]
    dsimp only
    rw [if_neg hmove]
    obtain ⟨h', habove'⟩ := h.swap_child hi hb hp hmove hlt hmin
    exact ih h' habove'

/-- **Settling** the one item out of place restores the order. -/
theorem settle_ordered (hi : i < items.size) (h : OrderedExcept items i) :
    Ordered (settle items i hi).heap.items := by
  have above : parent i < items.size := Nat.lt_of_le_of_lt (parent_le i) hi
  unfold settle
  simp only [← timeAt_eq]
  split
  · next hp =>
    refine siftUp_ordered items i hi h fun j hj hpj => ?_
    by_cases hji : j = i
    · exact hji ▸ Nat.le_refl _
    · exact Nat.le_trans (Nat.le_of_lt hp.2) (h.across j hj hji hpj hp.1)
  · next hp =>
    refine siftDown_ordered items i hi h ?_
    by_cases h0 : 0 < i
    · omega
    · obtain rfl : i = 0 := by omega
      exact Nat.le_refl _

theorem siftUp_perm (items : Array (Deadline ρ)) (i : Nat) (hi : i < items.size) :
    (siftUp items i hi).heap.items.Perm items := by
  induction items, i, hi using siftUp.induct with
  | case1 items i hi above hp hlt ih =>
    rw [siftUp, dif_pos hp]
    exact ih.trans (Array.swap_perm hi above)
  | case2 items i hi above hp =>
    rw [siftUp, dif_neg hp]

theorem siftDown_perm (items : Array (Deadline ρ)) (i : Nat) (hi : i < items.size) :
    (siftDown items i hi).heap.items.Perm items := by
  induction items, i, hi using siftDown.induct with
  | case1 items i hi hle hb hbest =>
    rw [siftDown, hbest]
    dsimp only
    rw [if_pos rfl]
  | case2 items i hi best hle hb hbest hmove ih =>
    rw [siftDown, hbest]
    dsimp only
    rw [if_neg hmove]
    exact ih.trans (Array.swap_perm hi hb)

/-- Settling an item keeps all deadlines. -/
theorem settle_perm (hi : i < items.size) : (settle items i hi).heap.items.Perm items := by
  unfold settle
  dsimp only
  split
  · exact siftUp_perm items i hi
  · exact siftDown_perm items i hi

/-! ## Operations -/

/-- Another deadline in one place leaves the order around it. -/
theorem Ordered.except {items' : Array (Deadline ρ)} (h : Ordered items)
    (hsize : items'.size ≤ items.size)
    (hsame : ∀ j < items'.size, j ≠ i → timeAt items' j = timeAt items j) :
    OrderedExcept items' i := by
  rw [ordered_iff] at h
  constructor
  · intro j hj hji hpj
    have hp : parent j < items'.size := Nat.lt_of_le_of_lt (parent_le j) hj
    rw [hsame _ hj hji, hsame _ hp hpj]
    exact h j (by omega)
  · intro j hj hji hpj h0
    have hi : i < items'.size := hpj ▸ Nat.lt_of_le_of_lt (parent_le j) hj
    have hp : parent i < items'.size := Nat.lt_of_le_of_lt (parent_le i) hi
    rw [hsame _ hj hji, hsame _ hp (parent_ne h0)]
    have hpi := h i (by omega)
    have hij := h j (by omega)
    rw [hpj] at hij
    omega

theorem ordered_empty : Ordered (empty : DeadlineHeap ρ).items := by
  simp [Ordered, empty]

/-- **Setting a deadline** keeps the order. -/
theorem upsert_ordered {heap : DeadlineHeap ρ} (h : Ordered heap.items) (pos : Option Nat)
    (item : Deadline ρ) : Ordered (heap.upsert pos item).heap.items := by
  have hpush : Ordered (settle (heap.items.push item) heap.items.size (by simp)).heap.items := by
    refine settle_ordered _ ⟨fun j hj hji hpj => ?_, fun j hj hji hpj h0 => ?_⟩
    · rw [Array.size_push] at hj
      have hlt : j < heap.items.size := by omega
      rw [timeAt_push_lt item hlt, timeAt_push_lt item (Nat.lt_of_le_of_lt (parent_le j) hlt)]
      exact ordered_iff.mp h j hlt
    · rw [Array.size_push] at hj
      have := parent_le j
      omega
  unfold upsert
  dsimp only
  split
  · split
    · next pos hp =>
      refine settle_ordered _ (h.except (by simp) fun j _ hji => ?_)
      rw [timeAt_set_ne hp item hji]
    · exact hpush
  · exact hpush

/-- **Deleting a deadline** keeps the order. -/
theorem delete_ordered {heap : DeadlineHeap ρ} (h : Ordered heap.items) (p : Nat) :
    Ordered (heap.delete p).2.1.items := by
  unfold delete
  split
  · next hp =>
    have hlast : heap.items.size - 1 < heap.items.size := by omega
    have hsame : ∀ j < (heap.items.swap p (heap.items.size - 1)).pop.size, j ≠ p →
        timeAt (heap.items.swap p (heap.items.size - 1)).pop j = timeAt heap.items j := by
      intro j hj hjp
      rw [Array.size_pop, Array.size_swap] at hj
      rw [timeAt_pop_lt (by simpa using hj), timeAt_swap hp hlast, if_neg (by omega), if_neg hjp]
    dsimp only
    split
    · exact settle_ordered _ (h.except (by simp) hsame)
    · next hp' =>
      rw [Array.size_pop, Array.size_swap] at hp'
      rw [ordered_iff] at h ⊢
      intro j hj
      have hj' := hj
      rw [Array.size_pop, Array.size_swap] at hj'
      have hpj := parent_le j
      rw [hsame j hj (by omega), hsame _ (Nat.lt_of_le_of_lt hpj hj) (by omega)]
      exact h j (by omega)
  · exact h

/-- In front is the earliest deadline. -/
theorem Ordered.peek? {heap : DeadlineHeap ρ} (h : Ordered heap.items) {first : Deadline ρ}
    (hfirst : heap.peek? = some first) {d : Deadline ρ} (hd : d ∈ heap.items) :
    first.expiresAt ≤ d.expiresAt := by
  obtain ⟨h0, rfl⟩ := Array.getElem?_eq_some_iff.mp hfirst
  obtain ⟨j, hj, rfl⟩ := Array.mem_iff_getElem.mp hd
  rw [← timeAt_eq h0, ← timeAt_eq hj]
  rw [ordered_iff] at h
  induction j using Nat.strongRecOn with
  | ind j ih =>
    by_cases hpos : 0 < j
    · have hlt := parent_lt hpos
      exact Nat.le_trans (ih (parent j) hlt (by omega)
        (Array.getElem_mem (Nat.lt_trans hlt hj))) (h j hj)
    · obtain rfl : j = 0 := by omega
      exact Nat.le_refl _

/-! ## Deadlines by owner -/

section Owners

variable {f : ρ → Option Nat} {heap : DeadlineHeap ρ}

/-- A deadline is where its owner notes it. -/
theorem Tracks.mem_iff (h : Tracks f items) {d : Deadline ρ} :
    d ∈ items ↔ ∃ p, f d.owner = some p ∧ items[p]? = some d := by
  constructor
  · intro hd
    obtain ⟨p, hp, rfl⟩ := Array.mem_iff_getElem.mp hd
    exact ⟨p, h.eq_some hp, Array.getElem?_eq_getElem hp⟩
  · rintro ⟨p, -, hp⟩
    exact Array.mem_of_getElem? hp

/-- **Setting a deadline** replaces the one of its owner, if there is one. -/
theorem mem_upsert (h : Tracks f heap.items) (item : Deadline ρ) {d : Deadline ρ} :
    d ∈ (heap.upsert (f item.owner) item).heap.items ↔
      d = item ∨ d.owner ≠ item.owner ∧ d ∈ heap.items := by
  cases hf : f item.owner with
  | some p =>
    obtain ⟨hp, howner⟩ := ownerAt_eq_some_iff.mp ((h _ p).mp hf)
    simp only [upsert, dif_pos hp, (settle_perm _).mem_iff]
    rw [Array.mem_iff_getElem?]
    constructor
    · rintro ⟨q, hq⟩
      rw [Array.getElem?_set] at hq
      split at hq
      · exact .inl (Option.some_inj.mp (by simpa [hp] using hq)).symm
      · next hpq =>
        refine .inr ⟨fun heq => hpq ?_, Array.mem_of_getElem? hq⟩
        obtain ⟨hlt, rfl⟩ := Array.getElem?_eq_some_iff.mp hq
        rw [← heq, h.eq_some hlt, Option.some_inj] at hf
        exact hf.symm
    · rintro (rfl | ⟨hne, hd⟩)
      · exact ⟨p, by simp [hp]⟩
      · obtain ⟨q, hq, rfl⟩ := Array.mem_iff_getElem.mp hd
        refine ⟨q, ?_⟩
        rw [Array.getElem?_set_ne hp, Array.getElem?_eq_getElem hq]
        rintro rfl
        exact hne howner
  | none =>
    simp only [upsert, (settle_perm _).mem_iff, Array.mem_push]
    rw [or_comm]
    refine or_congr_right (iff_and_self.mpr fun hd heq => ?_)
    obtain ⟨q, hq, -⟩ := h.mem_iff.mp hd
    rw [heq, hf] at hq
    cases hq

/-- **Deleting a deadline** leaves those of the other owners. -/
theorem mem_delete (h : Tracks f heap.items) {o : ρ} {p : Nat} (ho : f o = some p)
    {d : Deadline ρ} : d ∈ (heap.delete p).2.1.items ↔ d.owner ≠ o ∧ d ∈ heap.items := by
  obtain ⟨hp, rfl⟩ := ownerAt_eq_some_iff.mp ((h o p).mp ho)
  have hlast : heap.items.size - 1 < heap.items.size := by omega
  have hmem : d ∈ (heap.delete p).2.1.items ↔
      d ∈ (heap.items.swap p (heap.items.size - 1)).pop := by
    simp only [delete, dif_pos hp]
    split
    · exact (settle_perm _).mem_iff
    · rfl
  rw [hmem, Array.mem_iff_getElem?]
  simp only [Array.getElem?_pop, Array.size_swap, Array.getElem?_swap]
  constructor
  · rintro ⟨q, hq⟩
    split at hq
    · next hlt =>
      rw [if_neg (by omega)] at hq
      split at hq
      · next hpq =>
        rw [Option.some_inj] at hq
        refine ⟨fun heq => ?_, hq ▸ Array.getElem_mem hlast⟩
        rw [← heq, ← hq, h.eq_some hlast, Option.some_inj] at ho
        omega
      · next hpq =>
        obtain ⟨hlt', rfl⟩ := Array.getElem?_eq_some_iff.mp hq
        refine ⟨fun heq => hpq ?_, Array.getElem_mem hlt'⟩
        rw [← heq, h.eq_some hlt', Option.some_inj] at ho
        exact ho.symm
    · cases hq
  · rintro ⟨hne, hd⟩
    obtain ⟨q, hq, rfl⟩ := Array.mem_iff_getElem.mp hd
    have hqp : q ≠ p := by
      rintro rfl
      exact hne rfl
    -- The last deadline takes the place of the deleted one.
    by_cases hqlast : q = heap.items.size - 1
    · subst hqlast
      exact ⟨p, by rw [if_pos (by omega), if_neg hqp, if_pos rfl]⟩
    · refine ⟨q, ?_⟩
      rw [if_pos (by omega), if_neg (Ne.symm hqlast), if_neg (Ne.symm hqp),
        Array.getElem?_eq_getElem hq]

end Owners

end KeyServer.DeadlineHeap
