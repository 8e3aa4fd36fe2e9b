import KeyServer.Proofs.HashTable.Gauge
import Mathlib.Data.List.Induction
import Mathlib.Order.Bounds.Basic

/-!
# How a hash table grows

Calls do to a table what steps do to its gauge (`Valid.gauge_call`), so that a run keeps
the balance of the gauge.  Read off the table this is `Paced`:

* the buckets are the fewest for the most items ever held;
* every operation has a migration step that moves as many items as are left, or
  `migrationWork` of them (`Migrates`);
* a resize of `n` items is over after `n / migrationWork` operations, rounded up, the one
  that started it included (`Settles`), and long before the next is due.

So it is after any calls on a new table or one that was cleared (`run_paced`).
-/

namespace KeyServer.HashTable

variable {α : Type} {t t' : HashTable α} {a r : List (List Nat)}

/-! ## Calls in three parts -/

/-- What a call does before its migration step: an insertion places the item. -/
def prepare (t : HashTable α) : Call α → Except Fault (Answer α × HashTable α)
  | .insert hash item => do
    let (i, t) := t.withBuckets.allocate hash item
    return (.handle i, ← t.place i)
  | _ => return (.done, t)

/-- What a call does after its migration step: all but insertions search. -/
def finish (t : HashTable α) (answer : Answer α) : Call α → Except Fault (Answer α × HashTable α)
  | .lookup hash p => do
    let found ← t.find hash fun _ item => .ok (p item)
    return (.found (found.map fun (_, _, index) => index), t)
  | .delete hash p => do
    match ← t.find hash fun _ item => .ok (p item) with
    | none => return (.item none, t)
    | some (inActive, before, index) =>
      let (item, t) ← t.unlinkAndRelease inActive before index
      return (.item (some item), t)
  | .remove handle => do
    match t.slots[handle]?.join with
    | none => return (.item none, t)
    | some slot =>
      match ← t.find slot.hash fun index _ => .ok (index == handle) with
      | none => return (.item none, t)
      | some (inActive, before, index) =>
        let (item, t) ← t.unlinkAndRelease inActive before index
        return (.item (some item), t)
  | _ => return (answer, t)

/-- An operation that helps along does so between the two other parts. -/
theorem call_eq (t : HashTable α) {c : Call α} (hc : c.Helps) :
    t.call c = (do
      let (answer, t) ← t.prepare c
      let t ← t.migrate migrationWork
      t.dropRetired.finish answer c) := by
  cases c with
  | insert hash item =>
    simp only [call, prepare, finish, insert, help, bind_assoc, pure_bind]
  | lookup hash p =>
    simp only [call, prepare, finish, lookup, lookupBy, help, bind_assoc, pure_bind]
  | delete hash p =>
    simp only [call, prepare, finish, delete, help, bind_assoc, pure_bind]
    congr 1
    funext t₁
    congr 1
    funext found
    cases found <;> simp only [bind_assoc, pure_bind]
  | remove i =>
    simp only [call, prepare, finish, remove, help, bind_assoc, pure_bind]
    congr 1
    funext t₁
    cases t₁.dropRetired.slots[i]?.join with
    | none => rfl
    | some slot =>
      simp only [bind_assoc]
      congr 1
      funext found
      cases found <;> simp only [bind_assoc, pure_bind]
  | modify i f => exact absurd hc id
  | clear => exact absurd hc id

/-! ## The gauge of a table -/

/-- The counts follow the items moved. -/
theorem Moved.counts {n : Nat} (h : t.Moved t' n) :
    t'.retiring.count + n = t.retiring.count ∧ t'.active.count = t.active.count + n := by
  obtain ⟨a, r, a', r', moved, ht, ht', hlen, hretiring, hactive⟩ := h.chains
  have hretiring := hretiring.length_eq
  have hactive := hactive.length_eq
  rw [List.length_append, ← ht.retiring.count, ← ht'.retiring.count] at hretiring
  rw [List.length_append, ← ht.active.count, ← ht'.active.count] at hactive
  omega

theorem gauge_old_eq_zero : t.gauge.old = 0 ↔ t.retiring.isAllocated = false := by
  simp [gauge, Generation.isAllocated]

theorem gauge_dropRetired (t : HashTable α) :
    t.dropRetired.gauge = ⟨t.bucketCount, t.size,
      if t.retiring.count = 0 then 0 else t.retiring.heads.size, t.retiring.count⟩ := by
  unfold dropRetired
  split
  · next h => simp [gauge, bucketCount, size, Generation.none, h.1]
  · next h =>
    simp only [gauge, Gauge.mk.injEq, true_and, and_true]
    split
    · next hcount => exact gauge_old_eq_zero.mpr (Bool.eq_false_iff.mpr fun h' => h ⟨hcount, h'⟩)
    · rfl

theorem Linked.gauge_retireFull (ht : t.Linked [] a r) :
    t.retireFull.gauge = t.gauge.retireFull := by
  have hfull : (!t.retiring.isAllocated && decide (t.active.heads.size * maxLoad ≤ t.active.count))
      = true ↔ t.gauge.old = 0 ∧ t.gauge.buckets * maxLoad ≤ t.gauge.count := by
    rw [Bool.and_eq_true, Bool.not_eq_true', decide_eq_true_iff, gauge_old_eq_zero]
    refine and_congr_right fun hidle => ?_
    simp only [gauge, bucketCount, size, ht.retiring.count_eq_zero hidle, Nat.add_zero]
  unfold HashTable.retireFull Gauge.retireFull
  split
  · next h =>
    rw [if_pos (hfull.mp h)]
    have hnone := ht.retiring.count_eq_zero (gauge_old_eq_zero.mp (hfull.mp h).1)
    simp [gauge, HashTable.startRehash, bucketCount, size, Generation.ofSize, hnone]
  · next h => rw [if_neg fun h' => h (hfull.mpr h')]

theorem Linked.gauge_withBuckets (ht : t.Linked [] a r) :
    t.withBuckets.gauge = { t.gauge with
      buckets := if t.gauge.buckets = 0 then firstBuckets else t.gauge.buckets } := by
  unfold HashTable.withBuckets
  split
  · next h =>
    have hpos : t.gauge.buckets ≠ 0 := Nat.pos_iff_ne_zero.mp (Generation.isAllocated_iff.mp h)
    rw [if_neg hpos]
  · next h =>
    have hidle := Bool.eq_false_iff.mpr h
    have hzero : t.gauge.buckets = 0 := by
      simpa [Generation.isAllocated, gauge, bucketCount] using h
    rw [if_pos hzero]
    simp [gauge, bucketCount, size, Generation.ofSize, ht.active.count_eq_zero hidle]

/-- **Placing** an item does to the table what it does to the gauge. -/
theorem Linked.gauge_place (ht : t.Linked [] a r) {hash : UInt32} {item : α} {i : Nat}
    {t₁ : HashTable α} (hallocate : t.withBuckets.allocate hash item = (i, t₁))
    (h : t₁.place i = .ok t') : t'.gauge = t.gauge.place := by
  obtain ⟨a₀, ht₀, halloc, -⟩ := ht.withBuckets
  obtain ⟨-, -, ht₁, hactive, hretiring, -⟩ := ht₀.allocate hash item hallocate
  obtain ⟨slots, active, a₂, hlink, ht₂, -⟩ := ht₁.link (hactive ▸ halloc)
  obtain ⟨hsize, hcount, -⟩ := Generation.sizes_of_link hlink
  simp only [place, hlink, ok_bind] at h
  cases h
  have hgauge : ({ t₁ with slots, active } : HashTable α).gauge
      = { t.withBuckets.gauge with count := t.withBuckets.gauge.count + 1 } := by
    simp only [gauge, bucketCount, size, hsize, hcount, hactive, hretiring, Gauge.mk.injEq,
      true_and, and_true]
    omega
  rw [ht₂.gauge_retireFull, hgauge, ht.gauge_withBuckets]
  rfl

/-- **A migration step** does to the table what it does to the gauge. -/
theorem Linked.gauge_help (ht : t.Linked [] a r) (h : t.migrate migrationWork = .ok t') :
    t'.dropRetired.gauge = t.gauge.help := by
  obtain ⟨t₁, a', r', hmigrate, -, hmoved⟩ := ht.migrate migrationWork
  cases h.symm.trans hmigrate
  obtain ⟨hretiring, hactive⟩ := hmoved.counts
  rw [gauge_dropRetired]
  have hsize : t'.size = t.size := by
    simp only [size]
    omega
  have hleft : t'.retiring.count = t.retiring.count - migrationWork := by omega
  have hold : (if t'.retiring.count = 0 then 0 else t'.retiring.heads.size)
      = if t.retiring.count ≤ migrationWork then 0 else t.retiring.heads.size := by
    rw [hleft, hmoved.retiring_size]
    exact if_congr Nat.sub_eq_zero_iff_le rfl rfl
  rw [hold, hleft, hsize, bucketCount, hmoved.active_size]
  rfl

/-- Taking an item out thins the gauge. -/
theorem thinned_unlinkAndRelease {inActive : Bool} {before : Option Nat} {i : Nat} {item : α}
    (h : t.unlinkAndRelease inActive before i = .ok (item, t')) : t.gauge.Thinned t'.gauge := by
  have hdrop : ∀ t₁ : HashTable α, (t₁.dropRetired.release i).gauge = t₁.dropRetired.gauge :=
    fun _ => rfl
  simp only [unlinkAndRelease, bind_eq_ok_iff] at h
  obtain ⟨t₁, hunlink, s, -, heq⟩ := h
  cases heq
  rw [hdrop, gauge_dropRetired]
  unfold HashTable.unlink at hunlink
  split at hunlink
  · obtain ⟨⟨slots, active⟩, hactive, heq⟩ := bind_eq_ok_iff.mp hunlink
    cases heq
    obtain ⟨hsize, hcount, -⟩ := Generation.sizes_of_unlink hactive
    refine ⟨hsize, ?_, ?_, le_rfl⟩
    · simp only [gauge, size]
      omega
    · simp only [gauge]
      split <;> simp
  · obtain ⟨⟨slots, retiring⟩, hretiring, heq⟩ := bind_eq_ok_iff.mp hunlink
    cases heq
    obtain ⟨hsize, hcount, -⟩ := Generation.sizes_of_unlink hretiring
    refine ⟨rfl, ?_, ?_, ?_⟩
    · simp only [gauge, size]
      omega
    · simp only [gauge, hsize]
      split <;> simp
    · simp only [gauge]
      omega

theorem thinned_finish {answer answer' : Answer α} {c : Call α} (hc : c.Helps)
    (h : t.finish answer c = .ok (answer', t')) : t.gauge.Thinned t'.gauge := by
  cases c with
  | insert hash item =>
    cases h
    exact .refl _
  | lookup hash p =>
    obtain ⟨found, _, h⟩ := bind_eq_ok_iff.mp h
    cases h
    exact .refl _
  | delete hash p =>
    obtain ⟨found, _, h⟩ := bind_eq_ok_iff.mp h
    cases found with
    | none =>
      cases h
      exact .refl _
    | some found =>
      obtain ⟨⟨item, t₁⟩, hunlink, h⟩ := bind_eq_ok_iff.mp h
      cases h
      exact thinned_unlinkAndRelease hunlink
  | remove i =>
    simp only [finish] at h
    split at h
    · cases h
      exact .refl _
    · obtain ⟨found, _, h⟩ := bind_eq_ok_iff.mp h
      cases found with
      | none =>
        cases h
        exact .refl _
      | some found =>
        obtain ⟨⟨item, t₁⟩, hunlink, h⟩ := bind_eq_ok_iff.mp h
        cases h
        exact thinned_unlinkAndRelease hunlink
  | modify i f => exact absurd hc id
  | clear => exact absurd hc id

/-- **Calls** do to a table what steps do to its gauge. -/
theorem Valid.gauge_call (ht : t.Valid) {c : Call α} {answer : Answer α}
    (h : t.call c = .ok (answer, t')) : t.gauge.Step c t'.gauge := by
  obtain ⟨a, r, hlinked⟩ := ht.linked
  by_cases hc : c.Helps
  · rw [call_eq t hc] at h
    obtain ⟨⟨answer₁, t₁⟩, hprepare, h⟩ := bind_eq_ok_iff.mp h
    obtain ⟨t₂, hmigrate, hfinish⟩ := bind_eq_ok_iff.mp h
    have hthinned := thinned_finish hc hfinish
    cases c with
    | insert hash item =>
      obtain ⟨i, t₀, hallocate⟩ : ∃ i t₀, t.withBuckets.allocate hash item = (i, t₀) :=
        ⟨_, _, rfl⟩
      simp only [prepare, hallocate] at hprepare
      obtain ⟨t₁', hplace, h⟩ := bind_eq_ok_iff.mp hprepare
      cases h
      cases hfinish
      obtain ⟨_, a₁, r₁, hplace', ht₁, -⟩ := ht.place hallocate
      cases hplace'.symm.trans hplace
      rw [ht₁.gauge_help hmigrate, hlinked.gauge_place hallocate hplace]
      exact .insert
    | lookup | delete | remove =>
      cases hprepare
      rw [hlinked.gauge_help hmigrate] at hthinned
      exact .search trivial id hthinned
    | modify | clear => exact absurd hc id
  · cases c with
    | modify i f =>
      cases h
      exact .modify
    | clear =>
      cases h
      exact .clear
    | _ => exact absurd trivial hc

/-! ## What a table does -/

/-- A call has a migration step: on the table that it has prepared it moves `migrationWork`
items or all that are left.  However far the step has got, the cursor is on a bucket as long
as items are left, and the buckets before it are empty. -/
def Migrates (t : HashTable α) (c : Call α) : Prop :=
  ∃ answer t₁, t.prepare c = .ok (answer, t₁) ∧
    t.call c = (do
      let t₂ ← t₁.migrate migrationWork
      t₂.dropRetired.finish answer c) ∧
    ∀ work, ∃ t₂, t₁.migrate work = .ok t₂ ∧ t₁.Moved t₂ (min work t₁.retiring.count) ∧
      (t₂.retiring.count ≠ 0 → t₂.cursor < t₂.retiring.heads.size) ∧
      ∀ b < t₂.cursor, t₂.retiring.heads[b]? = some none

/-- During so many operations, whichever they are, no resize begins, and after them none is
under way any more. -/
def Settles (t : HashTable α) (operations : Nat) : Prop :=
  ∀ more : List (Call α), (∀ c ∈ more, c.Helps) → more.length ≤ operations →
    ∃ answers t', Calls.run call t more = .ok (answers, t') ∧ t'.bucketCount = t.bucketCount ∧
      (more.length = operations → t'.isRehashing = false)

/-- How a table has grown that has held up to `peak` items; none ever if it is not `used`. -/
structure Paced (t : HashTable α) (used : Prop) (peak : Nat) : Prop where
  unused : ¬used → t.bucketCount = 0
  /-- There are as few buckets as the most items ever held allow. -/
  buckets : used → IsLeast {m | 4 ≤ m ∧ m.isPowerOfTwo ∧ peak < 8 * m} t.bucketCount
  room : used → t.size < 8 * t.bucketCount
  half : t.isRehashing = true → t.bucketCount = 2 * t.retiring.heads.size
  migrates : ∀ c : Call α, c.Helps → t.Migrates c
  /-- While items are left, not even one item more makes the next resize due. -/
  early : t.isRehashing = true → t.size + 1 < 8 * t.bucketCount
  /-- The insertion that starts a resize is the first of the operations that carry it out. -/
  settles : ∀ hash item i t', t.insert hash item = .ok (i, t') → t.bucketCount ≠ 0 →
    t'.bucketCount ≠ t.bucketCount → t'.Settles ((t'.size + 127) / 128 - 1)

/-! ## What the balance says -/

theorem Valid.migrates (ht : t.Valid) {c : Call α} (hc : c.Helps) : t.Migrates c := by
  obtain ⟨answer, t₁, a, r, hprepare, ht₁⟩ :
      ∃ answer t₁ a r, t.prepare c = .ok (answer, t₁) ∧ t₁.Linked [] a r := by
    cases c with
    | insert hash item =>
      obtain ⟨i, t₀, hallocate⟩ : ∃ i t₀, t.withBuckets.allocate hash item = (i, t₀) :=
        ⟨_, _, rfl⟩
      obtain ⟨t₁, a, r, hplace, ht₁, -⟩ := ht.place hallocate
      exact ⟨.handle i, t₁, a, r, by simp [prepare, hallocate, hplace], ht₁⟩
    | _ =>
      obtain ⟨a, r, hlinked⟩ := ht.linked
      exact ⟨.done, t, a, r, rfl, hlinked⟩
  refine ⟨answer, t₁, hprepare, by rw [call_eq t hc, hprepare, ok_bind], fun work => ?_⟩
  obtain ⟨t₂, _, _, hmigrate, ht₂, hmoved⟩ := ht₁.migrate work
  exact ⟨t₂, hmigrate, hmoved, ht₂.cursor_lt, ht₂.swept⟩

/-- **Every operation** brings a resize under way closer to its end. -/
theorem Valid.run_underway {items : Nat} (more : List (Call α)) :
    ∀ {t : HashTable α} {helps : Nat}, t.Valid → t.gauge.Underway items helps →
      (∀ c ∈ more, c.Helps) → helps + more.length ≤ items →
      ∃ answers t', Calls.run HashTable.call t more = .ok (answers, t') ∧ t'.Valid ∧
        t'.gauge.Underway items (helps + more.length) := by
  induction more with
  | nil => exact fun ht h _ _ => ⟨[], _, rfl, ht, h⟩
  | cons c more ih =>
    intro t helps ht h hhelps hlen
    rw [List.length_cons] at hlen ⊢
    obtain ⟨answer, t₁, hcall, ht₁, _⟩ := ht.call c
    have h₁ := h.step (by omega) (ht.gauge_call hcall) (hhelps c List.mem_cons_self)
    obtain ⟨answers, t', hrun, ht', h'⟩ :=
      ih ht₁ h₁ (fun c' hc' => hhelps c' (List.mem_cons_of_mem c hc')) (by omega)
    refine ⟨answer :: answers, t', by simp [Calls.run, hcall, hrun], ht', ?_⟩
    rwa [Nat.add_right_comm, Nat.add_assoc] at h'

/-- **A resize ends** once there have been migration steps enough for all its items. -/
theorem Valid.settles (ht : t.Valid) (hpos : 0 < t.size) (h : t.gauge.Underway t.size 1) :
    t.Settles ((t.size + 127) / 128 - 1) := by
  intro more hhelps hlen
  obtain ⟨answers, t', hrun, ht', h'⟩ := ht.run_underway more h hhelps (by omega)
  refine ⟨answers, t', hrun, ?_, fun hall => ?_⟩
  · have hbuckets := h.buckets.trans h'.buckets.symm
    exact (Nat.mul_left_cancel (by decide) hbuckets).symm
  · by_contra hrehashing
    have hold : t'.gauge.old ≠ 0 := fun hold => hrehashing (gauge_old_eq_zero.mp hold)
    have hleft : t'.retiring.count ≠ 0 := fun hcount => hrehashing (ht'.settled hcount)
    have hwaiting := h'.waiting hold
    rw [hall] at hwaiting
    simp only [gauge, migrationWork] at hwaiting
    omega

/-- A table whose gauge is in balance is paced. -/
theorem Valid.paced {used : Prop} {peak : Nat} (ht : t.Valid) (h : t.gauge.Steady used peak) :
    t.Paced used peak := by
  have hold : t.isRehashing = true → t.gauge.old ≠ 0 := fun hrehashing hold =>
    Bool.false_ne_true ((gauge_old_eq_zero.mp hold).symm.trans hrehashing)
  have hused : t.gauge.old ≠ 0 → used := fun hold => by
    by_contra hunused
    exact hold (congrArg Gauge.old (h.unused hunused).1)
  exact {
    unused := fun hunused => congrArg Gauge.buckets (h.unused hunused).1
    buckets := fun hused => (h.balanced hused).isLeast
    room := fun hused => lt_of_le_of_lt (h.balanced hused).count_le (h.balanced hused).peak_lt
    half := fun hrehashing => (h.balanced (hused (hold hrehashing))).half (hold hrehashing)
    migrates := fun c hc => ht.migrates hc
    early := fun hrehashing => by
      have hbalanced := h.balanced (hused (hold hrehashing))
      exact lt_of_le_of_lt (Nat.succ_le_succ hbalanced.count_le) (hbalanced.early (hold hrehashing))
    settles := fun hash item i t' hinsert hpos hgrown => by
      obtain ⟨answer, t₁, hcall, ht₁, _⟩ := ht.call (.insert hash item)
      have hcall' : t.call (.insert hash item) = .ok (.handle i, t') := by
        simp [HashTable.call, hinsert]
      cases hcall.symm.trans hcall'
      have hstep := (ht.gauge_call hcall').eq_of_insert
      have hbuckets : t.gauge.place.help.buckets ≠ t.gauge.buckets := hstep ▸ hgrown
      have hsize : t'.size = t.size + 1 := by
        have hcount := congrArg Gauge.count hstep
        rwa [Gauge.help_count, Gauge.place_count] at hcount
      have hunderway := Gauge.Underway.start h hpos hbuckets
      rw [← hstep] at hunderway
      exact ht₁.settles (by omega) hunderway }

/-! ## Runs -/

/-- The numbers of items that a table holds at some time during calls made after others. -/
def heldDuring (earlier calls : List (Call α)) : Set Nat :=
  {n | ∃ made answers t, made <+: calls ∧
    Calls.run call (empty : HashTable α) (earlier ++ made) = .ok (answers, t) ∧ t.size = n}

theorem heldDuring_nil {earlier : List (Call α)} {answers : List (Answer α)}
    (h : Calls.run call (empty : HashTable α) earlier = .ok (answers, t)) :
    heldDuring earlier [] = {t.size} := by
  ext n
  rw [Set.mem_singleton_iff]
  constructor
  · rintro ⟨made, answers', t', hmade, hrun, rfl⟩
    rw [List.prefix_nil.mp hmade, List.append_nil, h] at hrun
    cases hrun
    rfl
  · rintro rfl
    exact ⟨[], answers, t, List.prefix_rfl, by rw [List.append_nil, h], rfl⟩

theorem heldDuring_concat {earlier calls : List (Call α)} {c : Call α} {answers : List (Answer α)}
    (h : Calls.run call (empty : HashTable α) (earlier ++ (calls ++ [c])) = .ok (answers, t)) :
    heldDuring earlier (calls ++ [c]) = Insert.insert t.size (heldDuring earlier calls) := by
  ext n
  rw [Set.mem_insert_iff]
  constructor
  · rintro ⟨made, answers', t', hmade, hrun, rfl⟩
    rcases List.prefix_concat_iff.mp hmade with rfl | hmade
    · rw [h] at hrun
      cases hrun
      exact .inl rfl
    · exact .inr ⟨made, answers', t', hmade, hrun, rfl⟩
  · rintro (rfl | ⟨made, answers', t', hmade, hrun, rfl⟩)
    · exact ⟨_, answers, t, List.prefix_rfl, h, rfl⟩
    · exact ⟨made, answers', t', hmade.trans (List.prefix_append _ _), hrun, rfl⟩

theorem exists_steady {earlier : List (Call α)} {answers : List (Answer α)}
    (h : Calls.run call (empty : HashTable α) earlier = .ok (answers, empty))
    {calls : List (Call α)} (hcalls : .clear ∉ calls) :
    ∃ answers t peak, Calls.run call (empty : HashTable α) (earlier ++ calls) = .ok (answers, t) ∧
      t.Valid ∧ IsGreatest (heldDuring earlier calls) peak ∧
      t.gauge.Steady (∃ c ∈ calls, c.Inserts) peak := by
  induction calls using List.reverseRecOn with
  | nil =>
    rw [heldDuring_nil h, List.append_nil]
    exact ⟨answers, empty, 0, h, valid_empty, isGreatest_singleton,
      ⟨fun _ => ⟨rfl, rfl⟩, fun ⟨_, hc, _⟩ => absurd hc List.not_mem_nil⟩⟩
  | append_singleton calls c ih =>
    rw [List.mem_append, List.mem_singleton, not_or] at hcalls
    obtain ⟨answers₁, t₁, peak, hrun₁, ht₁, hpeak, hsteady⟩ := ih hcalls.1
    obtain ⟨answer, t, hcall, ht, _⟩ := ht₁.call c
    have hrun : Calls.run call (empty : HashTable α) (earlier ++ (calls ++ [c]))
        = .ok (answers₁ ++ [answer], t) := by
      rw [← List.append_assoc, Calls.run_append, hrun₁]
      simp [Calls.run, hcall]
    have hstep := hsteady.step (ht₁.gauge_call hcall) (Ne.symm hcalls.2)
    refine ⟨_, t, max t.size peak, hrun, ht, ?_, ?_⟩
    · rw [heldDuring_concat hrun]
      exact hpeak.insert t.size
    · have hused : (∃ c' ∈ calls ++ [c], c'.Inserts) ↔ (∃ c' ∈ calls, c'.Inserts) ∨ c.Inserts := by
        simp [or_and_right, exists_or]
      rw [hused]
      exact hstep

/-- **A table grows with the most items that it has held** since it was new or last cleared,
and every resize is spread over operations that come before the next. -/
theorem run_paced (earlier calls : List (Call α))
    (hearlier : earlier = [] ∨ ∃ before, earlier = before ++ [.clear])
    (hcalls : .clear ∉ calls) :
    ∃ answers t peak, Calls.run call (empty : HashTable α) (earlier ++ calls) = .ok (answers, t) ∧
      IsGreatest (heldDuring earlier calls) peak ∧
      t.Paced (∃ c ∈ calls, c.Inserts) peak := by
  have hempty : ∃ answers, Calls.run call (empty : HashTable α) earlier = .ok (answers, empty) := by
    rcases hearlier with rfl | ⟨before, rfl⟩
    · exact ⟨[], rfl⟩
    · obtain ⟨answers, t, m, hrun, -⟩ :=
        Calls.run_simulates simulates_call (fun _ _ h => h) ⟨valid_empty, rfl⟩
          (Calls.admissible_of_forall (fun _ _ => trivial) before)
      exact ⟨answers ++ [.done], by simp [Calls.run_append, Calls.run, HashTable.call, hrun]⟩
  obtain ⟨_, hempty⟩ := hempty
  obtain ⟨answers, t, peak, hrun, ht, hpeak, hsteady⟩ := exists_steady hempty hcalls
  exact ⟨answers, t, peak, hrun, hpeak, ht.paced hsteady⟩

/-- One item comes and goes after the table was cleared. -/
theorem run_paced_cleared :
    ∃ answers t peak, Calls.run call (empty : HashTable Nat)
        ([.insert 3 10, .clear] ++ [.insert 7 20, .remove 0]) = .ok (answers, t) ∧
      IsGreatest (heldDuring [.insert 3 10, .clear] [.insert 7 20, .remove 0]) peak ∧
      t.Paced (∃ c ∈ ([.insert 7 20, .remove 0] : List (Call Nat)), c.Inserts) peak :=
  run_paced [.insert 3 10, .clear] [.insert 7 20, .remove 0] (.inr ⟨[.insert 3 10], rfl⟩) (by simp)

end KeyServer.HashTable
