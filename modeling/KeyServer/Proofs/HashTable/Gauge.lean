import KeyServer.Proofs.HashTable.Refinement
import Mathlib.Order.Bounds.Basic

/-!
# The numbers that decide when a hash table grows

Four numbers of a table, its `gauge`, decide when it grows.  An insertion places its item
and may start a resize (`Gauge.place`); then, as in every operation, a migration step moves
items over (`Gauge.help`); then an item may be taken out (`Gauge.Thinned`).

* **Balance** (`Balanced`): the buckets are as few as the most items held so far allow.  A
  resize is started at `maxLoad * old` items, and the next is due at twice that number.  An
  operation adds one item at most and moves `migrationWork`, so the first is long over then.
* **A resize under way** (`Underway`): after so many migration steps either no item waits
  any more, or that many times `migrationWork` items have left.
-/

namespace KeyServer.HashTable

variable {α : Type}

/-- What decides when a table grows. -/
structure Gauge where
  /-- The buckets of the active generation. -/
  buckets : Nat
  /-- The items of both generations. -/
  count : Nat
  /-- The buckets of the retiring generation. -/
  old : Nat
  /-- The items of the retiring generation. -/
  waiting : Nat

/-- The gauge of a table. -/
def gauge (t : HashTable α) : Gauge :=
  ⟨t.bucketCount, t.size, t.retiring.heads.size, t.retiring.count⟩

namespace Call

/-- The operations that move items over. -/
def Helps : Call α → Prop
  | modify _ _ | clear => False
  | _ => True

/-- The operation that adds an item. -/
def Inserts : Call α → Prop
  | insert _ _ => True
  | _ => False

end Call

namespace Gauge

/-- No buckets and no items. -/
def zero : Gauge := ⟨0, 0, 0, 0⟩

/-- The gauge after full buckets have retired. -/
def retireFull (g : Gauge) : Gauge :=
  if g.old = 0 ∧ g.buckets * maxLoad ≤ g.count then
    ⟨g.buckets * 2, g.count, g.buckets, g.count⟩
  else g

/-- The gauge after an insertion has placed its item. -/
def place (g : Gauge) : Gauge :=
  retireFull ⟨if g.buckets = 0 then firstBuckets else g.buckets, g.count + 1, g.old, g.waiting⟩

/-- The gauge after a migration step. -/
def help (g : Gauge) : Gauge :=
  ⟨g.buckets, g.count, if g.waiting ≤ migrationWork then 0 else g.old, g.waiting - migrationWork⟩

@[simp] theorem place_count (g : Gauge) : g.place.count = g.count + 1 := by
  simp only [place, retireFull, apply_ite count, ite_self]

@[simp] theorem help_buckets (g : Gauge) : g.help.buckets = g.buckets := rfl

@[simp] theorem help_count (g : Gauge) : g.help.count = g.count := rfl

/-- Retiring buckets are kept only by a migration step that was a full one. -/
theorem help_of_old {g : Gauge} (h : g.help.old ≠ 0) :
    g.help.old = g.old ∧ g.help.waiting + migrationWork = g.waiting := by
  simp only [help, ne_eq, ite_eq_left_iff, Classical.not_imp] at h ⊢
  rw [if_neg h.1]
  omega

/-- From the first gauge to the second no item has come. -/
structure Thinned (g g' : Gauge) : Prop where
  buckets : g'.buckets = g.buckets
  count : g'.count ≤ g.count
  old : g'.old = 0 ∨ g'.old = g.old
  waiting : g'.waiting ≤ g.waiting

theorem Thinned.refl (g : Gauge) : g.Thinned g := ⟨rfl, le_rfl, .inr rfl, le_rfl⟩

/-- What a call does to the gauge of a table. -/
inductive Step : Gauge → Call α → Gauge → Prop where
  | insert {g : Gauge} {hash : UInt32} {item : α} : Step g (.insert hash item) g.place.help
  | search {g g' : Gauge} {c : Call α} (hhelps : c.Helps) (hinserts : ¬c.Inserts)
      (h : g.help.Thinned g') : Step g c g'
  | modify {g : Gauge} {i : Nat} {f : α → α} : Step g (.modify i f) g
  | clear {g : Gauge} : Step g .clear zero

theorem Step.eq_of_insert {g g' : Gauge} {hash : UInt32} {item : α}
    (h : Step g (.insert hash item) g') : g' = g.place.help := by
  cases h with
  | insert => rfl
  | search _ hinserts _ => exact absurd trivial hinserts

/-! ## Balance -/

/-- The buckets are right for a table that has held up to `peak` items: half as many would
have been full with so many, and these are not.  While items wait, the migration steps so far
make up for the items that have come since the resize was started; between two operations
they are one `ahead`. -/
structure Balanced (g : Gauge) (peak ahead : Nat) : Prop where
  power : g.buckets.isPowerOfTwo
  first : firstBuckets ≤ g.buckets
  count_le : g.count ≤ peak
  needed : g.buckets = firstBuckets ∨ maxLoad * g.buckets ≤ 2 * peak
  idle : g.old = 0 → peak < maxLoad * g.buckets
  half : g.old ≠ 0 → g.buckets = 2 * g.old
  paid : g.old ≠ 0 → ∃ helps, g.waiting + migrationWork * helps ≤ maxLoad * g.old ∧
    peak + ahead ≤ maxLoad * g.old + helps

namespace Balanced

variable {g g' : Gauge} {peak ahead : Nat}

/-- While items wait, the next resize is far off. -/
theorem early (hg : g.Balanced peak ahead) (h : g.old ≠ 0) : peak + 1 < maxLoad * g.buckets := by
  obtain ⟨helps, hwaiting, hpeak⟩ := hg.paid h
  have hhalf := hg.half h
  simp only [maxLoad, migrationWork] at *
  omega

/-- The next resize is not due. -/
theorem peak_lt (hg : g.Balanced peak ahead) : peak < maxLoad * g.buckets := by
  by_cases h : g.old = 0
  · exact hg.idle h
  · have := hg.early h
    omega

/-- There are as few buckets as the peak allows. -/
theorem isLeast (hg : g.Balanced peak ahead) :
    IsLeast {m | firstBuckets ≤ m ∧ m.isPowerOfTwo ∧ peak < maxLoad * m} g.buckets := by
  refine ⟨⟨hg.first, hg.power, hg.peak_lt⟩, ?_⟩
  rintro _ ⟨hfirst, ⟨j, rfl⟩, hlt⟩
  obtain ⟨k, hk⟩ := hg.power
  rcases hg.needed with hneeded | hneeded
  · exact hneeded.trans_le hfirst
  · -- A smaller power of two is at most half as large, and so too small.
    rw [hk] at hneeded ⊢
    by_contra hlt'
    have hexp : j + 1 ≤ k := (Nat.pow_lt_pow_iff_right (by decide)).mp (Nat.lt_of_not_le hlt')
    have hhalf : 2 ^ (j + 1) ≤ 2 ^ k := Nat.pow_le_pow_right (by decide) hexp
    rw [Nat.pow_succ] at hhalf
    simp only [maxLoad] at hneeded hlt
    omega

/-- The first insertion makes the first buckets. -/
theorem place_zero : Balanced zero.place 1 0 where
  power := ⟨2, rfl⟩
  first := le_rfl
  count_le := le_rfl
  needed := .inl rfl
  idle := fun _ => by decide
  half := fun h => absurd rfl h
  paid := fun h => absurd rfl h

/-- **Placing** an item uses up what the migration steps were ahead. -/
theorem place (hg : g.Balanced peak 1) : g.place.Balanced (max peak (g.count + 1)) 0 := by
  have hpeak := hg.peak_lt
  have hcount := hg.count_le
  have hfirst := hg.first
  obtain ⟨k, hk⟩ := hg.power
  simp only [firstBuckets, maxLoad] at hpeak hfirst
  have hpos : ¬g.buckets = 0 := by omega
  simp only [Gauge.place, retireFull, if_neg hpos]
  split
  · next hfull =>
    -- The table becomes exactly full, with more items than it has held before.
    simp only [maxLoad] at hfull
    have hmax : max peak (g.count + 1) = 8 * g.buckets := by omega
    exact {
      power := ⟨k + 1, by rw [Nat.pow_succ, ← hk]⟩
      first := by simp only [firstBuckets]; omega
      count_le := le_max_right _ _
      needed := .inr (by simp only [hmax, maxLoad]; omega)
      idle := fun h => absurd h hpos
      half := fun _ => Nat.mul_comm _ _
      paid := fun _ => ⟨0, by simp only [maxLoad]; omega, by simp only [hmax, maxLoad]; omega⟩ }
  · next hroom =>
    exact {
      power := ⟨k, hk⟩
      first := hg.first
      count_le := le_max_right _ _
      needed := hg.needed.imp_right fun h => h.trans (by omega)
      idle := fun h => by simp only [maxLoad] at hroom h ⊢; omega
      half := hg.half
      paid := fun h => by
        obtain ⟨helps, hwaiting, hpaid⟩ := hg.paid h
        exact ⟨helps, hwaiting, by simp only; omega⟩ }

/-- A call that places no item need not use that up, but may. -/
theorem spend (hg : g.Balanced peak 1) : g.Balanced peak 0 :=
  { hg with
    paid := fun h => by
      obtain ⟨helps, hwaiting, hpeak⟩ := hg.paid h
      exact ⟨helps, hwaiting, by omega⟩ }

/-- **A migration step** gets ahead again, or is the last one. -/
theorem help (hg : g.Balanced peak 0) : g.help.Balanced peak 1 where
  power := hg.power
  first := hg.first
  count_le := hg.count_le
  needed := hg.needed
  idle := fun _ => hg.peak_lt
  half := fun h => by
    obtain ⟨hold, _⟩ := help_of_old h
    rw [hold] at h ⊢
    exact hg.half h
  paid := fun h => by
    obtain ⟨hold, hwork⟩ := help_of_old h
    rw [hold] at h ⊢
    obtain ⟨helps, hwaiting, hpeak⟩ := hg.paid h
    refine ⟨helps + 1, ?_, by omega⟩
    rw [Nat.mul_succ]
    omega

theorem thinned (hg : g.Balanced peak ahead) (h : g.Thinned g') : g'.Balanced peak ahead := by
  have hold : g'.old ≠ 0 → g'.old = g.old := fun h' => h.old.resolve_left h'
  have hpeak := hg.peak_lt
  exact {
    power := h.buckets ▸ hg.power
    first := h.buckets ▸ hg.first
    count_le := le_trans h.count hg.count_le
    needed := h.buckets ▸ hg.needed
    idle := fun _ => h.buckets ▸ hpeak
    half := fun h' => by
      rw [h.buckets, hold h']
      exact hg.half (hold h' ▸ h')
    paid := fun h' => by
      obtain ⟨helps, hwaiting, hpaid⟩ := hg.paid (hold h' ▸ h')
      rw [hold h']
      exact ⟨helps, by have := h.waiting; omega, hpaid⟩ }

end Balanced

/-- The gauge between two operations of a table that has held up to `peak` items; no item
ever if it is not `used`. -/
structure Steady (g : Gauge) (used : Prop) (peak : Nat) : Prop where
  unused : ¬used → g = zero ∧ peak = 0
  balanced : used → g.Balanced peak 1

/-- **One call** keeps the balance. -/
theorem Steady.step {g g' : Gauge} {used : Prop} {peak : Nat} {c : Call α}
    (hg : g.Steady used peak) (hstep : Step g c g') (hclear : c ≠ .clear) :
    g'.Steady (used ∨ c.Inserts) (max g'.count peak) := by
  cases hstep with
  | insert =>
    refine ⟨fun h => absurd (.inr trivial) h, fun _ => ?_⟩
    by_cases hused : used
    · rw [help_count, place_count, max_comm]
      exact (hg.balanced hused).place.help
    · obtain ⟨rfl, rfl⟩ := hg.unused hused
      exact Balanced.place_zero.help
  | search hhelps hinserts h =>
    simp only [hinserts, or_false]
    refine ⟨fun hused => ?_, fun hused => ?_⟩
    · obtain ⟨rfl, rfl⟩ := hg.unused hused
      obtain ⟨buckets, count, old, waiting⟩ := g'
      obtain ⟨rfl, hcount, hold, hwaiting⟩ := h
      simp_all [help, zero]
    · have hbalanced := (hg.balanced hused).spend.help.thinned h
      rw [max_eq_right hbalanced.count_le]
      exact hbalanced
  | modify =>
    simp only [Call.Inserts, or_false]
    refine ⟨fun hused => ?_, fun hused => ?_⟩
    · obtain ⟨rfl, rfl⟩ := hg.unused hused
      exact ⟨rfl, rfl⟩
    · rw [max_eq_right (hg.balanced hused).count_le]
      exact hg.balanced hused
  | clear => exact absurd rfl hclear

/-! ## A resize under way -/

/-- A resize was started at `items` items and has seen some migration steps. -/
structure Underway (g : Gauge) (items helps : Nat) : Prop where
  buckets : maxLoad * g.buckets = 2 * items
  count_lt : g.count < items + helps
  waiting : g.old ≠ 0 → g.waiting + migrationWork * helps ≤ items

namespace Underway

variable {g g' : Gauge} {items helps : Nat}

/-- The insertion that finds the table full starts a resize, which has seen one migration
step when it is through. -/
theorem start {used : Prop} {peak : Nat} (hg : g.Steady used peak) (hpos : g.buckets ≠ 0)
    (h : g.place.help.buckets ≠ g.buckets) :
    g.place.help.Underway g.place.help.count 1 := by
  by_cases hused : used
  · have hpeak := (hg.balanced hused).peak_lt
    have hcount := (hg.balanced hused).count_le
    simp only [maxLoad] at hpeak
    have hplace : g.place = ⟨g.buckets * 2, g.count + 1, g.buckets, g.count + 1⟩ ∧
        g.buckets * 8 = g.count + 1 := by
      simp only [help_buckets, place, retireFull, if_neg hpos, maxLoad] at h ⊢
      split at h
      · next hfull => exact ⟨if_pos hfull, by omega⟩
      · exact absurd rfl h
    obtain ⟨hplace, hfull⟩ := hplace
    rw [hplace]
    refine ⟨?_, Nat.lt_succ_self _, fun h' => ?_⟩
    · simp only [help, maxLoad]
      omega
    · have hwork := (help_of_old h').2
      simp only [help_count] at hwork ⊢
      omega
  · exact absurd (by rw [(hg.unused hused).1]; rfl) hpos

/-- While fewer than `items` operations follow, no insertion finds the table full. -/
theorem place_eq (hg : g.Underway items helps) (h : helps < items) :
    g.place = ⟨g.buckets, g.count + 1, g.old, g.waiting⟩ := by
  have hbuckets := hg.buckets
  have hcount := hg.count_lt
  simp only [maxLoad] at hbuckets
  rw [place, retireFull, if_neg (show ¬g.buckets = 0 by omega), if_neg]
  simp only [maxLoad]
  omega

/-- A migration step; before it there may be one item more. -/
theorem help (hbuckets : maxLoad * g.buckets = 2 * items) (hcount : g.count < items + (helps + 1))
    (hwaiting : g.old ≠ 0 → g.waiting + migrationWork * helps ≤ items) :
    g.help.Underway items (helps + 1) := by
  refine ⟨hbuckets, hcount, fun h => ?_⟩
  obtain ⟨hold, hwork⟩ := help_of_old h
  have := hwaiting (hold ▸ h)
  rw [Nat.mul_succ]
  omega

theorem thinned (hg : g.Underway items helps) (h : g.Thinned g') : g'.Underway items helps := by
  refine ⟨h.buckets ▸ hg.buckets, lt_of_le_of_lt h.count hg.count_lt, fun h' => ?_⟩
  have := hg.waiting (h.old.resolve_left h' ▸ h')
  have := h.waiting
  omega

/-- **One operation** is one migration step more. -/
theorem step {c : Call α} (hg : g.Underway items helps) (h : helps < items)
    (hstep : Step g c g') (hc : c.Helps) : g'.Underway items (helps + 1) := by
  cases hstep with
  | insert =>
    rw [hg.place_eq h]
    exact help hg.buckets (by have := hg.count_lt; simp only; omega) hg.waiting
  | search _ _ hthinned =>
    exact (help hg.buckets (hg.count_lt.trans (Nat.lt_succ_self _)) hg.waiting).thinned hthinned
  | modify => exact absurd hc id
  | clear => exact absurd hc id

end Underway

end Gauge

end KeyServer.HashTable
