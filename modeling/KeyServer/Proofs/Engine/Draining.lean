import KeyServer.Proofs.Engine.Correspondence
import Mathlib.Algebra.Order.Floor.Div
import Mathlib.Data.List.Perm.Subperm

/-! # Sweeps remove what is due

A sweep removes as many of the due keys as its limit allows, and sweeps at the same time go on
where the last one stopped.

* **`Swept.length_eq`**: how many keys go follows from how many are due.
* **`Timed.sweeps`**: sweeps in turn do what one sweep with all their budgets would.
* **`run_drains`**: in every state of an engine, a sweep removes exactly the keys that it should,
  and enough sweeps leave no due key (`Drains`).
-/

namespace KeyServer.Engine

variable {now budget : Nat} {e e' : Engine} {gone due : List Bytes} {m m' : Keyspace}
  {d d' : Bytes → Option Nat}

/-! ## How many keys go -/

namespace Swept

theorem subset (h : Swept now budget e gone e') (hdue : ∀ key, key ∈ due ↔ e.IsDue now key) :
    gone ⊆ due := by
  intro key hkey
  exact (hdue key).mpr (h.due key hkey)

/-- With budget left, all due keys go. -/
theorem perm_of_lt (h : Swept now budget e gone e') (hnodup : due.Nodup)
    (hdue : ∀ key, key ∈ due ↔ e.IsDue now key) (hlength : gone.length < budget) :
    gone.Perm due := by
  refine (List.perm_ext_iff_of_nodup h.nodup hnodup).mpr fun key => ⟨fun hkey => ?_, fun hkey => ?_⟩
  · exact h.subset hdue hkey
  · by_contra hleft
    exact h.complete hlength key (h.isDue_iff.mpr ⟨(hdue key).mp hkey, hleft⟩)

/-- **As many keys go** as are due and may go. -/
theorem length_eq (h : Swept now budget e gone e') (hnodup : due.Nodup)
    (hdue : ∀ key, key ∈ due ↔ e.IsDue now key) : gone.length = min budget due.length := by
  have hle := (h.nodup.subperm (h.subset hdue)).length_le
  have hwithin := h.within
  by_cases hlength : gone.length < budget
  · have heq := (h.perm_of_lt hnodup hdue hlength).length_eq
    omega
  · omega

/-- If no more keys are due than may go, all of them go. -/
theorem perm_of_le (h : Swept now budget e gone e') (hnodup : due.Nodup)
    (hdue : ∀ key, key ∈ due ↔ e.IsDue now key) (hle : due.length ≤ budget) : gone.Perm due := by
  have hlength := h.length_eq hnodup hdue
  rw [Nat.min_eq_right hle] at hlength
  exact (h.nodup.subperm (h.subset hdue)).perm_of_length_le hlength.ge

/-- Every key that goes takes one deadline with it. -/
theorem deadlineCount_add (h : Swept now budget e gone e') (he : e.Timed m d)
    (he' : e'.Timed m' d') : e'.deadlineCount + gone.length = e.deadlineCount := by
  obtain ⟨keys, hnodup, hkeys, hcount⟩ := he.exists_keys
  obtain ⟨keys', hnodup', hkeys', hcount'⟩ := he'.exists_keys
  have hleft : ∀ key ∈ keys', key ∉ gone := by
    intro key hkey
    obtain ⟨t, ht⟩ := (hkeys' key).mp hkey
    exact ((h.deadlines key _).mp ht).2
  have hdisjoint : (gone ++ keys').Nodup := by
    refine List.nodup_append.mpr ⟨h.nodup, hnodup', ?_⟩
    rintro key hkey _ hkey' rfl
    exact hleft key hkey' hkey
  have hperm : keys.Perm (gone ++ keys') := by
    refine (List.perm_ext_iff_of_nodup hnodup hdisjoint).mpr fun key => ?_
    rw [hkeys, List.mem_append, hkeys']
    constructor
    · rintro ⟨t, ht⟩
      by_cases hkey : key ∈ gone
      · exact .inl hkey
      · exact .inr ⟨t, (h.deadlines key _).mpr ⟨ht, hkey⟩⟩
    · rintro (hkey | ⟨t, ht⟩)
      · obtain ⟨t, -, ht⟩ := h.due key hkey
        exact ⟨t, ht⟩
      · exact ⟨t, ((h.deadlines key _).mp ht).1⟩
  rw [hcount, hcount', hperm.length_eq, List.length_append, Nat.add_comm]

end Swept

/-! ## The limit -/

namespace Timed

/-- No event changes the limit of sweeps. -/
theorem event_limit (h : e.Timed m d) {event : Event} {replies : List Bytes}
    (hrun : e.run [event] = .ok (replies, e')) :
    e'.maxExpirationsPerSweep = e.maxExpirationsPerSweep := by
  cases event with
  | sweep now =>
    obtain ⟨⟨n, e₁⟩, hsweep, hrun⟩ := bind_eq_ok_iff.mp hrun
    cases hrun
    obtain ⟨gone, e₁, m', d', hsweep', -, hswept⟩ := h.sweep now
    cases hsweep.symm.trans hsweep'
    exact hswept.limit
  | request args now =>
    obtain ⟨⟨bytes, e₁⟩, hreply, hrun⟩ := bind_eq_ok_iff.mp hrun
    cases hrun
    obtain ⟨⟨out, e₁⟩, hexecute, hreply⟩ := bind_eq_ok_iff.mp hreply
    obtain ⟨_, _, hreply⟩ := bind_eq_ok_iff.mp hreply
    cases hreply
    rw [Engine.execute] at hexecute
    split at hexecute
    · exact perform_limit h.represents.valid hexecute
    · rw [eq_of_write hexecute]

theorem run_limit {events : List Event} : ∀ {e : Engine} {m : Keyspace} {d : Bytes → Option Nat}
    {replies : List Bytes}, e.Timed m d → e.run events = .ok (replies, e') →
    e'.maxExpirationsPerSweep = e.maxExpirationsPerSweep := by
  induction events with
  | nil =>
    rintro e m d replies h ⟨⟩
    rfl
  | cons event events ih =>
    intro e m d replies h hrun
    rw [← List.singleton_append] at hrun
    obtain ⟨replies₁, e₁, replies₂, hevent, hrest⟩ := run_append_eq_ok hrun
    obtain ⟨m₁, d₁, h₁, -⟩ := h.event hevent
    exact (ih h₁ hrest).trans (h.event_limit hevent)

/-! ## Sweep after sweep -/

/-- **Sweeps in turn** at the same time sweep with all their budgets. -/
theorem sweeps (now n : Nat) : ∀ {e : Engine} {m : Keyspace} {d : Bytes → Option Nat},
    e.Timed m d → ∃ gone e' m' d', e.run (List.replicate n (.sweep now)) = .ok ([], e') ∧
      e'.Timed m' d' ∧ Swept now (n * e.maxExpirationsPerSweep) e gone e' := by
  induction n with
  | zero =>
    intro e m d h
    exact ⟨[], e, m, d, rfl, h, .refl (.inl (Nat.zero_mul _))⟩
  | succ n ih =>
    intro e m d h
    obtain ⟨gone₁, e₁, m₁, d₁, hsweep, h₁, hswept₁⟩ := h.sweep now
    obtain ⟨gone₂, e₂, m₂, d₂, hrun, h₂, hswept₂⟩ := ih h₁
    rw [hswept₁.limit] at hswept₂
    refine ⟨gone₁ ++ gone₂, e₂, m₂, d₂, ?_, h₂, ?_⟩
    · rw [List.replicate_succ, Engine.run, hsweep]
      exact hrun
    · rw [Nat.succ_mul, Nat.add_comm]
      exact hswept₁.trans hswept₂

end Timed

/-! ## In every state -/

/-- Sweeps at some time remove the keys in `due`, at most `limit` of them at once. -/
structure Drains (e : Engine) (limit now : Nat) (due : List Bytes) : Prop where
  nodup : due.Nodup
  /-- These are the keys whose deadlines have come. -/
  mem_iff : ∀ key, key ∈ due ↔ e.IsDue now key
  /-- A sweep answers how many keys it removes, and removes them with their deadlines. -/
  sweep : ∃ gone e', e.sweep now = .ok (min limit due.length, e') ∧
    gone.length = min limit due.length ∧ Swept now limit e gone e' ∧
    e'.deadlineCount + gone.length = e.deadlineCount
  /-- Enough sweeps remove them all. -/
  sweeps : 1 ≤ limit → ∀ n, due.length ⌈/⌉ limit ≤ n →
    ∃ gone e', e.run (List.replicate n (.sweep now)) = .ok ([], e') ∧ gone.Perm due ∧
      Swept now (n * limit) e gone e' ∧ ∀ key, ¬e'.IsDue now key

namespace Timed

/-- The keys whose deadlines have come. -/
theorem exists_due (h : e.Timed m d) (now : Nat) :
    ∃ due : List Bytes, due.Nodup ∧ ∀ key, key ∈ due ↔ e.IsDue now key := by
  classical
  obtain ⟨keys, hnodup, hkeys, -⟩ := h.exists_keys
  refine ⟨keys.filter fun key => e.IsDue now key, hnodup.filter _, fun key => ?_⟩
  rw [List.mem_filter, decide_eq_true_eq, hkeys, and_iff_right_iff_imp]
  rintro ⟨t, -, hdue⟩
  exact ⟨t, hdue⟩

theorem drains (h : e.Timed m d) (now : Nat) :
    ∃ due, e.Drains e.maxExpirationsPerSweep now due := by
  obtain ⟨due, hnodup, hdue⟩ := h.exists_due now
  refine ⟨due, hnodup, hdue, ?_, fun hlimit n hn => ?_⟩
  · obtain ⟨gone, e', m', d', hsweep, h', hswept⟩ := h.sweep now
    have hlength := hswept.length_eq hnodup hdue
    exact ⟨gone, e', by rw [hsweep, hlength], hlength, hswept, hswept.deadlineCount_add h h'⟩
  · obtain ⟨gone, e', m', d', hrun, -, hswept⟩ := h.sweeps now n
    have hle : due.length ≤ n * e.maxExpirationsPerSweep := by
      rw [Nat.mul_comm]
      exact (ceilDiv_le_iff_le_mul hlimit).mp hn
    have hall := hswept.perm_of_le hnodup hdue hle
    refine ⟨gone, e', hrun, hall, hswept, fun key hleft => ?_⟩
    obtain ⟨hkey, hnew⟩ := hswept.isDue_iff.mp hleft
    exact hnew (hall.mem_iff.mpr ((hdue key).mpr hkey))

/-- The workers play no part in it. -/
theorem withPool (h : e.Timed m d) (pool : WorkerPool SortedSet) :
    Timed { e with pool } m d where
  represents := ⟨h.represents.valid, h.represents.tracks, h.represents.stores⟩
  ordered := h.ordered
  due := h.due
  gone := h.gone

end Timed

/-- **Sweeps remove exactly the due keys** in every state of an engine, whatever happened to it and
whatever its workers are at.  It takes as many events as a machine word can count to make a run
fail. -/
theorem run_drains (c : Config) (events : List Event) :
    (∃ replies e, (ofConfig c).run events = .ok (replies, e) ∧
        ∀ pool now, ∃ due, Drains { e with pool } c.maxExpirationsPerSweep now due) ∨
      (ofConfig c).run events = .error .overflow ∧ 0x8000000000000000 ≤ events.length := by
  refine (run_timed c events).imp_left ?_
  rintro ⟨replies, e, m, d, hrun, h⟩
  refine ⟨replies, e, hrun, fun pool now => ?_⟩
  have hlimit : e.maxExpirationsPerSweep = c.maxExpirationsPerSweep :=
    (timed_ofConfig c).run_limit hrun
  rw [← hlimit]
  exact (h.withPool pool).drains now

end KeyServer.Engine
