import KeyServer.Proofs.Engine.Keeping

/-! # What a sweep removes

`Swept now budget e gone e'` says that the keys in `gone` went, at most `budget` of them: all had
deadlines that had come, no key with an earlier deadline stayed, and the other keys have the
values and deadlines that they had.  If fewer went than might have gone, nothing more was due.

* **`Swept.trans`**: one sweep after another is a sweep with the sum of their budgets.
* **`Timed.sweepWithin`**: this is what the loop of a sweep does, one key at a time
  (`Timed.expireFirst`).
-/

namespace KeyServer.Engine

/-- Whether a key is there and has this value. -/
def ValueIs (e : Engine) (key : Bytes) (data : Data) : Prop :=
  ∃ h slot, e.keyspace.content h = some slot ∧ slot.item.key = key ∧ slot.item.data = data

/-- Whether a key is there and its deadline has come. -/
def IsDue (e : Engine) (now : Nat) (key : Bytes) : Prop :=
  ∃ t ≤ now, e.DeadlineIs key (some t)

/-- Some due keys went, the earliest first and at most `budget` of them, and nothing else
changed. -/
structure Swept (now budget : Nat) (e : Engine) (gone : List Bytes) (e' : Engine) : Prop where
  nodup : gone.Nodup
  due : ∀ key ∈ gone, e.IsDue now key
  values : ∀ key data, e'.ValueIs key data ↔ e.ValueIs key data ∧ key ∉ gone
  deadlines : ∀ key t, e'.DeadlineIs key t ↔ e.DeadlineIs key t ∧ key ∉ gone
  /-- No key that went had a later deadline than one that is left. -/
  earliest : ∀ key ∈ gone, ∀ t, e.DeadlineIs key (some t) →
    ∀ key' t', e'.DeadlineIs key' (some t') → t ≤ t'
  within : gone.length ≤ budget
  /-- With budget left, no due key is left. -/
  complete : gone.length < budget → ∀ key, ¬e'.IsDue now key
  limit : e'.maxExpirationsPerSweep = e.maxExpirationsPerSweep

variable {now budget budget' : Nat} {e e₁ e' : Engine} {gone gone' : List Bytes} {m : Keyspace}
  {d : Bytes → Option Nat}

namespace Swept

/-- Nothing goes if nothing may go or nothing is due. -/
theorem refl (hnone : budget = 0 ∨ ∀ key, ¬e.IsDue now key) : Swept now budget e [] e where
  nodup := .nil
  due := by simp
  values := by simp
  deadlines := by simp
  earliest := by simp
  within := Nat.zero_le budget
  complete := by
    intro hbudget
    rcases hnone with rfl | hnone
    · exact absurd hbudget (Nat.lt_irrefl 0)
    · exact hnone
  limit := rfl

/-- A key that goes later was not gone, and had the same deadlines. -/
theorem isDue_iff (h : Swept now budget e gone e') {key : Bytes} :
    e'.IsDue now key ↔ e.IsDue now key ∧ key ∉ gone := by
  constructor
  · rintro ⟨t, ht, hdue⟩
    obtain ⟨hdue, hkey⟩ := (h.deadlines key _).mp hdue
    exact ⟨⟨t, ht, hdue⟩, hkey⟩
  · rintro ⟨⟨t, ht, hdue⟩, hkey⟩
    exact ⟨t, ht, (h.deadlines key _).mpr ⟨hdue, hkey⟩⟩

/-- **One sweep after another** sweeps with both budgets. -/
theorem trans (h : Swept now budget e gone e₁) (h' : Swept now budget' e₁ gone' e') :
    Swept now (budget + budget') e (gone ++ gone') e' where
  nodup := by
    refine List.nodup_append.mpr ⟨h.nodup, h'.nodup, ?_⟩
    rintro key hkey _ hkey' rfl
    exact (h.isDue_iff.mp (h'.due key hkey')).2 hkey
  due := by
    intro key hkey
    rcases List.mem_append.mp hkey with hkey | hkey
    · exact h.due key hkey
    · exact (h.isDue_iff.mp (h'.due key hkey)).1
  values := by
    intro key data
    rw [h'.values, h.values, List.mem_append, not_or, and_assoc]
  deadlines := by
    intro key t
    rw [h'.deadlines, h.deadlines, List.mem_append, not_or, and_assoc]
  earliest := by
    intro key hkey t hdue key' t' hdue'
    rcases List.mem_append.mp hkey with hkey | hkey
    · exact h.earliest key hkey t hdue key' t' ((h'.deadlines key' _).mp hdue').1
    · have hleft := (h.isDue_iff.mp (h'.due key hkey)).2
      exact h'.earliest key hkey t ((h.deadlines key _).mpr ⟨hdue, hleft⟩) key' t' hdue'
  within := by
    rw [List.length_append]
    exact Nat.add_le_add h.within h'.within
  complete := by
    intro hlength key hdue
    rw [List.length_append] at hlength
    -- One of the two sweeps had budget left, and what is due now was due after both.
    by_cases hfirst : gone.length < budget
    · exact h.complete hfirst key (h'.isDue_iff.mp hdue).1
    · exact h'.complete (by omega) key hdue
  limit := h'.limit.trans h.limit

end Swept

/-! ## One key goes -/

/-- Emptying a slot takes the value of its key away, and of no other. -/
theorem Represents.valueIs_iff (h : e.Represents m) {i : Nat} {slot : Hashed Entry}
    (hi : e.keyspace.content i = some slot)
    (hsame : SameEntries (Function.update e.keyspace.content i none) e'.keyspace.content)
    {key : Bytes} {data : Data} :
    e'.ValueIs key data ↔ e.ValueIs key data ∧ key ≠ slot.item.key := by
  constructor
  · rintro ⟨j, slot', hj, rfl, rfl⟩
    obtain ⟨⟨hash, key, data, index⟩, hold, heq⟩ := hsame.exists_slot hj
    cases heq
    rw [Function.update_apply] at hold
    split at hold
    · cases hold
    · next hne =>
      exact ⟨⟨j, _, hold, rfl, rfl⟩, fun hkey => hne (h.stores.once j i _ slot hold hi hkey)⟩
  · rintro ⟨⟨j, slot', hj, rfl, rfl⟩, hne⟩
    have hji : j ≠ i := by
      rintro rfl
      rw [hi, Option.some_inj] at hj
      exact hne (by rw [hj])
    have hold : Function.update e.keyspace.content i none j = some slot' := by
      rw [Function.update_of_ne hji, hj]
    obtain ⟨⟨hash, key, data, index⟩, hj', heq⟩ := hsame.symm.exists_slot hold
    cases heq
    exact ⟨j, _, hj', rfl, rfl⟩

namespace Timed

/-- A key that is gone has no deadline, and the others have theirs. -/
theorem deadlineIs_erase_iff (h : e.Timed m d) {gone : Bytes}
    (h' : e'.Timed (m.erase gone) (Function.update d gone none)) {key : Bytes} {t : Option Nat} :
    e'.DeadlineIs key t ↔ e.DeadlineIs key t ∧ key ≠ gone := by
  rw [h'.deadlineIs_iff, h.deadlineIs_iff, AList.mem_erase]
  constructor
  · rintro ⟨⟨hne, hmem⟩, ht⟩
    rw [Function.update_of_ne hne] at ht
    exact ⟨⟨hmem, ht⟩, hne⟩
  · rintro ⟨⟨hmem, ht⟩, hne⟩
    rw [Function.update_of_ne hne]
    exact ⟨⟨hne, hmem⟩, ht⟩

/-- **The first due key** goes. -/
theorem expireFirst (h : e.Timed m d) {first : Deadline Nat}
    (hpeek : e.deadlines.peek? = some first) (hnow : first.expiresAt ≤ now) :
    ∃ entry keyspace',
      (e.deleteDeadline 0).keyspace.remove first.owner = .ok (some entry, keyspace') ∧
      let e' := dispose { e.deleteDeadline 0 with keyspace := keyspace' } entry.data
      e'.Timed (m.erase entry.key) (Function.update d entry.key none) ∧
        Swept now 1 e [entry.key] e' := by
  obtain ⟨slot, entry, keyspace', hi, hkey, hdue, hremove, hothers, h₁⟩ := h.expire hpeek
  let e₁ : Engine := { e.deleteDeadline 0 with keyspace := keyspace' }
  have h' := h₁.keep (dispose_keeps h₁.represents.valid entry.data)
    (h₁.represents.dispose entry.data)
  refine ⟨entry, keyspace', hremove, h', ?_⟩
  have hothers : SameEntries (Function.update e.keyspace.content first.owner none)
      (e₁.dispose entry.data).keyspace.content := by
    rw [dispose_keyspace]
    exact hothers
  have hlive : e.DeadlineIs entry.key (some first.expiresAt) :=
    h.deadlineIs_iff.mpr ⟨h.represents.has_iff.mp ⟨first.owner, slot, hi, hkey⟩, hdue⟩
  have hnext : e.nextExpiry? = some first.expiresAt := by rw [nextExpiry?, hpeek, Option.map_some]
  exact {
    nodup := List.nodup_singleton _
    due := by
      intro key hgone
      rw [List.mem_singleton.mp hgone]
      exact ⟨first.expiresAt, hnow, hlive⟩
    values := by
      intro key data
      rw [h.represents.valueIs_iff hi hothers, hkey, List.mem_singleton]
    deadlines := by
      intro key t
      rw [h.deadlineIs_erase_iff h', List.mem_singleton]
    earliest := by
      intro key hgone t ht key' t' ht'
      rw [List.mem_singleton.mp hgone, h.deadlineIs_iff, hdue] at ht
      cases ht.2
      exact (h.nextExpiry?_eq_some_iff.mp hnext).2 key' t' ((h.deadlineIs_erase_iff h').mp ht').1
    within := Nat.le_refl 1
    complete := fun hlength => absurd hlength (Nat.lt_irrefl 1)
    limit := dispose_limit e₁ entry.data }

/-! ## A whole sweep -/

/-- **The loop of a sweep** sweeps with the budget it has left. -/
theorem sweepWithin (now : Nat) : ∀ (budget done : Nat) {e : Engine} {m : Keyspace}
    {d : Bytes → Option Nat}, e.Timed m d →
    ∃ gone e' m' d', Engine.sweepWithin now budget done e = .ok (done + gone.length, e') ∧
      e'.Timed m' d' ∧ Swept now budget e gone e' := by
  intro budget
  induction budget with
  | zero => exact fun done e m d h => ⟨[], e, m, d, rfl, h, .refl (.inl rfl)⟩
  | succ budget ih =>
    intro done e m d h
    rw [Engine.sweepWithin]
    cases hpeek : e.deadlines.peek? with
    | none =>
      have hnext : e.nextExpiry? = none := by rw [nextExpiry?, hpeek, Option.map_none]
      refine ⟨[], e, m, d, rfl, h, .refl (.inr ?_)⟩
      rintro key ⟨t, -, hdue⟩
      exact h.nextExpiry?_eq_none_iff.mp hnext key t hdue
    | some first =>
      dsimp only
      split
      · next hlater =>
        have hnext : e.nextExpiry? = some first.expiresAt := by
          rw [nextExpiry?, hpeek, Option.map_some]
        refine ⟨[], e, m, d, rfl, h, .refl (.inr ?_)⟩
        rintro key ⟨t, ht, hdue⟩
        have hfirst := (h.nextExpiry?_eq_some_iff.mp hnext).2 key t hdue
        omega
      · next hdue =>
        obtain ⟨entry, keyspace', hremove, h₁, hfirst⟩ :=
          h.expireFirst hpeek (Nat.le_of_not_lt hdue)
        obtain ⟨gone, e', m', d', hsweep, h', hrest⟩ := ih (done + 1) h₁
        refine ⟨entry.key :: gone, e', m', d', ?_, h', Nat.add_comm 1 budget ▸ hfirst.trans hrest⟩
        rw [hremove, List.length_cons, Nat.add_comm gone.length, ← Nat.add_assoc]
        exact hsweep

/-- **A sweep** has the budget that the engine sets. -/
theorem sweep (h : e.Timed m d) (now : Nat) :
    ∃ gone e' m' d', e.sweep now = .ok (gone.length, e') ∧ e'.Timed m' d' ∧
      Swept now e.maxExpirationsPerSweep e gone e' := by
  obtain ⟨gone, e', m', d', hsweep, h', hswept⟩ :=
    Timed.sweepWithin now e.maxExpirationsPerSweep 0 h
  exact ⟨gone, e', m', d', by rw [Engine.sweep, hsweep, Nat.zero_add], h', hswept⟩

end Timed

end KeyServer.Engine
