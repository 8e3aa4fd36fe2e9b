import KeyServer.Proofs.Engine.Keeping
import KeyServer.Proofs.Engine.Refinement
import KeyServer.Proofs.Engine.Sweeping

/-! # Keyspace and heap correspond

Every deadline in the heap belongs to an entry that notes its position, and every note leads to
a deadline of the entry.  This is what `Timed` says by owner and by key; here it is carried
through whatever happens to an engine (`Timed.event`, `Timed.run`).

* **`run_corresponds`**: in every state of an engine the keyspace and the heap correspond one to
  one, so no position is out of range, and no sweep finds an owner missing (`Corresponds`).
-/

namespace KeyServer

/-- How long an event lets a key live, and since when. -/
def Event.expire? (event : Event) (key : Bytes) : Option (Int × Nat) :=
  match event with
  | .request args now =>
    match Command.parse args with
    | .ok command => Engine.givenBy command now key
    | .error _ => none
  | .sweep _ => none

namespace Engine

variable {e e' : Engine} {m : Keyspace} {d : Bytes → Option Nat}

/-! ## Runs in parts -/

theorem run_append (events events' : List Event) : ∀ e : Engine, e.run (events ++ events') = do
    let (replies, e) ← e.run events
    let (replies', e) ← e.run events'
    return (replies ++ replies', e) := by
  induction events with
  | nil =>
    intro e
    cases h : e.run events' <;> simp [run, h]
  | cons event events ih =>
    intro e
    cases event with
    | request args now => simp [run, ih]
    | sweep now => simp [run, ih]

/-- A run in two parts. -/
theorem run_append_eq_ok {events events' : List Event} {replies : List Bytes}
    (h : e.run (events ++ events') = .ok (replies, e')) :
    ∃ replies₁ e₁ replies₂, e.run events = .ok (replies₁, e₁) ∧
      e₁.run events' = .ok (replies₂, e') := by
  rw [run_append] at h
  obtain ⟨⟨replies₁, e₁⟩, h₁, h⟩ := bind_eq_ok_iff.mp h
  obtain ⟨⟨replies₂, e₂⟩, h₂, h⟩ := bind_eq_ok_iff.mp h
  cases h
  exact ⟨replies₁, e₁, replies₂, h₁, h₂⟩

/-! ## Whatever happens -/

/-- **Any event** that succeeds carries the deadlines over. -/
theorem Timed.event (h : e.Timed m d) {event : Event} {replies : List Bytes}
    (hrun : e.run [event] = .ok (replies, e')) :
    ∃ m' d', e'.Timed m' d' ∧ Carries event.expire? m d m' d' := by
  cases event with
  | sweep now =>
    obtain ⟨⟨n, e₁⟩, hsweep, hrun⟩ := bind_eq_ok_iff.mp hrun
    cases hrun
    obtain ⟨gone, e₁, m', d', hsweep', h', hswept⟩ := h.sweep now
    cases hsweep.symm.trans hsweep'
    have hkeys : ∀ key ∈ m', key ∈ m ∧ d key = d' key := by
      intro key hkey
      have hdue := h'.deadlineIs_iff.mpr ⟨hkey, rfl⟩
      exact h.deadlineIs_iff.mp ((hswept.deadlines key _).mp hdue).1
    exact ⟨m', d', h', fun key hkey hnew => absurd (hkeys key hkey).1 hnew,
      fun key hkey _ => (hkeys key hkey).2.symm⟩
  | request args now =>
    obtain ⟨⟨bytes, e₁⟩, hreply, hrun⟩ := bind_eq_ok_iff.mp hrun
    cases hrun
    obtain ⟨⟨out, e₁⟩, hexecute, hreply⟩ := bind_eq_ok_iff.mp hreply
    obtain ⟨_, _, hreply⟩ := bind_eq_ok_iff.mp hreply
    cases hreply
    rw [Engine.execute] at hexecute
    have hgiven : ∀ key, (Event.request args now).expire? key = match Command.parse args with
      | .ok command => givenBy command now key
      | .error _ => none := fun _ => rfl
    cases hparse : Command.parse args with
    | ok command =>
      rw [hparse] at hexecute
      obtain ⟨d', h', hcarries⟩ :=
        h.perform (Command.numeric_of_parse hparse) Buffer.holds_empty hexecute
      refine ⟨_, d', h', hcarries.new, fun key hkey hold => ?_⟩
      rw [hgiven, hparse]
      exact hcarries.old key hkey hold
    | error refusal =>
      rw [hparse] at hexecute
      obtain rfl := eq_of_write hexecute
      exact ⟨m, d, h, h.carries_self fun key _ _ => by rw [hgiven, hparse]⟩

/-- Through any events some deadlines are told. -/
theorem Timed.run {events : List Event} : ∀ {e : Engine} {m : Keyspace} {d : Bytes → Option Nat}
    {replies : List Bytes}, e.Timed m d → e.run events = .ok (replies, e') →
    ∃ m' d', e'.Timed m' d' := by
  induction events with
  | nil =>
    rintro e m d replies h ⟨⟩
    exact ⟨m, d, h⟩
  | cons event events ih =>
    intro e m d replies h hrun
    rw [← List.singleton_append] at hrun
    obtain ⟨replies₁, e₁, replies₂, hevent, hrest⟩ := run_append_eq_ok hrun
    obtain ⟨m₁, d₁, h₁, -⟩ := h.event hevent
    exact ih h₁ hrest

/-- The state of a new engine after some events. -/
theorem exists_timed {c : Config} {events : List Event} {replies : List Bytes}
    (hrun : (ofConfig c).run events = .ok (replies, e)) : ∃ m d, e.Timed m d :=
  (timed_ofConfig c).run hrun

/-- **Some deadlines are told** by the state of a new engine after any events.  It takes as many
events as a machine word can count to make a run fail. -/
theorem run_timed (c : Config) (events : List Event) :
    (∃ replies e m d, (ofConfig c).run events = .ok (replies, e) ∧ e.Timed m d) ∨
      (ofConfig c).run events = .error .overflow ∧ 0x8000000000000000 ≤ events.length := by
  rcases run_represents events (represents_ofConfig c) bounded_empty with
    ⟨vs, e, m, hrun, -, -, -⟩ | ⟨hrun, hlarge⟩
  · obtain ⟨m, d, h⟩ := exists_timed hrun
    exact .inl ⟨_, e, m, d, hrun, h⟩
  · exact .inr ⟨hrun, by omega⟩

/-! ## One to one -/

/-- Removes at most `budget` keys whose deadline has come, as `sweepWithin`, and takes `missing`
where the owner of a deadline is not there. -/
def sweepOrWithin (missing : Engine → Except Fault Engine) (now : Nat) :
    (budget done : Nat) → Engine → Except Fault (Nat × Engine)
  | 0, done, e => .ok (done, e)
  | budget + 1, done, e =>
    match e.deadlines.peek? with
    | none => .ok (done, e)
    | some first =>
      if now < first.expiresAt then .ok (done, e)
      else do
        let e := e.deleteDeadline 0
        let (entry, keyspace) ← e.keyspace.remove first.owner
        let e := { e with keyspace }
        let e ← match entry with
          | some entry => pure (e.dispose entry.data)
          | none => missing e
        sweepOrWithin missing now budget (done + 1) e

/-- A sweep that does something else about a deadline whose owner is missing. -/
def sweepOr (missing : Engine → Except Fault Engine) (e : Engine) (now : Nat) :
    Except Fault (Nat × Engine) :=
  sweepOrWithin missing now e.maxExpirationsPerSweep 0 e

/-- Sweeps pass over such deadlines. -/
theorem sweepOr_ok (e : Engine) (now : Nat) : sweepOr .ok e now = e.sweep now := by
  have hwithin : ∀ (budget done : Nat) (e : Engine),
      sweepOrWithin .ok now budget done e = sweepWithin now budget done e := by
    intro budget
    induction budget with
    | zero => exact fun _ _ => rfl
    | succ budget ih =>
      intro done e
      rw [sweepOrWithin, sweepWithin]
      cases e.deadlines.peek? with
      | none => rfl
      | some first =>
        dsimp only
        split
        · rfl
        · refine bind_congr fun r => ?_
          obtain ⟨_ | entry, keyspace⟩ := r <;> exact ih _ _
  exact hwithin _ _ e

/-- **No owner is missing** in a sweep. -/
theorem Represents.sweepOrWithin_eq (missing : Engine → Except Fault Engine) (now : Nat) :
    ∀ {budget done : Nat} {e : Engine} {m : Keyspace}, e.Represents m →
      sweepOrWithin missing now budget done e = Engine.sweepWithin now budget done e := by
  intro budget
  induction budget with
  | zero => exact fun _ => rfl
  | succ budget ih =>
    intro done e m h
    rw [sweepOrWithin, Engine.sweepWithin]
    cases hpeek : e.deadlines.peek? with
    | none => rfl
    | some first =>
      obtain ⟨entry, t', hremove, -, h₁⟩ := h.expire hpeek
      simp only [hremove, ok_bind, pure_eq_ok, ih (h₁.dispose entry.data)]

/-- The keyspace and the heap of an engine correspond one to one. -/
structure Corresponds (e : Engine) : Prop where
  /-- The owner of every deadline is a live entry that notes its position. -/
  owner : ∀ p item, e.deadlines.items[p]? = some item →
    ∃ entry, e.keyspace.get? item.owner = some entry ∧ entry.heapIndex = some p
  /-- Every note is in range and leads to the deadline of its entry. -/
  index : ∀ h entry p, e.keyspace.get? h = some entry → entry.heapIndex = some p →
    p < e.deadlineCount ∧ (e.deadlines.items[p]?.map (·.owner)) = some h
  ordered : DeadlineHeap.Ordered e.deadlines.items
  /-- No question for a deadline looks outside the heap. -/
  pttl : ∀ key now, ∃ v e', Responds (e.pttl key now) v e'
  /-- No sweep finds an owner missing. -/
  sweep : ∀ missing now, sweepOr missing e now = e.sweep now
  /-- The heap counts the keys that have a deadline. -/
  count : ∃ keys : List Bytes, keys.Nodup ∧
    (∀ key, key ∈ keys ↔ ∃ t, e.DeadlineIs key (some t)) ∧ e.deadlineCount = keys.length

namespace Timed

/-- The keys whose deadlines are in the heap. -/
theorem exists_keys (h : e.Timed m d) : ∃ keys : List Bytes, keys.Nodup ∧
    (∀ key, key ∈ keys ↔ ∃ t, e.DeadlineIs key (some t)) ∧ e.deadlineCount = keys.length := by
  have hslot : ∀ {p : Nat} (hp : p < e.deadlines.items.size), ∃ slot,
      e.keyspace.content e.deadlines.items[p].owner = some slot ∧ slot.item.heapIndex = some p :=
    fun hp => h.represents.exists_slot (Array.getElem?_eq_getElem hp)
  let keyOf (item : Deadline Nat) : Bytes :=
    ((e.keyspace.content item.owner).map (·.item.key)).getD []
  have hkeyOf : ∀ {item : Deadline Nat} {slot : Hashed Entry},
      e.keyspace.content item.owner = some slot → keyOf item = slot.item.key :=
    fun hslot => by simp [keyOf, hslot]
  refine ⟨e.deadlines.items.toList.map keyOf, ?_, fun key => ?_, ?_⟩
  · -- Two positions cannot be noted by the same entry.
    rw [List.Nodup, List.pairwise_map, List.pairwise_iff_getElem]
    intro i j hi hj hij heq
    rw [Array.length_toList] at hi hj
    rw [Array.getElem_toList, Array.getElem_toList] at heq
    obtain ⟨slot, hslot₁, hindex₁⟩ := hslot hi
    obtain ⟨slot', hslot₂, hindex₂⟩ := hslot hj
    rw [hkeyOf hslot₁, hkeyOf hslot₂] at heq
    have howner := h.represents.stores.once _ _ slot slot' hslot₁ hslot₂ heq
    rw [howner, hslot₂, Option.some_inj] at hslot₁
    rw [hslot₁, hindex₁, Option.some_inj] at hindex₂
    omega
  · rw [List.mem_map]
    constructor
    · rintro ⟨item, hitem, rfl⟩
      obtain ⟨p, hp, rfl⟩ := Array.mem_iff_getElem.mp (Array.mem_toList_iff.mp hitem)
      obtain ⟨slot, hi, -⟩ := hslot hp
      rw [hkeyOf hi]
      have hdue := (h.due _ slot _ hi).mp (Array.getElem_mem hp)
      exact ⟨_, h.deadlineIs_iff.mpr ⟨h.represents.has_iff.mp ⟨_, slot, hi, rfl⟩, hdue⟩⟩
    · rintro ⟨t, hdue⟩
      obtain ⟨hlive, hdue⟩ := h.deadlineIs_iff.mp hdue
      obtain ⟨i, slot, hi, rfl⟩ := h.represents.has_iff.mpr hlive
      exact ⟨⟨t, i⟩, Array.mem_toList_iff.mpr ((h.due i slot t hi).mpr hdue), hkeyOf hi⟩
  · rw [List.length_map, Array.length_toList]
    rfl

theorem corresponds (h : e.Timed m d) : e.Corresponds where
  owner p item hp := by
    obtain ⟨slot, hi, hindex⟩ := h.represents.exists_slot hp
    exact ⟨slot.item, by rw [HashTable.get?_eq, hi, Option.map_some], hindex⟩
  index i entry p hi hindex := by
    rw [HashTable.get?_eq] at hi
    obtain ⟨slot, hslot, rfl⟩ := Option.map_eq_some_iff.mp hi
    have howner := (h.represents.tracks i p).mp ((indexOf_eq hslot).trans hindex)
    exact ⟨(DeadlineHeap.ownerAt_eq_some_iff.mp howner).1, howner⟩
  ordered := h.ordered
  pttl key now := by
    obtain ⟨e', hresponds⟩ := pttl_timed h key now
    exact ⟨_, e', hresponds⟩
  sweep missing now := h.represents.sweepOrWithin_eq missing now
  count := h.exists_keys

end Timed

/-- **Keyspace and heap correspond** in every state of an engine, whatever happened to it.  It
takes as many events as a machine word can count to make a run fail. -/
theorem run_corresponds (c : Config) (events : List Event) :
    (∃ replies e, (ofConfig c).run events = .ok (replies, e) ∧ e.Corresponds) ∨
      (ofConfig c).run events = .error .overflow ∧ 0x8000000000000000 ≤ events.length := by
  refine (run_timed c events).imp_left ?_
  rintro ⟨replies, e, m, d, hrun, h⟩
  exact ⟨replies, e, hrun, h.corresponds⟩

end Engine

end KeyServer
