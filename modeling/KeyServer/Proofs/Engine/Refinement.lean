import KeyServer.Proofs.Engine.SetCommands

/-! # Engines refine plain keyspaces

`Engine.run` lets requests and sweeps happen to an engine, in any order.

* **`run_refines`**: from a new engine on, the replies are the ones of a plain keyspace from
  which the sweeps remove some keys.  The only alternative is a set that does not fit into a
  machine word, which takes as many events to fill.
* `ReachedIn.exists_represents`: so whatever state an engine is in, it represents a plain
  keyspace.
-/

namespace KeyServer

namespace Engine

/-- The reply to a request, as bytes. -/
def reply (e : Engine) (args : List Bytes) (now : Nat) : Except Fault (Bytes × Engine) := do
  let (out, e) ← e.execute args now Buffer.empty
  return (← out.unread, e)

/-- Lets some events happen; returns the replies to the requests. -/
def run (e : Engine) : List Event → Except Fault (List Bytes × Engine)
  | [] => .ok ([], e)
  | .request args now :: events => do
    let (bytes, e) ← e.reply args now
    let (replies, e) ← e.run events
    return (bytes :: replies, e)
  | .sweep now :: events => do
    let (_, e) ← e.sweep now
    e.run events

/-- The states that an engine can be in after `n` events.  How far its workers have got with
their tasks is left open. -/
def ReachedIn (e : Engine) (n : Nat) : Prop :=
  ∃ c events replies e' pool, events.length = n ∧ (ofConfig c).run events = .ok (replies, e') ∧
    e = { e' with pool }

variable {e : Engine} {m : Keyspace}

/-! ## Steps -/

/-- **A request** is answered as by the plain keyspace, or overflows. -/
theorem execute_refines (h : e.Represents m) (args : List Bytes) (now : Nat) :
    (∃ v e', Responds (e.execute args now) v e' ∧ m.AdmitsRequest args v ∧
        e'.Represents (m.afterRequest args)) ∨
      m.Oversized ∧ Overflows (e.execute args now) := by
  unfold Engine.execute Keyspace.AdmitsRequest Keyspace.afterRequest
  cases hparse : Command.parse args with
  | ok command => exact perform_refines h (Command.numeric_of_parse hparse) now
  | error refusal =>
    refine .inl ⟨_, e, fun q data marks hq => ?_, rfl, h⟩
    obtain ⟨q', hwrite, hq'⟩ := appends_writeRefusal refusal hq
    exact ⟨q', by simp [hwrite], hq'⟩

/-- A reply consists of the bytes that are appended to any buffer. -/
theorem Responds.reply {args : List Bytes} {now : Nat} {v : Response} {e' : Engine}
    (h : Responds (e.execute args now) v e') : e.reply args now = .ok (v.encode, e') := by
  obtain ⟨q, hrun, hq⟩ := h Buffer.holds_empty
  simp [Engine.reply, hrun, hq.unread]

theorem Overflows.reply {args : List Bytes} {now : Nat} (h : Overflows (e.execute args now)) :
    e.reply args now = .error .overflow := by
  simp [Engine.reply, h Buffer.holds_empty]

/-- **A sweep** removes some keys. -/
theorem sweepWithin_represents (now : Nat) : ∀ {budget : Nat} (done : Nat) {e : Engine}
    {m : Keyspace}, e.Represents m →
    ∃ gone e', sweepWithin now budget done e = .ok (done + gone.length, e') ∧ gone.Nodup ∧
      (∀ key ∈ gone, key ∈ m) ∧ e'.Represents (m.eraseAll gone) := by
  intro budget
  induction budget with
  | zero => exact fun done _ _ h => ⟨[], _, rfl, .nil, by simp, h⟩
  | succ budget ih =>
    intro done e m h
    cases hpeek : e.deadlines.peek? with
    | none => exact ⟨[], e, by simp [sweepWithin, hpeek], .nil, by simp, h⟩
    | some first =>
      by_cases hnow : now < first.expiresAt
      · exact ⟨[], e, by simp [sweepWithin, hpeek, hnow], .nil, by simp, h⟩
      · obtain ⟨entry, t', hremove, hmem, h₁⟩ := h.expire hpeek
        obtain ⟨gone, e', hsweep, hnodup, hgone, h'⟩ := ih (done + 1) (h₁.dispose entry.data)
        -- The keys that go later are there without this one, so no key goes twice.
        refine ⟨entry.key :: gone, e', ?_, List.nodup_cons.mpr ⟨fun hkey => ?_, hnodup⟩, ?_, h'⟩
        · rw [sweepWithin, hpeek]
          simp only [if_neg hnow, hremove, ok_bind, hsweep, List.length_cons]
          congr 2
          omega
        · exact (AList.mem_erase.mp (hgone _ hkey)).1 rfl
        · intro key hkey
          rcases List.mem_cons.mp hkey with rfl | hkey
          · exact hmem
          · exact (AList.mem_erase.mp (hgone key hkey)).2

/-- A sweep tells how many keys it removes. -/
theorem sweep_represents (h : e.Represents m) (now : Nat) :
    ∃ gone e', e.sweep now = .ok (gone.length, e') ∧ gone.Nodup ∧ (∀ key ∈ gone, key ∈ m) ∧
      e'.Represents (m.eraseAll gone) := by
  obtain ⟨gone, e', hsweep, hrest⟩ := sweepWithin_represents now 0 h
  exact ⟨gone, e', by rw [sweep, hsweep, Nat.zero_add], hrest⟩

end Engine

/-! ## Sizes -/

namespace Keyspace

/-- Whether all sorted sets have at most `n` members. -/
def Bounded (m : Keyspace) (n : Nat) : Prop :=
  ∀ key scores, m.lookup key = some (.set scores) → scores.members.length ≤ n

variable {m : Keyspace} {n : Nat}

theorem Bounded.le_of_oversized (h : m.Bounded n) (hm : m.Oversized) : 0x8000000000000000 ≤ n := by
  obtain ⟨key, scores, hlookup, hsize⟩ := hm
  exact Nat.le_trans hsize (h key scores hlookup)

theorem Bounded.mono (h : m.Bounded n) {n' : Nat} (hn : n ≤ n') : m.Bounded n' :=
  fun key scores hlookup => Nat.le_trans (h key scores hlookup) hn

theorem Bounded.insert (h : m.Bounded n) (key : Bytes) {v : Value}
    (hv : ∀ scores, v = .set scores → scores.members.length ≤ n) : Bounded (m.insert key v) n := by
  intro key' scores hlookup
  by_cases hkey : key' = key
  · subst hkey
    rw [AList.lookup_insert, Option.some_inj] at hlookup
    exact hv scores hlookup
  · rw [AList.lookup_insert_ne hkey] at hlookup
    exact h key' scores hlookup

theorem Bounded.erase (h : m.Bounded n) (key : Bytes) : Bounded (m.erase key) n := by
  intro key' scores hlookup
  by_cases hkey : key' = key
  · subst hkey
    rw [AList.lookup_erase] at hlookup
    cases hlookup
  · rw [AList.lookup_erase_ne hkey] at hlookup
    exact h key' scores hlookup

theorem Bounded.eraseAll (h : m.Bounded n) (keys : List Bytes) : (m.eraseAll keys).Bounded n := by
  induction keys generalizing m with
  | nil => exact h
  | cons key keys ih => exact ih (h.erase key)

theorem Bounded.scores (h : m.Bounded n) {key : Bytes} {scores : Scores}
    (hscores : m.scores key = .ok scores) : scores.members.length ≤ n := by
  unfold Keyspace.scores at hscores
  split at hscores
  · cases hscores
    exact Nat.zero_le n
  · next hlookup =>
    cases hscores
    exact h key _ hlookup
  · cases hscores

/-- A command adds at most one member. -/
theorem Bounded.after (h : m.Bounded n) (command : Command) :
    (m.after command).Bounded (n + 1) := by
  have hmono := h.mono (Nat.le_add_right n 1)
  cases command with
  | set key data => exact hmono.insert key (by simp)
  | del key => exact hmono.erase key
  | zadd key score name =>
    rw [Keyspace.after]
    split
    · next scores hscores =>
      refine hmono.insert key fun scores' heq => ?_
      cases heq
      rw [Scores.members_insert, List.length_cons]
      exact Nat.succ_le_succ (Nat.le_trans (List.length_filter_le _ _) (h.scores hscores))
    · exact hmono
  | zrem key name =>
    rw [Keyspace.after]
    split
    · next scores hlookup =>
      refine hmono.insert key fun scores' heq => ?_
      cases heq
      rw [Scores.members_erase]
      exact Nat.le_trans (List.length_filter_le _ _) (hmono key scores hlookup)
    · exact hmono
  | _ => exact hmono

theorem Bounded.afterRequest (h : m.Bounded n) (args : List Bytes) :
    (m.afterRequest args).Bounded (n + 1) := by
  unfold Keyspace.afterRequest
  split
  · exact h.after _
  · exact h.mono (Nat.le_add_right n 1)

end Keyspace

/-! ## Runs -/

namespace Engine

variable {e : Engine} {m : Keyspace}

/-- From an engine that represents a plain keyspace on, both run alike. -/
theorem run_represents (events : List Event) : ∀ {e : Engine} {m : Keyspace} {n : Nat},
    e.Represents m → m.Bounded n →
      (∃ vs e' m', e.run events = .ok (vs.map Response.encode, e') ∧ m.Runs events vs m' ∧
          e'.Represents m' ∧ m'.Bounded (n + events.length)) ∨
        e.run events = .error .overflow ∧ 0x8000000000000000 ≤ n + events.length := by
  induction events with
  | nil => exact fun h hn => .inl ⟨[], _, _, rfl, .nil _, h, hn⟩
  | cons event events ih =>
    intro e m n h hn
    rw [List.length_cons]
    cases event with
    | request args now =>
      rcases execute_refines h args now with ⟨v, e₁, hresponds, hv, h₁⟩ | ⟨hsize, hoverflow⟩
      · rcases ih h₁ (hn.afterRequest args) with
          ⟨vs, e', m', hrun, hruns, h', hm'⟩ | ⟨hrun, hlarge⟩
        · exact .inl ⟨v :: vs, e', m', by simp [run, hresponds.reply, hrun], .request now hv hruns,
            h', hm'.mono (by omega)⟩
        · exact .inr ⟨by simp [run, hresponds.reply, hrun], by omega⟩
      · have := hn.le_of_oversized hsize
        exact .inr ⟨by simp [run, hoverflow.reply], by omega⟩
    | sweep now =>
      obtain ⟨gone, e₁, hsweep, -, hgone, h₁⟩ := sweep_represents h now
      rcases ih h₁ (hn.eraseAll gone) with
        ⟨vs, e', m', hrun, hruns, h', hm'⟩ | ⟨hrun, hlarge⟩
      · exact .inl ⟨vs, e', m', by simp [run, hsweep, hrun], .sweep now hgone hruns, h',
          hm'.mono (by omega)⟩
      · exact .inr ⟨by simp [run, hsweep, hrun], by omega⟩

theorem bounded_empty : Keyspace.Bounded ∅ 0 := by
  intro key scores hlookup
  rw [AList.lookup_empty] at hlookup
  cases hlookup

/-- **An engine refines a plain keyspace**: whatever happens to it, it replies as the plain
keyspace would and ends up with its keys and values.  It takes a set of more members than a
machine word can count, and so as many events, to make a run fail. -/
theorem run_refines (c : Config) (events : List Event) :
    (∃ vs e m, (ofConfig c).run events = .ok (vs.map Response.encode, e) ∧
        Keyspace.Runs ∅ events vs m ∧ e.Represents m) ∨
      (ofConfig c).run events = .error .overflow ∧ 0x8000000000000000 ≤ events.length := by
  rcases run_represents events (represents_ofConfig c) bounded_empty with
    ⟨vs, e, m, hrun, hruns, h, -⟩ | ⟨hrun, hlarge⟩
  · exact .inl ⟨vs, e, m, hrun, hruns, h⟩
  · exact .inr ⟨hrun, by omega⟩

theorem reachedIn_ofConfig (c : Config) : (ofConfig c).ReachedIn 0 :=
  ⟨c, [], [], ofConfig c, (ofConfig c).pool, rfl, rfl, rfl⟩

/-- There are states with any string, since it can be stored. -/
theorem exists_represents_stored (c : Config) (data : Bytes) : ∃ (e : Engine) (m : Keyspace),
    e.ReachedIn 1 ∧ e.Represents m ∧ m.Bounded 1 ∧ m.lookup [107] = some (.str data) := by
  have hset : Command.parse [[115, 101, 116], [107], data] = .ok (.set [107] data) := rfl
  rcases run_represents [.request [[115, 101, 116], [107], data] 0] (represents_ofConfig c)
      bounded_empty with ⟨vs, e, m, hrun, hruns, he, hm⟩ | ⟨-, hlarge⟩
  · cases hruns with
    | request now hv hrest =>
      cases hrest
      refine ⟨e, _, ⟨c, _, _, e, e.pool, rfl, hrun, rfl⟩, he, hm, ?_⟩
      rw [Keyspace.afterRequest, hset]
      exact AList.lookup_insert _
  · exact absurd hlarge (by simp)

/-- An engine represents a plain keyspace in every state it can be in. -/
theorem ReachedIn.exists_represents {n : Nat} (h : e.ReachedIn n) :
    ∃ m, e.Represents m ∧ m.Bounded n := by
  obtain ⟨c, events, replies, e', pool, rfl, hrun, rfl⟩ := h
  rcases run_represents events (represents_ofConfig c) bounded_empty with
    ⟨vs, e₁, m, hrun', -, h₁, hm⟩ | ⟨hrun', -⟩
  · rw [hrun'] at hrun
    cases hrun
    rw [Nat.zero_add] at hm
    exact ⟨m, ⟨h₁.valid, h₁.tracks, h₁.stores⟩, hm⟩
  · rw [hrun'] at hrun
    cases hrun

end Engine

end KeyServer
