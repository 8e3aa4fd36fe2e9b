import KeyServer.Proofs.Engine.Correspondence
import Mathlib.Data.List.Induction

/-! # How long keys live

A key has the deadline that it was last given since it was created, however the deadlines lie in
the heap and whatever happened to other keys.

* **`Since.timed`**: the deadline that a history leads to, event by event.
* **`run_keepsTime`**: in every state of an engine the deadlines are those of the histories, and
  requests set them and are told about them as they should (`KeepsTime`).
-/

namespace KeyServer

namespace Command

/-- The times to live of requests fit into a machine word. -/
theorem ttl_lt_of_parse {args : List Bytes} {key : Bytes} {ttl : Int}
    (h : parse args = .ok (.pexpire key ttl)) : ttl < 0x8000000000000000 := by
  have hinteger : ∀ {arg : Bytes}, integer arg = .ok ttl → ttl < 0x8000000000000000 := by
    intro arg harg
    unfold integer at harg
    split at harg
    · next hread =>
      cases harg
      have hfits := (Option.filter_eq_some_iff.mp hread).2
      rw [Integer.fitsWord, Bool.and_eq_true, decide_eq_true_eq, decide_eq_true_eq] at hfits
      exact hfits.2
    · cases harg
  unfold parse at h
  split at h
  · unfold build at h
    split at h
    case h_5 =>
      rw [bind_eq_ok_iff] at h
      obtain ⟨i, hi, ⟨⟩⟩ := h
      exact hinteger hi
    all_goals simp [bind_eq_ok_iff] at h
  · cases h

end Command

namespace Event

/-- When an event happens. -/
def time : Event → Nat
  | .request _ now | .sweep now => now

/-- Only one kind of request lets keys live. -/
theorem expire?_eq_some_iff {event : Event} {key : Bytes} {ttl : Int} {start : Nat} :
    event.expire? key = some (ttl, start) ↔
      ∃ args, event = .request args start ∧ Command.parse args = .ok (.pexpire key ttl) := by
  cases event with
  | sweep now => simp [expire?]
  | request args now =>
    rw [expire?]
    cases hparse : Command.parse args with
    | error refusal => simp [hparse]
    | ok command =>
      cases command with
      | pexpire key' ttl' =>
        by_cases hkey : key' = key
        · simp [Engine.givenBy, Command.ttl?, hkey, hparse, and_comm]
        · simp [Engine.givenBy, Command.ttl?, hkey, hparse]
      | _ => simp [Engine.givenBy, Command.ttl?, hparse]

/-- How long some events let a key live in the end, and since when. -/
def lastExpire? (events : List Event) (key : Bytes) : Option (Int × Nat) :=
  events.reverse.findSome? (·.expire? key)

theorem lastExpire?_concat (events : List Event) (event : Event) (key : Bytes) :
    lastExpire? (events ++ [event]) key = (event.expire? key).or (lastExpire? events key) := by
  rw [lastExpire?, List.reverse_append, List.reverse_singleton, List.singleton_append,
    List.findSome?_cons]
  cases event.expire? key <;> rfl

end Event

namespace Engine

variable {c : Config} {events : List Event} {e e' : Engine} {key : Bytes} {m : Keyspace}
  {d : Bytes → Option Nat}

/-! ## Histories -/

/-- Whether a key is there after some events. -/
def HasAfter (c : Config) (events : List Event) (key : Bytes) : Prop :=
  ∃ replies e, (ofConfig c).run events = .ok (replies, e) ∧ e.Has key

/-- What happened since a key was last created: it was not there before, and was there ever
after. -/
def Since (c : Config) (events : List Event) (key : Bytes) (since : List Event) : Prop :=
  ∃ before birth, events = before ++ birth :: since ∧ ¬HasAfter c before key ∧
    ∀ mid, mid <+: since → HasAfter c (before ++ birth :: mid) key

theorem HasAfter.of_run {replies : List Bytes} (h : HasAfter c events key)
    (hrun : (ofConfig c).run events = .ok (replies, e)) : e.Has key := by
  obtain ⟨replies', e', hrun', hlive⟩ := h
  cases hrun.symm.trans hrun'
  exact hlive

/-- The deadline that is left by what gave a key a time to live. -/
def deadlineOf (given : Option (Int × Nat)) : Option Nat := given.bind fun r => deadlineFor r.1 r.2

/-- **The deadline of a key** follows from what happened since it was created. -/
theorem Since.timed {since : List Event} (h : Since c events key since) {replies : List Bytes}
    (hrun : (ofConfig c).run events = .ok (replies, e)) :
    ∃ m d, e.Timed m d ∧ key ∈ m ∧ d key = deadlineOf (Event.lastExpire? since key) := by
  obtain ⟨before, birth, rfl, hbefore, hafter⟩ := h
  induction since using List.reverseRecOn generalizing replies e with
  | nil =>
    obtain ⟨replies₁, e₁, replies₂, hrun₁, hbirth⟩ := run_append_eq_ok hrun
    obtain ⟨m₁, d₁, h₁⟩ := exists_timed hrun₁
    obtain ⟨m, d, h, hcarries⟩ := h₁.event hbirth
    have hnew : key ∉ m₁ := fun hkey =>
      hbefore ⟨replies₁, e₁, hrun₁, h₁.represents.has_iff.mpr hkey⟩
    have hlive : key ∈ m := h.represents.has_iff.mp ((hafter [] (List.prefix_refl [])).of_run hrun)
    exact ⟨m, d, h, hlive, hcarries.new key hlive hnew⟩
  | append_singleton since event ih =>
    have hlive := (hafter _ (List.prefix_refl _)).of_run hrun
    rw [← List.cons_append, ← List.append_assoc] at hrun
    obtain ⟨replies₁, e₁, replies₂, hrun₁, hevent⟩ := run_append_eq_ok hrun
    obtain ⟨m₁, d₁, h₁, hold, hdue⟩ := ih hrun₁ fun mid hmid =>
      hafter mid (List.prefix_concat_iff.mpr (.inr hmid))
    obtain ⟨m, d, h, hcarries⟩ := h₁.event hevent
    have hkey := h.represents.has_iff.mp hlive
    refine ⟨m, d, h, hkey, ?_⟩
    rw [hcarries.old key hkey hold, hdue, Event.lastExpire?_concat]
    cases event.expire? key <;> rfl

/-- A key that is there was created at some time. -/
theorem exists_since {replies : List Bytes} (hrun : (ofConfig c).run events = .ok (replies, e))
    (hlive : e.Has key) : ∃ since, Since c events key since := by
  induction events using List.reverseRecOn generalizing replies e with
  | nil =>
    cases hrun
    obtain ⟨i, slot, hi, -⟩ := hlive
    simp [ofConfig] at hi
  | append_singleton events event ih =>
    obtain ⟨replies₁, e₁, replies₂, hrun₁, hevent⟩ := run_append_eq_ok hrun
    by_cases hold : e₁.Has key
    · obtain ⟨since, before, birth, rfl, hbefore, hafter⟩ := ih hrun₁ hold
      refine ⟨since ++ [event], before, birth, by simp, hbefore, fun mid hmid => ?_⟩
      rcases List.prefix_concat_iff.mp hmid with rfl | hmid
      · exact ⟨replies, e, by simpa using hrun, hlive⟩
      · exact hafter mid hmid
    · refine ⟨[], events, event, rfl, fun h => hold (h.of_run hrun₁), fun mid hmid => ?_⟩
      rw [List.prefix_nil.mp hmid]
      exact ⟨replies, e, hrun, hlive⟩

/-! ## In every state -/

/-- The deadlines of keys are those of their histories, which are the events in `events`. -/
structure KeepsTime (c : Config) (events : List Event) (e : Engine) : Prop where
  /-- A key that is there was created at some time. -/
  born : ∀ key, e.Has key → ∃ since, Since c events key since
  /-- Its deadline is the one that it was given last since then, if it was given one. -/
  history : ∀ key since t, Since c events key since →
    (e.DeadlineIs key t ↔ t = deadlineOf (Event.lastExpire? since key))
  /-- No event that gives a key no deadline changes the one it has. -/
  kept : ∀ event replies e' key t, e.run [event] = .ok (replies, e') → event.expire? key = none →
    e.DeadlineIs key t → e'.Has key → e'.DeadlineIs key t
  /-- A new key has no deadline, whatever deadline a key of this name had before. -/
  fresh : ∀ event replies e' key, e.run [event] = .ok (replies, e') → ¬e.Has key → e'.Has key →
    e'.DeadlineIs key none
  /-- A deadline is set if the key is there. -/
  pexpire : ∀ args key ttl now, Command.parse args = .ok (.pexpire key ttl) → e.Has key →
    ∃ e', Responds (e.execute args now) (.int 1) e' ∧ e'.DeadlineIs key (deadlineFor ttl now)
  /-- Nothing changes if the key is not there. -/
  pexpireMissing : ∀ args key ttl now, Command.parse args = .ok (.pexpire key ttl) → ¬e.Has key →
    ∃ e', Responds (e.execute args now) (.int 0) e' ∧
      e' = { e with keyspace := e'.keyspace } ∧ e'.keyspace.content = e.keyspace.content
  /-- Who asks not before all that happened is told the time left, which is not more than the
  time given. -/
  pttl : ∀ args key now, Command.parse args = .ok (.pttl key) →
    (∀ event ∈ events, event.time ≤ now) →
    ∃ n e', Responds (e.execute args now) (.int n) e' ∧ (n = -2 ↔ ¬e.Has key) ∧
      (n = -1 ↔ e.DeadlineIs key none) ∧
      ∀ t, e.DeadlineIs key (some t) → n.toInt = max 0 ((t : Int) - now) ∧
        ∀ since ttl start, Since c events key since →
          Event.lastExpire? since key = some (ttl, start) → n.toInt ≤ ttl
  /-- The next deadline is the earliest of all. -/
  next : ∀ t, e.nextExpiry? = some t ↔
    (∃ key, e.DeadlineIs key (some t)) ∧ ∀ key t', e.DeadlineIs key (some t') → t ≤ t'
  /-- There is none when no key has a deadline. -/
  noNext : e.nextExpiry? = none ↔ ∀ key t, ¬e.DeadlineIs key (some t)

/-- **The time left** is at most the time that the key was given last. -/
theorem Since.left_le {since : List Event} (h : Since c events key since) {replies : List Bytes}
    (hrun : (ofConfig c).run events = .ok (replies, e)) {t now : Nat}
    (hdue : e.DeadlineIs key (some t)) (hnow : ∀ event ∈ events, event.time ≤ now) :
    ∃ ttl start, Event.lastExpire? since key = some (ttl, start) ∧
      ((t - now : Nat) : Int) ≤ ttl ∧ ttl < 0x8000000000000000 := by
  obtain ⟨m, d, htimed, hlive, hd⟩ := h.timed hrun
  obtain ⟨before, birth, rfl, -, -⟩ := h
  rw [(htimed.deadlineIs_iff.mp hdue).2] at hd
  cases hlast : Event.lastExpire? since key with
  | none =>
    rw [hlast] at hd
    cases hd
  | some given =>
    obtain ⟨ttl, start⟩ := given
    obtain ⟨event, hmem, hevent⟩ := List.exists_of_findSome?_eq_some hlast
    obtain ⟨args, rfl, hparse⟩ := Event.expire?_eq_some_iff.mp hevent
    have hstart : start ≤ now := hnow (.request args start) (by simp [List.mem_reverse.mp hmem])
    refine ⟨ttl, start, rfl, ?_, Command.ttl_lt_of_parse hparse⟩
    rw [hlast, deadlineOf, Option.bind_some, deadlineFor] at hd
    split at hd
    · cases hd
    · rw [Option.some_inj] at hd
      omega

theorem execute_eq {args : List Bytes} {command : Command}
    (hparse : Command.parse args = .ok command) (now : Nat) :
    e.execute args now = e.perform command now := by
  funext q
  rw [execute, hparse]

namespace Timed

/-- Only a time to live changes the deadline of a key that stays. -/
theorem deadlineIs_event (h : e.Timed m d) {event : Event} {replies : List Bytes}
    (hevent : e.run [event] = .ok (replies, e')) (hnone : event.expire? key = none)
    {t : Option Nat} (hdue : e.DeadlineIs key t) (hlive' : e'.Has key) : e'.DeadlineIs key t := by
  obtain ⟨m', d', h', hcarries⟩ := h.event hevent
  obtain ⟨hlive, rfl⟩ := h.deadlineIs_iff.mp hdue
  have hlive' := h'.represents.has_iff.mp hlive'
  rw [h'.deadlineIs_iff, hcarries.old key hlive' hlive, hnone]
  exact ⟨hlive', rfl⟩

/-- New keys have no deadline. -/
theorem deadlineIs_none (h : e.Timed m d) {event : Event} {replies : List Bytes}
    (hevent : e.run [event] = .ok (replies, e')) (hgone : ¬e.Has key) (hlive' : e'.Has key) :
    e'.DeadlineIs key none := by
  obtain ⟨m', d', h', hcarries⟩ := h.event hevent
  have hlive' := h'.represents.has_iff.mp hlive'
  rw [h.represents.has_iff] at hgone
  exact h'.deadlineIs_iff.mpr ⟨hlive', hcarries.new key hlive' hgone⟩

/-- A request sets the deadline of a key that is there. -/
theorem execute_pexpire (h : e.Timed m d) {args : List Bytes} {ttl : Int}
    (hparse : Command.parse args = .ok (.pexpire key ttl)) (hlive : e.Has key) (now : Nat) :
    ∃ e', Responds (e.execute args now) (.int 1) e' ∧
      e'.DeadlineIs key (deadlineFor ttl now) := by
  obtain ⟨e', d', hresponds, h', hcarries, -⟩ := pexpire_timed h key ttl now
  have hlive := h.represents.has_iff.mp hlive
  rw [AList.lookup_isSome.mpr hlive] at hresponds
  refine ⟨e', by rw [execute_eq hparse]; exact hresponds, h'.deadlineIs_iff.mpr ⟨hlive, ?_⟩⟩
  rw [hcarries.old key hlive hlive, givenBy, Command.ttl?, if_pos rfl]
  rfl

/-- A request for a missing key changes nothing. -/
theorem execute_pexpire_missing (h : e.Timed m d) {args : List Bytes} {ttl : Int}
    (hparse : Command.parse args = .ok (.pexpire key ttl)) (hgone : ¬e.Has key) (now : Nat) :
    ∃ e', Responds (e.execute args now) (.int 0) e' ∧
      e' = { e with keyspace := e'.keyspace } ∧ e'.keyspace.content = e.keyspace.content := by
  obtain ⟨e', d', hresponds, -, -, hsame⟩ := pexpire_timed h key ttl now
  rw [h.represents.has_iff, ← AList.lookup_eq_none] at hgone
  rw [hgone] at hresponds
  exact ⟨e', by rw [execute_eq hparse]; exact hresponds, hsame hgone⟩

/-- **The time left** is told to whoever asks not before all that happened. -/
theorem execute_pttl (h : e.Timed m d) {replies : List Bytes}
    (hrun : (ofConfig c).run events = .ok (replies, e)) {args : List Bytes} {now : Nat}
    (hparse : Command.parse args = .ok (.pttl key)) (hnow : ∀ event ∈ events, event.time ≤ now) :
    ∃ n e', Responds (e.execute args now) (.int n) e' ∧ (n = -2 ↔ ¬e.Has key) ∧
      (n = -1 ↔ e.DeadlineIs key none) ∧
      ∀ t, e.DeadlineIs key (some t) → n.toInt = max 0 ((t : Int) - now) ∧
        ∀ since ttl start, Since c events key since →
          Event.lastExpire? since key = some (ttl, start) → n.toInt ≤ ttl := by
  obtain ⟨e', hresponds⟩ := pttl_timed h key now
  refine ⟨_, e', by rw [execute_eq hparse]; exact hresponds, ?_⟩
  by_cases hlive : key ∈ m
  · obtain ⟨since, hsince⟩ := exists_since hrun (h.represents.has_iff.mpr hlive)
    rw [if_pos hlive]
    cases hdue : d key with
    | none => simp [h.deadlineIs_iff, h.represents.has_iff, hlive, hdue]
    | some t =>
      have hdue' := h.deadlineIs_iff.mpr ⟨hlive, hdue⟩
      obtain ⟨ttl, start, -, hle, hlt⟩ := hsince.left_le hrun hdue' hnow
      have hint : (Int64.ofNat (t - now)).toInt = (t - now : Nat) :=
        Int64.toInt_ofNat_of_lt (by omega)
      have hnonneg : ∀ {n : Int64}, Int64.ofNat (t - now) = n → 0 ≤ n.toInt := by
        rintro n rfl
        omega
      rw [Option.elim_some]
      refine ⟨iff_of_false (fun heq => ?_) fun hgone => ?_, iff_of_false (fun heq => ?_)
        fun hnone => ?_, fun t' ht' => ⟨?_, fun since' ttl' start' hsince' hlast => ?_⟩⟩
      · exact absurd (hnonneg heq) (by decide)
      · exact hgone (h.represents.has_iff.mpr hlive)
      · exact absurd (hnonneg heq) (by decide)
      · rw [(h.deadlineIs_iff.mp hnone).2] at hdue
        cases hdue
      · rw [(h.deadlineIs_iff.mp ht').2, Option.some_inj] at hdue
        omega
      · obtain ⟨ttl'', start'', hlast', hle', -⟩ := hsince'.left_le hrun hdue' hnow
        rw [hlast] at hlast'
        cases hlast'
        rw [hint]
        exact hle'
  · simp [h.deadlineIs_iff, h.represents.has_iff, hlive]

/-- After its history, a new engine keeps time. -/
theorem keepsTime (h : e.Timed m d) {replies : List Bytes}
    (hrun : (ofConfig c).run events = .ok (replies, e)) : e.KeepsTime c events where
  born _ hlive := exists_since hrun hlive
  history key since t hsince := by
    obtain ⟨m, d, h, hlive, hdue⟩ := hsince.timed hrun
    rw [h.deadlineIs_iff, hdue, eq_comm, and_iff_right hlive]
  kept _ _ _ _ _ hevent hnone hdue hlive' := h.deadlineIs_event hevent hnone hdue hlive'
  fresh _ _ _ _ hevent hgone hlive' := h.deadlineIs_none hevent hgone hlive'
  pexpire _ _ _ now hparse hlive := h.execute_pexpire hparse hlive now
  pexpireMissing _ _ _ now hparse hgone := h.execute_pexpire_missing hparse hgone now
  pttl _ _ _ hparse hnow := h.execute_pttl hrun hparse hnow
  next _ := h.nextExpiry?_eq_some_iff
  noNext := h.nextExpiry?_eq_none_iff

end Timed

/-- **Deadlines are kept** in every state of an engine, whatever happened to it. -/
theorem run_keepsTime (c : Config) (events : List Event) :
    (∃ replies e, (ofConfig c).run events = .ok (replies, e) ∧ e.KeepsTime c events) ∨
      (ofConfig c).run events = .error .overflow ∧ 0x8000000000000000 ≤ events.length := by
  refine (run_timed c events).imp_left ?_
  rintro ⟨replies, e, m, d, hrun, h⟩
  exact ⟨replies, e, hrun, h.keepsTime hrun⟩

end Engine

end KeyServer
