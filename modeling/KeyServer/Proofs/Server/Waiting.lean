import KeyServer.Proofs.Config
import KeyServer.Proofs.Server.Eviction

/-! # How long the event loop waits

The loop waits for what is left until the connection in front of the idle list and the first
deadline of the heap are due, if that is not longer than it may wait.  Since the list and the heap
are in order, that is the least of all times left (`LeftUntil`).

* `Keeps.processTimers_of_quiet`: where nothing is due, the timers change nothing.
* `Evicts.progress`: where something is due, something goes.
* **`run_waits`**: so no timer is slept through, and a wait that is over makes progress.
-/

namespace KeyServer

theorem Config.Good.one_le_maxExpirationsPerSweep {c : Config} (h : c.Good) :
    1 ≤ c.maxExpirationsPerSweep :=
  h.bounded ("max_expirations_per_tick", _, 1) (by simp [Config.lowerBounds])

/-! ## Sweeps -/

namespace Engine

variable {e e' : Engine} {m : Keyspace} {d : Bytes → Option Nat} {now : Nat}

/-- **A sweep** with nothing due changes nothing. -/
theorem Timed.sweep_of_quiet (h : e.Timed m d) (hquiet : ∀ key, ¬e.IsDue now key) :
    e.sweep now = .ok (0, e) := by
  rw [Engine.sweep]
  cases e.maxExpirationsPerSweep with
  | zero => rfl
  | succ budget =>
    rw [Engine.sweepWithin]
    cases hpeek : e.deadlines.peek? with
    | none => rfl
    | some first =>
      have hnext : e.nextExpiry? = some first.expiresAt := by
        rw [nextExpiry?, hpeek, Option.map_some]
      obtain ⟨⟨key, hdue⟩, -⟩ := h.nextExpiry?_eq_some_iff.mp hnext
      have hlater : now < first.expiresAt := by
        by_contra hnow
        exact hquiet key ⟨_, Nat.le_of_not_lt hnow, hdue⟩
      exact if_pos hlater

/-- **A sweep** with something due removes something. -/
theorem Swept.exists_gone {budget : Nat} {gone : List Bytes} (h : Swept now budget e gone e')
    (hbudget : 1 ≤ budget) {key : Bytes} (hdue : e.IsDue now key) :
    ∃ key, e.Has key ∧ ¬e'.Has key := by
  cases gone with
  | nil =>
    have hleft := h.isDue_iff.mpr ⟨hdue, List.not_mem_nil⟩
    exact absurd hleft (h.complete hbudget key)
  | cons first gone =>
    obtain ⟨t, -, i, slot, hi, hkey, -⟩ := h.due first List.mem_cons_self
    refine ⟨first, ⟨i, slot, hi, hkey⟩, ?_⟩
    rintro ⟨j, slot', hj, hkey'⟩
    have hvalue : e'.ValueIs first slot'.item.data := ⟨j, slot', hj, hkey', rfl⟩
    exact ((h.values first _).mp hvalue).2 List.mem_cons_self

end Engine

namespace Server

variable {config : Config} {s s' : Server} {conns : List (Nat × Connection)} {m : Keyspace}
  {d : Bytes → Option Nat} {clock now : Nat}

/-! ## Waiting -/

/-- What the loop may not wait longer for at some time: the longest wait of the configuration, and
whatever is left until a connection or a key is due. -/
inductive LeftUntil (s : Server) (now : Nat) : Nat → Prop where
  | poll : LeftUntil s now s.config.maxPollWait
  | idle {descriptor : Nat} {c : Connection} (hc : s.connection? descriptor = some c) :
      LeftUntil s now (c.lastActive + s.config.idleTimeout - now)
  | expiry {key : Bytes} {t : Nat} (hdue : s.engine.DeadlineIs key (some t)) :
      LeftUntil s now (t - now)

/-- What a wait from some time on is good for. -/
structure Waits (s : Server) (now wait : Nat) : Prop where
  /-- It is the least of all times left. -/
  reached : s.LeftUntil now wait
  least : ∀ left, s.LeftUntil now left → wait ≤ left
  /-- As a timeout of the system call it is not negative, and the same if it can be told. -/
  millis : Poll.timeoutMillis (some (wait * 1000000)) = (min wait Poll.maxTimeout : Nat)
  /-- Before it is over, the timers change nothing. -/
  quiet : ∀ t, now ≤ t → t < now + wait → s.processTimers t = .ok s
  /-- When it is over and was cut short, a connection is closed or a key is removed. -/
  progress : wait < s.config.maxPollWait → ∀ t, now + wait ≤ t →
    ∃ s', s.processTimers t = .ok s' ∧
      ((∃ descriptor, (s.connection? descriptor).isSome ∧ s'.connection? descriptor = none) ∨
        ∃ key, s.engine.Has key ∧ ¬s'.engine.Has key)

/-- Waits are whole milliseconds, so nothing is rounded. -/
theorem timeoutMillis_eq (wait : Nat) :
    Poll.timeoutMillis (some (wait * 1000000)) = (min wait Poll.maxTimeout : Nat) := by
  rw [Poll.timeoutMillis]
  push_cast
  omega

/-- The deadline in front, where deadlines can be told. -/
theorem Keeps.nextIdleDeadline_eq (h : s.Keeps conns) (hlate : ¬s.Late) :
    s.nextIdleDeadline
      = .ok (conns.head?.map fun x => x.2.lastActive + s.config.idleTimeout) := by
  cases conns with
  | nil => rw [Server.nextIdleDeadline, h.idle.first]; rfl
  | cons x rest =>
    obtain ⟨descriptor, c⟩ := x
    have hc := (h.connection descriptor c).mpr List.mem_cons_self
    rw [h.nextIdleDeadline, addWords, if_pos (le_maxWord_of_not_late hlate hc)]
    rfl

/-- A wait that is cut short by a deadline. -/
def cutShort (now wait : Nat) : Option Nat → Nat
  | none => wait
  | some t => min wait (t - now)

theorem cutShort_le (now wait : Nat) (deadline : Option Nat) :
    cutShort now wait deadline ≤ wait := by
  cases deadline with
  | none => exact Nat.le_refl wait
  | some t => exact Nat.min_le_left wait _

theorem cutShort_cases (now wait : Nat) (deadline : Option Nat) :
    cutShort now wait deadline = wait ∨
      ∃ t, deadline = some t ∧ cutShort now wait deadline = t - now := by
  cases deadline with
  | none => exact .inl rfl
  | some t =>
    rcases Nat.le_total wait (t - now) with hle | hle
    · exact .inl (Nat.min_eq_left hle)
    · exact .inr ⟨t, rfl, Nat.min_eq_right hle⟩

/-- The wait is cut short by both deadlines in front. -/
theorem Keeps.nextTimeout_eq (h : s.Keeps conns) (hlate : ¬s.Late) (now : Nat) :
    s.nextTimeout now = .ok (cutShort now
      (cutShort now s.config.maxPollWait
        (conns.head?.map fun x => x.2.lastActive + s.config.idleTimeout))
      s.engine.nextExpiry?) := by
  rw [nextTimeout, h.nextIdleDeadline_eq hlate]
  cases conns.head? <;> cases s.engine.nextExpiry? <;> rfl

/-- **The wait** is the least of all times left. -/
theorem Keeps.exists_nextTimeout (h : s.Keeps conns) (hranked : Ranked conns clock)
    (hlate : ¬s.Late) (htimed : s.engine.Timed m d) (now : Nat) :
    ∃ wait, s.nextTimeout now = .ok wait ∧ s.LeftUntil now wait ∧
      ∀ left, s.LeftUntil now left → wait ≤ left := by
  refine ⟨_, h.nextTimeout_eq hlate now, ?_, fun left hleft => ?_⟩
  · rcases cutShort_cases now (cutShort now s.config.maxPollWait
        (conns.head?.map fun x => x.2.lastActive + s.config.idleTimeout))
        s.engine.nextExpiry? with heq | ⟨t, hnext, heq⟩
    · rcases cutShort_cases now s.config.maxPollWait
        (conns.head?.map fun x => x.2.lastActive + s.config.idleTimeout) with
        heq' | ⟨t, hfirst, heq'⟩
      · rw [heq, heq']
        exact .poll
      · obtain ⟨⟨descriptor, c⟩, hc, rfl⟩ := Option.map_eq_some_iff.mp hfirst
        rw [heq, heq']
        exact .idle ((h.connection descriptor c).mpr (List.mem_of_head? hc))
    · rw [heq]
      obtain ⟨⟨key, hdue⟩, -⟩ := htimed.nextExpiry?_eq_some_iff.mp hnext
      exact .expiry hdue
  · have hidle := cutShort_le now (cutShort now s.config.maxPollWait
      (conns.head?.map fun x => x.2.lastActive + s.config.idleTimeout)) s.engine.nextExpiry?
    cases hleft with
    | poll => exact Nat.le_trans hidle (cutShort_le now _ _)
    | @idle descriptor c hc =>
      -- Whoever is in front was active before all others.
      have hmem := (h.connection descriptor c).mp hc
      cases conns with
      | nil => cases hmem
      | cons first rest =>
        have hfirst : first.2.lastActive ≤ c.lastActive := by
          rcases List.mem_cons.mp hmem with rfl | hmem
          · exact Nat.le_refl _
          · exact List.rel_of_pairwise_cons hranked.ordered hmem
        have hcut : cutShort now s.config.maxPollWait
            (some (first.2.lastActive + s.config.idleTimeout))
              ≤ first.2.lastActive + s.config.idleTimeout - now := Nat.min_le_right _ _
        rw [List.head?_cons, Option.map_some] at hidle ⊢
        omega
    | @expiry key t hdue =>
      cases hnext : s.engine.nextExpiry? with
      | none => exact absurd hdue (htimed.nextExpiry?_eq_none_iff.mp hnext key t)
      | some first =>
        have hfirst := (htimed.nextExpiry?_eq_some_iff.mp hnext).2 key t hdue
        exact Nat.le_trans (Nat.min_le_right _ _) (Nat.sub_le_sub_right hfirst now)

/-! ## Timers -/

/-- **Timers** with nothing due change nothing. -/
theorem Keeps.processTimers_of_quiet (h : s.Keeps conns) (hlate : ¬s.Late)
    (hidle : ∀ descriptor c, s.connection? descriptor = some c →
      ¬Overdue s.config.idleTimeout now c)
    (hsweep : s.engine.sweep now = .ok (0, s.engine)) : s.processTimers now = .ok s := by
  have hclose : Server.closeIdleWithin now s.idle.size s = .ok s := by
    cases conns with
    | nil => exact h.closeIdleWithin_nil now _
    | cons first rest =>
      obtain ⟨descriptor, c⟩ := first
      have hc := (h.connection descriptor c).mpr List.mem_cons_self
      rw [h.size, List.length_cons, h.closeIdleWithin_cons, addWords,
        if_pos (le_maxWord_of_not_late hlate hc), ok_bind]
      exact if_pos (Nat.lt_of_not_le (hidle descriptor c hc))
  rw [Server.processTimers, hclose, ok_bind, hsweep]
  rfl

/-- **Timers** with something due close a connection or remove a key. -/
theorem Evicts.progress (h : s.Evicts now s') (hbudget : 1 ≤ s.config.maxExpirationsPerSweep)
    (hdue : (∃ descriptor c, s.connection? descriptor = some c ∧
        Overdue s.config.idleTimeout now c) ∨ ∃ key, s.engine.IsDue now key) :
    (∃ descriptor, (s.connection? descriptor).isSome ∧ s'.connection? descriptor = none) ∨
      ∃ key, s.engine.Has key ∧ ¬s'.engine.Has key := by
  rcases hdue with ⟨descriptor, c, hc, hdue⟩ | ⟨key, hdue⟩
  · refine .inl ⟨descriptor, by rw [hc]; rfl, ?_⟩
    rw [h.connection, hc, Option.filter_some, if_neg (by simpa using hdue)]
  · obtain ⟨gone, -, hswept⟩ := h.engine
    exact .inr (hswept.exists_gone hbudget hdue)

/-- **A wait** for the least of all times left is good for what it should be. -/
theorem Keeps.waits (h : s.Keeps conns) (hranked : Ranked conns clock) (hlate : ¬s.Late)
    (htimed : s.engine.Timed m d) (hbudget : 1 ≤ s.config.maxExpirationsPerSweep)
    (hlimit : s.engine.maxExpirationsPerSweep = s.config.maxExpirationsPerSweep) (now : Nat) :
    ∃ wait, s.nextTimeout now = .ok wait ∧ s.Waits now wait := by
  obtain ⟨wait, hnext, hreached, hleast⟩ := h.exists_nextTimeout hranked hlate htimed now
  refine ⟨wait, hnext, hreached, hleast, timeoutMillis_eq wait, fun t hfrom hto => ?_,
    fun hshort t ht => ?_⟩
  · refine h.processTimers_of_quiet hlate (fun descriptor c hc hdue => ?_)
      (htimed.sweep_of_quiet ?_)
    · have hwait := hleast _ (.idle hc)
      unfold Overdue at hdue
      omega
    · rintro key ⟨t', ht', hdue⟩
      have hwait := hleast _ (.expiry hdue)
      omega
  · obtain ⟨gone, engine, m', d', hsweep, -, hswept⟩ := htimed.sweep t
    rw [hlimit] at hswept
    obtain ⟨s', htimers, hevicts⟩ := h.evicts hranked hlate hsweep hswept
    refine ⟨s', htimers, hevicts.progress hbudget ?_⟩
    cases hreached with
    | poll => exact absurd hshort (Nat.lt_irrefl _)
    | @idle descriptor c hc =>
      refine .inl ⟨descriptor, c, hc, ?_⟩
      unfold Overdue
      omega
    | @expiry key t' hdue => exact .inr ⟨key, t', by omega, hdue⟩

/-- **The event loop waits as long as it should** in every state that it comes to while the clock
does not run backwards, at any time with deadlines that a machine word can tell.  A run fails only
when it asks for more than machine words can count or tell. -/
theorem run_waits (hs : ofConfig config = .ok s) {steps : List Step}
    (hsteps : Calls.Admissible Server.step Allows s steps)
    (htimes : (steps.map Step.now).Pairwise (· ≤ ·)) :
    (∃ answers s', Calls.run Server.step s steps = .ok (answers, s') ∧ s'.config = config ∧
        (¬s'.Late → ∀ now, ∃ wait, s'.nextTimeout now = .ok wait ∧ s'.Waits now wait)) ∨
      Calls.run Server.step s steps = .error .overflow ∧ s.Exhausts steps := by
  refine (run_sound hs hsteps).imp_left ?_
  rintro ⟨answers, h, log, n, hrun, hsound⟩
  refine ⟨answers, h.server, hrun, hsound.configured, fun hlate now => ?_⟩
  obtain ⟨conns, clock, hkeeps, hranked, -⟩ := run_ranked hs hsteps htimes hrun
  obtain ⟨m, d, htimed⟩ := Engine.exists_timed hsound.engine
  obtain ⟨_, hvalid, -⟩ := bind_eq_ok_iff.mp hs
  have hbudget := (Config.validate_eq_ok_iff.mp hvalid).one_le_maxExpirationsPerSweep
  refine hkeeps.waits hranked hlate htimed (hsound.configured ▸ hbudget) ?_ now
  rw [(Engine.timed_ofConfig config).run_limit hsound.engine, hsound.configured]
  rfl

/-- Two connections, of which one is to be closed in less than a second. -/
theorem run_waits_one :
    ∃ answers s' wait, Calls.run Server.step
        ⟨{}, Engine.ofConfig {}, #[], 0, IdleList.empty, false⟩
        [.accept [7, 5] 3, .ready 7 ⟨true, false, false, false⟩ .wouldBlock .all 4]
        = .ok (answers, s') ∧ s'.config = {} ∧ s'.nextTimeout 4500 = .ok wait ∧
        s'.Waits 4500 wait := by
  have hs : ofConfig {} = .ok ⟨{}, Engine.ofConfig {}, #[], 0, IdleList.empty, false⟩ := rfl
  have hfresh : Fresh ⟨{}, Engine.ofConfig {}, #[], 0, IdleList.empty, false⟩ 3 [7, 5] :=
    ⟨rfl, rfl, trivial⟩
  have hsmall : ∀ step ∈ [Step.ready 7 ⟨true, false, false, false⟩ .wouldBlock .all 4],
      step.Small := by
    simp [Step.Small, ReadResult.data]
  have hsteps := admissible_accept hs hfresh hsmall
  rcases run_waits hs hsteps (by decide) with
    ⟨answers, s', hrun, hconfig, hwaits⟩ | ⟨-, hlarge | hlate⟩
  · have hlate := not_late hs hsteps (by decide) (by decide) hrun
    obtain ⟨wait, hnext, hwaits⟩ := hwaits hlate 4500
    exact ⟨answers, s', wait, hrun, hconfig, hnext, hwaits⟩
  · exact absurd hlarge (by decide)
  · exact absurd hlate (not_lateIn hs hsteps (by decide) (by decide))

end Server

end KeyServer
