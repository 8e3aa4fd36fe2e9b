import KeyServer.Proofs.Config
import KeyServer.Proofs.Server.Runs

/-! # Deadlines that machine words can tell

The deadline of a connection is the time of its last activity plus the timeout of the
configuration.  A configuration may give any timeout but none at all, so whether that sum fits into
a machine word depends on how late it gets.

* **`Keeps.timely`**: the timers do what they should where all sums fit.
* **`punctual_iff`**: they do so in every state that a server comes to until some time just if that
  time plus the timeout fits into a machine word.
-/

namespace KeyServer.Server

variable {config : Config} {s s' : Server} {conns : List (Nat × Connection)}

/-- What is expected of the timers in some state. -/
structure Timely (s : Server) : Prop where
  /-- No deadline is beyond a machine word. -/
  deadlines : ∀ d c, s.connection? d = some c → c.lastActive + s.config.idleTimeout ≤ maxWord
  next : ∃ deadline, s.nextIdleDeadline = .ok deadline
  /-- No connection is closed before it was idle for as long as allowed. -/
  timers : ∀ now, ∃ s', s.processTimers now = .ok s' ∧ ∀ d c, s.connection? d = some c →
    s'.connection? d = none → s.config.idleTimeout ≤ now - c.lastActive

/-- Whether the timers do what is expected of them in every state that a server comes to until some
time, while the clock does not run backwards and requests can be counted. -/
def Punctual (s : Server) (last : Nat) : Prop :=
  ∀ steps, Calls.Admissible Server.step Allows s steps → (steps.map Step.now).Pairwise (· ≤ ·) →
    (∀ step ∈ steps, step.now ≤ last) → (steps.map Step.size).sum < 0x8000000000000000 →
    ∃ answers s', Calls.run Server.step s steps = .ok (answers, s') ∧ s'.Timely

/-- **Timers** that can tell all deadlines close nobody too early. -/
theorem Keeps.timely (h : s.Keeps conns) (hlate : ¬s.Late)
    (hsweep : ∀ now, ∃ n engine, s.engine.sweep now = .ok (n, engine)) : s.Timely := by
  refine ⟨fun d c hc => le_maxWord_of_not_late hlate hc, ?_, fun now => ?_⟩
  · unfold Server.nextIdleDeadline
    split
    · exact ⟨none, rfl⟩
    · next c hfirst =>
      obtain ⟨d, -, hc⟩ := Option.bind_eq_some_iff.mp hfirst
      rw [addWords, if_pos (le_maxWord_of_not_late hlate hc)]
      exact ⟨_, rfl⟩
  · obtain ⟨n, engine, hsweep⟩ := hsweep now
    rcases h.processTimers hsweep with ⟨s', htimers, h', -⟩ | ⟨-, hlate'⟩
    · refine ⟨s', htimers, fun d c hc hnone => ?_⟩
      have hmem := (h.connection d c).mp hc
      rw [← List.takeWhile_append_dropWhile (l := conns)
        (p := (Overdue s.config.idleTimeout now ·.2)), List.mem_append] at hmem
      rcases hmem with hclosed | hkept
      · have hdue : Overdue s.config.idleTimeout now c := by
          simpa using List.all_eq_true.mp List.all_takeWhile _ hclosed
        exact Nat.le_sub_of_add_le' hdue
      · rw [(h'.connection d c).mpr hkept] at hnone
        cases hnone
    · exact absurd hlate' hlate

/-- A server that accepts a connection at some time has one that was active then. -/
theorem exists_accept (hs : ofConfig config = .ok s) (now : Nat) :
    ∃ s', Calls.Admissible Server.step Allows s [.accept [0] now] ∧
      Calls.run Server.step s [.accept [0] now] = .ok ([[]], s') ∧ s'.config = config ∧
      s'.connection? 0 = some (Connection.opened now) := by
  obtain ⟨_, hvalid, hs⟩ := bind_eq_ok_iff.mp hs
  cases hs
  have hroom : ¬config.maxConnections ≤ 0 :=
    Nat.not_le.mpr (Config.validate_eq_ok_iff.mp hvalid).one_le_maxConnections
  refine ⟨_, ⟨⟨rfl, trivial⟩, fun _ _ _ => trivial⟩, rfl, ?_, ?_⟩
  · simp [acceptAll, accept, hroom, register]
  · simp [acceptAll, accept, hroom, register, connection?]

/-- **The timers are punctual until some time** just if that time plus the timeout fits into a
machine word. -/
theorem punctual_iff (hs : ofConfig config = .ok s) (last : Nat) :
    s.Punctual last ↔ last + config.idleTimeout ≤ maxWord := by
  constructor
  · intro h
    obtain ⟨s', hsteps, hrun, hconfig, hc⟩ := exists_accept hs last
    obtain ⟨answers, s'', hrun', htimely⟩ := h _ hsteps (List.pairwise_singleton _ _)
      (by simp [Step.now]) (by simp [Step.size])
    cases hrun.symm.trans hrun'
    rw [← hconfig]
    exact htimely.deadlines 0 _ hc
  · intro hword steps hsteps htimes hlast hsize
    have hwords : ∀ step ∈ steps, step.now + config.idleTimeout ≤ maxWord := fun step hstep =>
      Nat.le_trans (Nat.add_le_add_right (hlast step hstep) _) hword
    rcases run_sound hs hsteps with ⟨answers, h, log, n, hrun, hsound⟩ | ⟨-, hlarge | hlate⟩
    · obtain ⟨conns, hkeeps⟩ := hsound.keeps
      refine ⟨answers, h.server, hrun, hkeeps.timely ?_ fun now => ?_⟩
      · exact not_late hs hsteps htimes hwords hrun
      · obtain ⟨m, d, htimed⟩ := Engine.exists_timed hsound.engine
        obtain ⟨gone, engine, m', d', hsweep, -⟩ := htimed.sweep now
        exact ⟨_, _, hsweep⟩
    · exact absurd hlarge (Nat.not_le.mpr hsize)
    · exact absurd hlate (not_lateIn hs hsteps htimes hwords)

/-- With the default timeout. -/
theorem punctual_by_default :
    ofConfig {} = .ok ⟨{}, Engine.ofConfig {}, #[], 0, IdleList.empty, false⟩ ∧
      Punctual ⟨{}, Engine.ofConfig {}, #[], 0, IdleList.empty, false⟩ 0xFFFFFFFFFFFFEC77 :=
  have hs : ofConfig {} = .ok ⟨{}, Engine.ofConfig {}, #[], 0, IdleList.empty, false⟩ := rfl
  ⟨hs, (punctual_iff hs _).mpr (by decide)⟩

/-- The longest timeout that a configuration may give is too long for a connection that is opened
after a millisecond. -/
theorem endless_timeout_overflows :
    ∃ s, ofConfig { idleTimeout := maxWord } = .ok s ∧
      Calls.Admissible Server.step Allows s [.accept [0] 1, .timers 1] ∧
      Calls.run Server.step s [.accept [0] 1, .timers 1] = .error .overflow := by
  refine ⟨_, rfl, ⟨⟨rfl, trivial⟩, fun _ s' h => ?_⟩, rfl⟩
  cases h
  exact ⟨trivial, fun _ _ h => by cases h⟩

end KeyServer.Server
