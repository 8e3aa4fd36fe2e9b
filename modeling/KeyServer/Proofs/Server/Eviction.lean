import KeyServer.Proofs.Engine.Draining
import KeyServer.Proofs.Server.Runs

/-! # Idle connections are closed

The timers look at the front of the idle list only, and stop at the first connection that was not
idle for too long.  As the list is in the order of last activity, they close exactly the
connections that were idle for too long, and then sweep the engine once (**`run_evicts`**).
-/

namespace KeyServer.Server

variable {s s' : Server} {conns : List (Nat × Connection)}

/-! ## Rounds of the loop -/

/-- **More rounds** than there are connections change nothing. -/
theorem Keeps.closeIdleWithin_of_le (now : Nat) : ∀ {conns : List (Nat × Connection)} {s : Server}
    {rounds rounds' : Nat}, s.Keeps conns → conns.length ≤ rounds → conns.length ≤ rounds' →
    Server.closeIdleWithin now rounds s = Server.closeIdleWithin now rounds' s := by
  intro conns
  induction conns with
  | nil =>
    intro s rounds rounds' h _ _
    rw [h.closeIdleWithin_nil, h.closeIdleWithin_nil]
  | cons x rest ih =>
    obtain ⟨d, c⟩ := x
    rintro s (_ | rounds) (_ | rounds') h hrounds hrounds'
    · rfl
    · simp at hrounds
    · simp at hrounds'
    · obtain ⟨s₁, hdestroy, h₁, -⟩ := h.destroy d
      rw [h.without_cons] at h₁
      have hrest := ih h₁ (Nat.le_of_succ_le_succ hrounds) (Nat.le_of_succ_le_succ hrounds')
      rw [h.closeIdleWithin_cons, h.closeIdleWithin_cons, hdestroy, ok_bind, ok_bind, hrest]

/-! ## Eviction -/

/-- What the timers do at some time. -/
structure Evicts (s : Server) (now : Nat) (s' : Server) : Prop where
  /-- The overdue connections go, and the others stay as they are. -/
  connection : ∀ d, s'.connection? d
    = (s.connection? d).filter fun c => ¬Overdue s.config.idleTimeout now c
  /-- They stay in order. -/
  idle : s'.idle.toList = s.idle.toList.filter fun d => (s'.connection? d).isSome
  active : s'.active = s'.idle.toList.length
  config : s'.config = s.config
  /-- The loop ends after as many rounds as there are connections. -/
  rounds : ∃ s₁, ∀ rounds, s.active ≤ rounds → closeIdleWithin now rounds s = .ok s₁
  /-- The engine is swept once. -/
  engine : ∃ gone, s.engine.sweep now = .ok (gone.length, s'.engine) ∧
    Engine.Swept now s.config.maxExpirationsPerSweep s.engine gone s'.engine

theorem Keeps.evicts {clock now : Nat} {gone : List Bytes} {engine : Engine} (h : s.Keeps conns)
    (hranked : Ranked conns clock) (hlate : ¬s.Late)
    (hsweep : s.engine.sweep now = .ok (gone.length, engine))
    (hswept : Engine.Swept now s.config.maxExpirationsPerSweep s.engine gone engine) :
    ∃ s', s.processTimers now = .ok s' ∧ s.Evicts now s' := by
  rcases h.processTimers hsweep with ⟨s', htimers, h', hengine, hconfig⟩ | ⟨-, hlate'⟩
  · rw [hranked.dropWhile_eq] at h'
    have hconnection : ∀ d, s'.connection? d
        = (s.connection? d).filter fun c => ¬Overdue s.config.idleTimeout now c := by
      intro d
      ext c
      rw [h'.connection, List.mem_filter, Option.filter_eq_some_iff, ← h.connection]
    refine ⟨s', htimers, hconnection, ?_, ?_, hconfig, ?_, gone, hengine ▸ hsweep, hengine ▸ hswept⟩
    · rw [h'.idle.toList, h.idle.toList, List.filter_map]
      congr 1
      refine List.filter_congr fun x hx => ?_
      have hx' : s.connection? x.1 = some x.2 := (h.connection _ _).mpr hx
      rw [Function.comp_apply, hconnection, hx', Option.filter_some]
      split <;> simp_all
    · rw [h'.active, h'.idle.toList, List.length_map]
    · rcases h.closeIdleWithin now (Nat.le_refl _) with ⟨s₁, hclose, -⟩ | ⟨-, hlate'⟩
      · refine ⟨s₁, fun rounds hrounds => ?_⟩
        rw [← hclose]
        exact h.closeIdleWithin_of_le now (h.active ▸ hrounds) (Nat.le_refl _)
      · exact absurd hlate' hlate
  · exact absurd hlate' hlate

/-- **The timers close exactly the overdue connections** in every state that a server comes to
while the clock does not run backwards, at any time with deadlines that a machine word can tell;
the engine loses what one sweep removes.  A run fails only when it asks for more than machine words
can count or tell. -/
theorem run_evicts {config : Config} (hs : ofConfig config = .ok s) {steps : List Step}
    (hsteps : Calls.Admissible Server.step Allows s steps)
    (htimes : (steps.map Step.now).Pairwise (· ≤ ·)) :
    (∃ answers s', Calls.run Server.step s steps = .ok (answers, s') ∧ s'.config = config ∧
        (¬s'.Late → ∀ now, ∃ s'', s'.processTimers now = .ok s'' ∧ s'.Evicts now s'')) ∨
      Calls.run Server.step s steps = .error .overflow ∧ s.Exhausts steps := by
  refine (run_sound hs hsteps).imp_left ?_
  rintro ⟨answers, h, log, n, hrun, hsound⟩
  refine ⟨answers, h.server, hrun, hsound.configured, fun hlate now => ?_⟩
  obtain ⟨conns, clock, hkeeps, hranked, -⟩ := run_ranked hs hsteps htimes hrun
  obtain ⟨m, d, htimed⟩ := Engine.exists_timed hsound.engine
  obtain ⟨gone, engine, m', d', hsweep, -, hswept⟩ := htimed.sweep now
  have hlimit : h.server.engine.maxExpirationsPerSweep
      = h.server.config.maxExpirationsPerSweep := by
    rw [(Engine.timed_ofConfig config).run_limit hsound.engine, hsound.configured]
    rfl
  rw [hlimit] at hswept
  exact hkeeps.evicts hranked hlate hsweep hswept

/-- Of two connections, one was active since. -/
theorem run_evicts_one :
    ∃ answers s' s'', Calls.run Server.step
        ⟨{}, Engine.ofConfig {}, #[], 0, IdleList.empty, false⟩
        [.accept [7, 5] 3, .ready 7 ⟨true, false, false, false⟩ .wouldBlock .all 4]
        = .ok (answers, s') ∧ s'.config = {} ∧ s'.processTimers 5003 = .ok s'' ∧
        s'.Evicts 5003 s'' := by
  have hs : ofConfig {} = .ok ⟨{}, Engine.ofConfig {}, #[], 0, IdleList.empty, false⟩ := rfl
  have hfresh : Fresh ⟨{}, Engine.ofConfig {}, #[], 0, IdleList.empty, false⟩ 3 [7, 5] :=
    ⟨rfl, rfl, trivial⟩
  have hsmall : ∀ step ∈ [Step.ready 7 ⟨true, false, false, false⟩ .wouldBlock .all 4],
      step.Small := by
    simp [Step.Small, ReadResult.data]
  have hsteps := admissible_accept hs hfresh hsmall
  rcases run_evicts hs hsteps (by decide) with
    ⟨answers, s', hrun, hconfig, hevicts⟩ | ⟨-, hlarge | hlate⟩
  · have hlate := not_late hs hsteps (by decide) (by decide) hrun
    obtain ⟨s'', htimers, hevicts⟩ := hevicts hlate 5003
    exact ⟨answers, s', s'', hrun, hconfig, htimers, hevicts⟩
  · exact absurd hlarge (by decide)
  · exact absurd hlate (not_lateIn hs hsteps (by decide) (by decide))

end KeyServer.Server
