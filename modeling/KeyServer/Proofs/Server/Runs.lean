import KeyServer.Proofs.Server.Soundness

/-! # Runs of a server

A server that starts without connections and makes any steps of the event loop that the operating
system may bring goes through sound states only (**`Sound.run`**), unless the steps ask for more
than machine words can count or tell (`Server.Exhausts`).  No deadline of a connection is beyond
a machine word as long as the clock is not close to it (`Server.not_lateIn`).
-/

namespace KeyServer

namespace History

theorem server_of_step {h h' : History} {step : Server.Step} {sent : Bytes}
    (hstep : h.step step = .ok (sent, h')) : h.server.step step = .ok (sent, h'.server) := by
  obtain ⟨⟨sent, s'⟩, hserver, hstep⟩ := bind_eq_ok_iff.mp hstep
  cases hstep
  exact hserver

/-- The server of a history runs as it would alone. -/
theorem run_server (steps : List Server.Step) : ∀ h : History,
    Calls.run Server.step h.server steps = do
      let (answers, h) ← Calls.run History.step h steps
      return (answers, h.server) := by
  induction steps with
  | nil => exact fun _ => rfl
  | cons step steps ih =>
    intro h
    rw [Calls.run, Calls.run, History.step]
    cases h.server.step step with
    | error fault => rfl
    | ok r =>
      obtain ⟨sent, s'⟩ := r
      simp only [ok_bind, pure_eq_ok]
      have hrest := ih (h.after step sent s')
      rw [show (h.after step sent s').server = s' from rfl] at hrest
      rw [hrest]
      cases Calls.run History.step (h.after step sent s') steps <;> rfl

end History

/-- Whether some steps come to look at the timers while a deadline does not fit into a machine
word. -/
def Server.LateIn (s : Server) (steps : List Step) : Prop :=
  ∃ done now answers s', done ++ [Step.timers now] <+: steps ∧
    Calls.run Server.step s done = .ok (answers, s') ∧ s'.Late

/-- Whether some steps ask for more than machine words can count or tell: for as many requests, or
for a deadline that does not fit into one. -/
def Server.Exhausts (s : Server) (steps : List Step) : Prop :=
  0x8000000000000000 ≤ (steps.map Step.size).sum ∨ s.LateIn steps

namespace History

variable {config : Config} {eager : Prop}

/-- **Any steps** succeed and keep the history sound, or something overflows. -/
theorem Sound.run {steps : List Server.Step} : ∀ {h : History} {log : List Occurrence} {n : Nat},
    h.Sound config eager log n →
    Calls.Admissible Server.step Server.Allows h.server steps →
    (eager → ∀ step ∈ steps, step.TakesAll) →
    (∃ answers h' parts, Calls.run History.step h steps = .ok (answers, h') ∧
        h'.Sound config eager (log ++ parts.flatten) (n + (steps.map Server.Step.size).sum) ∧
        List.Forall₂ (Server.Step.Makes h'.sessions) steps parts ∧
        h.sessions.map (·.descriptor) <+: h'.sessions.map (·.descriptor)) ∨
      Calls.run History.step h steps = .error .overflow ∧
        (0x8000000000000000 ≤ n + (steps.map Server.Step.size).sum ∨ h.server.LateIn steps) := by
  induction steps with
  | nil =>
    intro h log n hs _ _
    exact .inl ⟨[], h, [], rfl, by simpa using hs, .nil, List.prefix_rfl⟩
  | cons step steps ih =>
    intro h log n hs hsteps heager
    obtain ⟨hallows, hsteps⟩ := hsteps
    obtain hstepEager := fun hyes => (List.forall_mem_cons.mp (heager hyes)).1
    rw [List.map_cons, List.sum_cons, ← Nat.add_assoc, Calls.run]
    rcases hs.step hallows hstepEager with
      ⟨sent, h₁, part, hstep, h₁s, hmakes, hkept⟩ | ⟨hstep, hlarge⟩
    · have hserver := server_of_step hstep
      rw [hstep, ok_bind]
      rcases ih h₁s (hsteps sent h₁.server hserver)
          fun hyes => (List.forall_mem_cons.mp (heager hyes)).2 with
        ⟨answers, h', parts, hrun, hs', hall, hkept'⟩ | ⟨hrun, hlarge⟩
      · refine .inl ⟨sent :: answers, h', part :: parts, ?_, ?_, .cons (hmakes.mono hkept') hall,
          hkept.trans hkept'⟩
        · dsimp only
          rw [hrun]
          rfl
        · rw [List.flatten_cons, ← List.append_assoc]
          exact hs'
      · refine .inr ⟨?_, hlarge.imp_right ?_⟩
        · dsimp only
          rw [hrun]
          rfl
        · rintro ⟨done, now, answers, s', hdone, hrun, hlate⟩
          refine ⟨step :: done, now, sent :: answers, s', ?_, ?_, hlate⟩
          · exact (List.prefix_cons_inj step).mpr hdone
          · rw [Calls.run, hserver, ok_bind]
            dsimp only
            rw [hrun]
            rfl
    · refine .inr ⟨by rw [hstep]; rfl, ?_⟩
      rcases hlarge with hlarge | ⟨⟨now, rfl⟩, hlate⟩
      · exact .inl (by omega)
      · exact .inr ⟨[], now, [], h.server, List.prefix_append _ _, rfl, hlate⟩

end History

namespace Server

variable {config : Config} {s : Server} {steps : List Step}

/-- **Every state** that a server comes to is the one of a sound history. -/
theorem run_sound (hs : ofConfig config = .ok s)
    (hsteps : Calls.Admissible Server.step Allows s steps) :
    (∃ answers h log n, Calls.run Server.step s steps = .ok (answers, History.server h) ∧
        h.Sound config False log n) ∨
      Calls.run Server.step s steps = .error .overflow ∧ s.Exhausts steps := by
  have hrun := History.run_server steps (History.ofServer s)
  have hstart : (History.ofServer s).Sound config False [] 0 := History.sound_ofServer hs
  rcases hstart.run hsteps False.elim with
    ⟨answers, h, parts, hhistory, hsound, -⟩ | ⟨hhistory, hlarge⟩
  · rw [hhistory] at hrun
    exact .inl ⟨answers, h, _, _, hrun, hsound⟩
  · rw [hhistory] at hrun
    rw [Nat.zero_add] at hlarge
    exact .inr ⟨hrun, hlarge⟩

/-- The connections of a server at any time are listed by last activity. -/
theorem run_ranked {answers : List Bytes} {s' : Server} (hs : ofConfig config = .ok s)
    (hsteps : Calls.Admissible Server.step Allows s steps)
    (htimes : (steps.map Step.now).Pairwise (· ≤ ·))
    (hrun : Calls.run Server.step s steps = .ok (answers, s')) :
    ∃ conns clock, s'.Keeps conns ∧ Ranked conns clock ∧ clock ∈ 0 :: steps.map Step.now := by
  refine (keeps_ofConfig hs).run_ranked ⟨.nil, by simp⟩ hsteps ?_ hrun
  exact List.pairwise_cons.mpr ⟨fun _ _ => Nat.zero_le _, htimes⟩

/-- **No deadline is late** while the clock is not close to the greatest word. -/
theorem not_late {answers : List Bytes} {s' : Server} (hs : ofConfig config = .ok s)
    (hsteps : Calls.Admissible Server.step Allows s steps)
    (htimes : (steps.map Step.now).Pairwise (· ≤ ·))
    (hwords : ∀ step ∈ steps, step.now + config.idleTimeout ≤ maxWord)
    (hrun : Calls.run Server.step s steps = .ok (answers, s')) : ¬s'.Late := by
  rintro ⟨d, c, hc, hlate⟩
  obtain ⟨conns, clock, hkeeps, hranked, hclock⟩ := run_ranked hs hsteps htimes hrun
  have hconfig : s'.config = config := by
    rcases run_sound hs hsteps with ⟨answers', h, log, n, hrun', hsound⟩ | ⟨hrun', -⟩
    · cases hrun.symm.trans hrun'
      exact hsound.configured
    · cases hrun.symm.trans hrun'
  have hpast : c.lastActive ≤ clock := hranked.past (d, c) ((hkeeps.connection d c).mp hc)
  rw [hconfig] at hlate
  cases steps with
  | nil =>
    -- Without any step there is no connection.
    cases hrun
    cases ((keeps_ofConfig hs).connection d c).mp hc
  | cons first steps =>
    rcases List.mem_cons.mp hclock with rfl | hclock
    · have hnow := hwords first List.mem_cons_self
      omega
    · obtain ⟨step, hstep, rfl⟩ := List.mem_map.mp hclock
      have hnow := hwords step hstep
      omega

theorem not_lateIn (hs : ofConfig config = .ok s)
    (hsteps : Calls.Admissible Server.step Allows s steps)
    (htimes : (steps.map Step.now).Pairwise (· ≤ ·))
    (hwords : ∀ step ∈ steps, step.now + config.idleTimeout ≤ maxWord) : ¬s.LateIn steps := by
  rintro ⟨done, now, answers, s', ⟨more, rfl⟩, hrun, hlate⟩
  rw [List.append_assoc] at hsteps htimes hwords
  rw [List.map_append, List.pairwise_append] at htimes
  exact not_late hs hsteps.of_append htimes.1
    (fun step hstep => hwords step (List.mem_append_left _ hstep)) hrun hlate

/-! ## Small reads -/

/-- Whether a step accepts no connection and reads no more than there always is room for. -/
def Step.Small : Step → Prop
  | accept descriptors _ => descriptors = []
  | ready _ _ got _ _ => got.data.length ≤ Connection.readChunk
  | timers _ => True

theorem admissible_of_small (hsmall : ∀ step ∈ steps, step.Small) :
    ∀ {h : History} {log : List Occurrence} {n : Nat}, h.Sound config False log n →
      Calls.Admissible Server.step Allows h.server steps := by
  induction steps with
  | nil => exact fun _ => trivial
  | cons step steps ih =>
    intro h log n hs
    obtain ⟨hfirst, hrest⟩ := List.forall_mem_cons.mp hsmall
    have hallows : h.server.Allows step := by
      cases step with
      | accept ds now =>
        obtain rfl : ds = [] := hfirst
        trivial
      | ready d readiness got socket now =>
        intro c room hc hroom
        obtain ⟨i, x, unsent, -, -, -, hwaits, -⟩ := hs.exists_session hc
        obtain ⟨room', hroom', hle⟩ := Connection.exists_readRoom hwaits.incoming
        cases hroom.symm.trans hroom'
        exact Nat.le_trans (c.length_reads_le readiness got) (Nat.le_trans hfirst hle)
      | timers now => trivial
    refine ⟨hallows, fun sent s' hstep => ?_⟩
    rcases hs.step hallows False.elim with ⟨sent', h', part, hstep', hs', -⟩ | ⟨hstep', -⟩
    · cases hstep.symm.trans (History.server_of_step hstep')
      exact ih hrest hs'
    · rw [History.step, hstep] at hstep'
      cases hstep'

/-- Small steps may follow when some connections were accepted. -/
theorem admissible_accept (hs : ofConfig config = .ok s) {ds : List Nat} {now : Nat}
    (hfresh : s.Fresh now ds) (hsmall : ∀ step ∈ steps, step.Small) :
    Calls.Admissible Server.step Allows s (.accept ds now :: steps) := by
  refine ⟨hfresh, fun sent s' hstep => ?_⟩
  cases hstep
  exact admissible_of_small hsmall ((History.sound_ofServer hs).accept now hfresh)

end Server

end KeyServer
