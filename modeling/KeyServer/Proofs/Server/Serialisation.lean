import KeyServer.Proofs.Server.Runs

/-! # The server serialises its clients

Whatever the clients of a server do at the same time, there is one log of requests and sweeps such
that the engine comes to where the log leads one after the other, and every client gets the replies
to its own requests (**`run_serialises`**).

What happens to one connection leaves all others alone (`Step.Spares`): their buffers and flags,
and what was read from and sent to them.  The engine changes only where a request is completed,
and in a sweep.
-/

namespace KeyServer

/-! ## Leaving others alone -/

/-- What a step that leads from one history to another leaves as it is. -/
def Server.Step.Spares (limits : Limits) (h h' : History) : Step → Prop
  | .accept _ _ =>
    h'.server.engine = h.server.engine ∧ h.sessions <+: h'.sessions ∧
      ∀ d c, h.server.connection? d = some c → h'.server.connection? d = some c
  | .ready d readiness got _ _ =>
    (∀ k, k ≠ d → h'.server.connection? k = h.server.connection? k) ∧
      (∀ (i : Nat) (x : Session), h.sessions[i]? = some x → ¬x.Has d → h'.sessions[i]? = some x) ∧
      ((∀ x ∈ h.sessions, x.Has d →
          Connection.requests limits (x.received ++ h.server.reads d readiness got)
            = Connection.requests limits x.received) →
        h'.server.engine = h.server.engine)
  | .timers now =>
    (∃ n, h.server.engine.sweep now = .ok (n, h'.server.engine)) ∧
      (h'.sessions.map fun x => (x.received, x.sent))
        = (h.sessions.map fun x => (x.received, x.sent)) ∧
      ∀ d c, h'.server.connection? d = some c → h.server.connection? d = some c

namespace History

variable {config : Config} {eager : Prop} {h h' : History} {log : List Occurrence} {n : Nat}
  {sent : Bytes}

namespace Sound

/-- What holds with sockets that take everything holds with any. -/
theorem weaken (hs : h.Sound config eager log n) : h.Sound config False log n :=
  { hs with
    session := by
      intro i x hx
      obtain ⟨unsent, hagrees⟩ := hs.session i x hx
      refine ⟨unsent, hagrees.requests, hagrees.sent, False.elim, fun hopen => ?_⟩
      obtain ⟨c, hc, hwaits, hfront, -⟩ := hagrees.connection hopen
      exact ⟨c, hc, hwaits, hfront, False.elim⟩ }

/-- A log that stays as it is belongs to the same engine. -/
theorem engine_eq (hs : h.Sound config eager log n) {n' : Nat}
    (hs' : h'.Sound config eager log n') : h'.server.engine = h.server.engine := by
  have hengine := hs.engine
  rw [hs'.engine, Except.ok.injEq, Prod.mk.injEq] at hengine
  exact hengine.2

/-- **A ready connection** changes the engine only if it completes a request. -/
theorem engine_ready (hs : h.Sound config eager log n) {d now n' : Nat} {readiness : Readiness}
    {got : ReadResult} {socket : WriteResult} {part : List Occurrence} {s' : Server}
    (hs' : (h.after (.ready d readiness got socket now) sent s').Sound config eager
      (log ++ part) n')
    (hmakes : Server.Step.Makes (h.after (.ready d readiness got socket now) sent s').sessions
      (.ready d readiness got socket now) part)
    (hnone : ∀ x ∈ h.sessions, x.Has d →
      Connection.requests config.limits (x.received ++ h.server.reads d readiness got)
        = Connection.requests config.limits x.received) :
    s'.engine = h.server.engine := by
  obtain rfl : part = [] := by
    rcases hmakes with rfl | ⟨i, pairs, hi, rfl⟩
    · rfl
    · rw [List.getElem?_map, Option.map_eq_some_iff] at hi
      obtain ⟨x', hx', -⟩ := hi
      obtain ⟨unsent', hagrees'⟩ := hs'.session i x' hx'
      rw [after, Server.begun, List.append_nil, List.getElem?_map, Option.map_eq_some_iff] at hx'
      obtain ⟨x, hx, rfl⟩ := hx'
      obtain ⟨unsent, hagrees⟩ := hs.session i x hx
      -- The session asked for nothing new, so it has nothing new in the log.
      have hsame : Connection.requests config.limits
          (h.server.follow s' sent (.ready d readiness got socket now) x).received
            = Connection.requests config.limits x.received := by
        rw [Server.follow]
        split
        · next hhas => exact hnone x (List.mem_of_getElem? hx) hhas
        · rfl
      have hcount := congrArg List.length hagrees'.requests
      rw [hsame, ← hagrees.requests, exchanges_append, exchanges_requestsOf_self, List.map_append,
        List.length_append] at hcount
      have hempty : pairs = [] := by
        rw [List.length_map, List.length_map] at hcount
        exact List.length_eq_zero_iff.mp (by omega)
      rw [hempty]
      rfl
  rw [List.append_nil] at hs'
  exact hs.engine_eq hs'

/-- **A step** leaves everything alone that it is not about. -/
theorem spares (hs : h.Sound config False log n) {step : Server.Step}
    (hallows : h.server.Allows step) (hstep : h.step step = .ok (sent, h')) :
    step.Spares config.limits h h' := by
  obtain ⟨conns, hkeeps⟩ := hs.keeps
  obtain ⟨⟨sent₁, s'⟩, hserver, hafter⟩ := bind_eq_ok_iff.mp hstep
  cases hafter
  cases step with
  | accept ds now =>
    have hkeeps' := hkeeps.acceptAll now hallows
    cases hserver
    have hengine := hs.engine_eq (hs.accept now hallows)
    refine ⟨hengine, ⟨_, congrArg (· ++ _) (List.map_id' h.sessions).symm⟩, ?_⟩
    intro d c hc
    exact (hkeeps'.connection d c).mpr (List.mem_append_left _ ((hkeeps.connection d c).mp hc))
  | ready d readiness got socket now =>
    refine ⟨fun k hk => ?_, fun i x hx hhas => ?_, fun hnone => ?_⟩
    · replace hserver : h.server.handleReady d readiness got socket now = .ok (sent, s') := hserver
      cases hd : h.server.connection? d with
      | none =>
        rw [Server.handleReady_of_none hd] at hserver
        cases hserver
        rfl
      | some c =>
        have hready := hserver
        rw [Server.handleReady_eq hd] at hready
        obtain ⟨⟨sent₁, c', engine⟩, hready, -⟩ := bind_eq_ok_iff.mp hready
        obtain ⟨s₁, hserver', hkeeps', -⟩ := hkeeps.handleReady hd hready
        cases hserver.symm.trans hserver'
        exact (hkeeps.connection?_afterReady hkeeps' k).trans (if_neg hk)
    · rw [after, Server.begun, List.append_nil, List.getElem?_map, hx, Option.map_some]
      exact congrArg some (if_neg hhas)
    · rcases hs.step hallows False.elim with ⟨sent', h₁, part, hstep', hs', hmakes, -⟩ | ⟨hstep', -⟩
      · cases hstep.symm.trans hstep'
        exact hs.engine_ready hs' hmakes hnone
      · cases hstep.symm.trans hstep'
  | timers now =>
    obtain ⟨m, hm, -⟩ := hs.represents
    obtain ⟨gone, engine, hsweep, -⟩ := Engine.sweep_represents hm now
    obtain ⟨s₁, htimers, hserver⟩ := bind_eq_ok_iff.mp hserver
    cases hserver
    rcases hkeeps.processTimers hsweep with ⟨s₂, htimers', hkeeps', hengine, -⟩ | ⟨htimers', -⟩
    · cases htimers.symm.trans htimers'
      refine ⟨⟨gone.length, hengine ▸ hsweep⟩, ?_, fun d c hc => ?_⟩
      · rw [after, Server.begun, List.append_nil, List.map_map]
        rfl
      · exact (hkeeps.connection d c).mpr
          ((List.dropWhile_sublist _).mem ((hkeeps'.connection d c).mp hc))
    · cases htimers.symm.trans htimers'

end Sound

end History

/-! ## Serialising -/

/-- A log of requests and sweeps explains a history after some steps. -/
structure Serialises (config : Config) (steps : List Server.Step) (log : List Occurrence)
    (h : History) : Prop where
  /-- The log goes on with every step: by requests of the connection that was ready, or by a
  sweep. -/
  parts : ∃ parts, log = parts.flatten ∧ List.Forall₂ (Server.Step.Makes h.sessions) steps parts
  /-- The engine comes to where the log leads, with the replies that are noted there. -/
  engine : (Engine.ofConfig config).run (log.map Occurrence.event)
    = .ok (log.filterMap Occurrence.reply?, h.server.engine)
  /-- Every request is one of a client. -/
  known : ∀ i, exchanges log i ≠ [] → i < h.sessions.length
  /-- The requests of a client are the ones in the bytes that were read from it, up to the first
  frame that is none. -/
  requests : ∀ (i : Nat) (x : Session), h.sessions[i]? = some x →
    (exchanges log i).map (·.1) = Connection.requests config.limits x.received
  /-- A client is sent the replies to its own requests, and nothing else. -/
  sent : ∀ (i : Nat) (x : Session), h.sessions[i]? = some x →
    x.sent <+: replyFrames config.limits (exchanges log i)
  /-- If the sockets take everything, it is sent all of them, and the server goes on reading. -/
  sentAll : (∀ step ∈ steps, step.TakesAll) → ∀ (i : Nat) (x : Session), h.sessions[i]? = some x →
    x.sent = replyFrames config.limits (exchanges log i)
  reading : (∀ step ∈ steps, step.TakesAll) → ∀ d c, h.server.connection? d = some c →
    c.wantsRead = true

namespace History

variable {config : Config} {h : History} {log : List Occurrence} {n : Nat}

theorem Sound.serialises {steps : List Server.Step} {parts : List (List Occurrence)}
    (hs : h.Sound config (∀ step ∈ steps, step.TakesAll) parts.flatten n)
    (hparts : List.Forall₂ (Server.Step.Makes h.sessions) steps parts) :
    Serialises config steps parts.flatten h where
  parts := ⟨parts, rfl, hparts⟩
  engine := hs.engine
  known i hi := by
    by_contra hlength
    exact hi (hs.known i (Nat.le_of_not_lt hlength))
  requests i x hx := by
    obtain ⟨unsent, hagrees⟩ := hs.session i x hx
    exact hagrees.requests
  sent i x hx := by
    obtain ⟨unsent, hagrees⟩ := hs.session i x hx
    exact ⟨unsent, hagrees.sent⟩
  sentAll hall i x hx := by
    obtain ⟨unsent, hagrees⟩ := hs.session i x hx
    have hsent := hagrees.sent
    rwa [hagrees.settled hall, List.append_nil] at hsent
  reading hall d c hc := by
    obtain ⟨i, x, unsent, -, -, -, -, -, hread⟩ := hs.exists_session hc
    exact hread hall

/-- **The server serialises its clients**, whatever they do and whatever their sockets take: one
log of requests and sweeps explains what every client was sent and what the engine has come to.
From there on, too, what happens to one connection leaves the others alone.  A run fails only when
it asks for more than machine words can count or tell. -/
theorem run_serialises {s : Server} (hs : Server.ofConfig config = .ok s)
    {steps : List Server.Step} (hsteps : Calls.Admissible Server.step Server.Allows s steps) :
    (∃ answers h log, Calls.run History.step (ofServer s) steps = .ok (answers, h) ∧
        Calls.run Server.step s steps = .ok (answers, h.server) ∧ Serialises config steps log h ∧
        ∀ step sent h', h.server.Allows step → h.step step = .ok (sent, h') →
          step.Spares config.limits h h') ∨
      Calls.run History.step (ofServer s) steps = .error .overflow ∧
        Calls.run Server.step s steps = .error .overflow ∧ s.Exhausts steps := by
  have hserver := run_server steps (ofServer s)
  rcases (sound_ofServer hs).run hsteps id with
    ⟨answers, h, parts, hrun, hsound, hparts, -⟩ | ⟨hrun, hlarge⟩
  · rw [hrun] at hserver
    rw [List.nil_append] at hsound
    exact .inl ⟨answers, h, parts.flatten, hrun, hserver, hsound.serialises hparts,
      fun step sent h' => hsound.weaken.spares⟩
  · rw [hrun] at hserver
    rw [Nat.zero_add] at hlarge
    exact .inr ⟨hrun, hserver, hlarge⟩

/-- Two clients that ask for all keys at the same time, one of them in two parts. -/
theorem run_serialises_two :
    ∃ answers h log, Calls.run History.step
        (ofServer ⟨{}, Engine.ofConfig {}, #[], 0, IdleList.empty, false⟩)
        [.accept [7, 5] 3, .ready 7 ⟨true, false, false, false⟩ (.bytes [12, 0, 0, 0, 1, 0]) .all 3,
          .ready 5 ⟨true, false, false, false⟩
            (.bytes [12, 0, 0, 0, 1, 0, 0, 0, 4, 0, 0, 0, 107, 101, 121, 115]) .all 3,
          .ready 7 ⟨true, false, false, false⟩
            (.bytes [0, 0, 4, 0, 0, 0, 107, 101, 121, 115]) .all 4, .timers 4] = .ok (answers, h) ∧
      Serialises {} [.accept [7, 5] 3,
        .ready 7 ⟨true, false, false, false⟩ (.bytes [12, 0, 0, 0, 1, 0]) .all 3,
        .ready 5 ⟨true, false, false, false⟩
          (.bytes [12, 0, 0, 0, 1, 0, 0, 0, 4, 0, 0, 0, 107, 101, 121, 115]) .all 3,
        .ready 7 ⟨true, false, false, false⟩
          (.bytes [0, 0, 4, 0, 0, 0, 107, 101, 121, 115]) .all 4, .timers 4] log h := by
  have hs : Server.ofConfig {} = .ok ⟨{}, Engine.ofConfig {}, #[], 0, IdleList.empty, false⟩ := rfl
  have hfresh : Server.Fresh ⟨{}, Engine.ofConfig {}, #[], 0, IdleList.empty, false⟩ 3 [7, 5] :=
    ⟨rfl, rfl, trivial⟩
  have hsmall : ∀ step ∈ [Server.Step.ready 7 ⟨true, false, false, false⟩
        (.bytes [12, 0, 0, 0, 1, 0]) .all 3,
      .ready 5 ⟨true, false, false, false⟩
        (.bytes [12, 0, 0, 0, 1, 0, 0, 0, 4, 0, 0, 0, 107, 101, 121, 115]) .all 3,
      .ready 7 ⟨true, false, false, false⟩ (.bytes [0, 0, 4, 0, 0, 0, 107, 101, 121, 115]) .all 4,
      .timers 4], step.Small := by
    simp [Server.Step.Small, ReadResult.data, Connection.readChunk]
  have hsteps := Server.admissible_accept hs hfresh hsmall
  rcases run_serialises hs hsteps with
    ⟨answers, h, log, hrun, -, hserialises, -⟩ | ⟨-, -, hlarge | hlate⟩
  · exact ⟨answers, h, log, hrun, hserialises⟩
  · exact absurd hlarge (by decide)
  · exact absurd hlate (Server.not_lateIn hs hsteps (by decide) (by decide))

end History

end KeyServer
