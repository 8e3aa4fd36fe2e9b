import KeyServer.Proofs.Server.History

/-! # Histories are sound

`History.Sound` says of the state after some steps of the event loop:

* the log is a run of the engine, one request after the other;
* every session agrees with its part of the log;
* the open sessions are the connections that the server keeps.

**`Sound.step`**: a step carries this on, unless the engine is asked for more than a machine word
can count, or a connection is to be closed at a time that no machine word can tell.
-/

namespace KeyServer

/-- What a step may add to the log: the requests of the session that was ready, or a sweep. -/
def Server.Step.Makes (sessions : List Session) (step : Step) (part : List Occurrence) : Prop :=
  match step with
  | .accept _ _ => part = []
  | .ready descriptor _ _ _ now => part = [] ∨
      ∃ (i : Nat) (pairs : List (List Bytes × Bytes)),
        (sessions.map (·.descriptor))[i]? = some descriptor ∧ part = requestsOf i now pairs
  | .timers now => part = [.sweep now]

theorem Server.Step.Makes.mono {sessions sessions' : List Session} {step : Step}
    {part : List Occurrence} (h : step.Makes sessions part)
    (hsessions : sessions.map (·.descriptor) <+: sessions'.map (·.descriptor)) :
    step.Makes sessions' part := by
  cases step with
  | accept ds now => exact h
  | ready d readiness got socket now =>
    refine h.imp_right ?_
    rintro ⟨i, pairs, hi, rfl⟩
    refine ⟨i, pairs, ?_, rfl⟩
    obtain ⟨more, hmore⟩ := hsessions
    rw [← hmore, List.getElem?_append_left (List.getElem?_eq_some_iff.mp hi).1, hi]
  | timers now => exact h

namespace History

/-- A history of a server with some configuration agrees with a log; `n` bounds the requests that
were run or may be complete already. -/
structure Sound (config : Config) (eager : Prop) (h : History) (log : List Occurrence) (n : Nat) :
    Prop where
  configured : h.server.config = config
  keeps : ∃ conns, h.server.Keeps conns
  within : h.server.active ≤ config.maxConnections
  /-- The log is a run of the engine. -/
  engine : (Engine.ofConfig config).run (log.map Occurrence.event)
    = .ok (log.filterMap Occurrence.reply?, h.server.engine)
  session : ∀ (i : Nat) (x : Session), h.sessions[i]? = some x →
    ∃ unsent, x.Agrees config.limits eager h.server (exchanges log i) unsent
  /-- A descriptor has one open session at most. -/
  unique : ∀ (i j : Nat) (x y : Session), h.sessions[i]? = some x → h.sessions[j]? = some y →
    x.isOpen = true → y.isOpen = true → x.descriptor = y.descriptor → i = j
  connection : ∀ d c, h.server.connection? d = some c →
    ∃ (i : Nat) (x : Session), h.sessions[i]? = some x ∧ x.Has d
  known : ∀ i, h.sessions.length ≤ i → exchanges log i = []
  size : log.length + leftOver config.limits h.sessions ≤ n

variable {config : Config} {eager : Prop} {h : History} {log : List Occurrence} {n : Nat}

theorem sound_ofServer {s : Server} (hs : Server.ofConfig config = .ok s) :
    (ofServer s).Sound config eager [] 0 := by
  have hkeeps := Server.keeps_ofConfig hs
  obtain ⟨-, -, hs⟩ := bind_eq_ok_iff.mp hs
  cases hs
  exact {
    configured := rfl
    keeps := ⟨[], hkeeps⟩
    within := Nat.zero_le _
    engine := rfl
    session := by simp [ofServer]
    unique := by simp [ofServer]
    connection := by simp [ofServer, Server.connection?]
    known := fun _ _ => rfl
    size := Nat.le_refl 0 }

namespace Sound

theorem mono (hs : h.Sound config eager log n) {n' : Nat} (hn : n ≤ n') :
    h.Sound config eager log n' :=
  { hs with size := Nat.le_trans hs.size hn }

/-- The engine represents a plain keyspace that is not larger than the log is long. -/
theorem represents (hs : h.Sound config eager log n) :
    ∃ m, h.server.engine.Represents m ∧ m.Bounded log.length := by
  rcases Engine.run_represents (log.map Occurrence.event) (Engine.represents_ofConfig config)
    Engine.bounded_empty with ⟨vs, e, m, hrun, -, hm, hbound⟩ | ⟨hrun, -⟩
  · rw [hs.engine, Except.ok.injEq, Prod.mk.injEq] at hrun
    rw [Nat.zero_add, List.length_map] at hbound
    exact ⟨m, hrun.2 ▸ hm, hbound⟩
  · cases hs.engine.symm.trans hrun

/-- What happens next to the engine goes on from here. -/
theorem engine_append (hs : h.Sound config eager log n) {part : List Occurrence} {e : Engine}
    (hpart : h.server.engine.run (part.map Occurrence.event)
      = .ok (part.filterMap Occurrence.reply?, e)) :
    (Engine.ofConfig config).run ((log ++ part).map Occurrence.event)
      = .ok ((log ++ part).filterMap Occurrence.reply?, e) := by
  rw [List.map_append, Engine.run_append, hs.engine, ok_bind]
  dsimp only
  rw [hpart, List.filterMap_append]
  rfl

/-- Every connection has a session that knows what waits there. -/
theorem exists_session (hs : h.Sound config eager log n) {d : Nat} {c : Connection}
    (hc : h.server.connection? d = some c) :
    ∃ (i : Nat) (x : Session) (unsent : Bytes), h.sessions[i]? = some x ∧ x.Has d ∧
      x.Agrees config.limits eager h.server (exchanges log i) unsent ∧
      c.Waits (Connection.remainder config.limits x.received) unsent ∧
      Connection.front config.limits (Connection.remainder config.limits x.received) = .incomplete ∧
      (eager → c.wantsRead = true) := by
  obtain ⟨i, x, hx, hhas⟩ := hs.connection d c hc
  obtain ⟨unsent, hagrees⟩ := hs.session i x hx
  obtain ⟨c', hc', hrest⟩ := hagrees.connection hhas.1
  rw [hhas.2, hc, Option.some_inj] at hc'
  exact ⟨i, x, unsent, hx, hhas, hagrees, hc' ▸ hrest⟩

/-- Every open session has a connection. -/
theorem isSome_of_has (hs : h.Sound config eager log n) {i d : Nat} {x : Session}
    (hx : h.sessions[i]? = some x) (hd : x.Has d) : ∃ c, h.server.connection? d = some c := by
  obtain ⟨unsent, hagrees⟩ := hs.session i x hx
  obtain ⟨c, hc, -⟩ := hagrees.connection hd.1
  exact ⟨c, hd.2 ▸ hc⟩

/-- **A step that begins no session** keeps the history sound, if the sessions that it changes still
agree and every connection is still the one of a session. -/
theorem follow (hs : h.Sound config eager log n) {s' : Server} {sent : Bytes} {step : Server.Step}
    {part : List Occurrence} {k : Nat} (hconfig : s'.config = h.server.config)
    (hkeeps : ∃ conns, s'.Keeps conns) (hactive : s'.active ≤ h.server.active)
    (hengine : h.server.engine.run (part.map Occurrence.event)
      = .ok (part.filterMap Occurrence.reply?, s'.engine))
    (hsession : ∀ (i : Nat) (x : Session), h.sessions[i]? = some x →
      ∃ unsent, (h.server.follow s' sent step x).Agrees config.limits eager s'
        (exchanges (log ++ part) i) unsent)
    (hconnection : ∀ d c, s'.connection? d = some c →
      ∃ (i : Nat) (x : Session), h.sessions[i]? = some x ∧ (h.server.follow s' sent step x).Has d)
    (hknown : ∀ i, h.sessions.length ≤ i → exchanges part i = [])
    (hsize : part.length + leftOver config.limits (h.sessions.map (h.server.follow s' sent step))
      ≤ leftOver config.limits h.sessions + k) :
    Sound config eager ⟨s', h.sessions.map (h.server.follow s' sent step)⟩ (log ++ part)
      (n + k) where
  configured := hconfig.trans hs.configured
  keeps := hkeeps
  within := Nat.le_trans hactive hs.within
  engine := hs.engine_append hengine
  session i y hy := by
    rw [List.getElem?_map, Option.map_eq_some_iff] at hy
    obtain ⟨x, hx, rfl⟩ := hy
    exact hsession i x hx
  unique i j x y hx hy hxopen hyopen hxy := by
    rw [List.getElem?_map, Option.map_eq_some_iff] at hx hy
    obtain ⟨x, hx, rfl⟩ := hx
    obtain ⟨y, hy, rfl⟩ := hy
    rw [Server.descriptor_follow, Server.descriptor_follow] at hxy
    exact hs.unique i j x y hx hy (Server.isOpen_of_follow hxopen) (Server.isOpen_of_follow hyopen)
      hxy
  connection d c hc := by
    obtain ⟨i, x, hx, hhas⟩ := hconnection d c hc
    exact ⟨i, _, by rw [List.getElem?_map, hx, Option.map_some], hhas⟩
  known i hi := by
    rw [List.length_map] at hi
    rw [exchanges_append, hs.known i hi, hknown i hi, List.append_nil]
  size := by
    have hold := hs.size
    rw [List.length_append]
    dsimp only
    omega

/-! ### Accepting -/

/-- A session of a history with one more is an old one or the new one. -/
theorem old_or_last {sessions : List Session} {new x : Session} {i : Nat}
    (hx : (sessions ++ [new])[i]? = some x) :
    sessions[i]? = some x ∨ i = sessions.length ∧ x = new := by
  rw [List.getElem?_append] at hx
  split at hx
  · exact .inl hx
  · rw [List.getElem?_singleton, Option.ite_none_right_eq_some, Option.some_inj] at hx
    exact .inr ⟨by omega, hx.2.symm⟩

/-- **A new connection** begins a session. -/
theorem register (hs : h.Sound config eager log n) {d : Nat} (now : Nat)
    (hd : h.server.connection? d = none) (hfree : h.server.active < config.maxConnections) :
    Sound config eager ⟨h.server.register d (Connection.opened now),
      h.sessions ++ [Session.opened d]⟩ log n := by
  obtain ⟨conns, hkeeps⟩ := hs.keeps
  have hkeeps' := hkeeps.register hd (Connection.opened now)
  have hold : ∀ k c, h.server.connection? k = some c →
      (h.server.register d (Connection.opened now)).connection? k = some c := by
    intro k c hc
    exact (hkeeps'.connection k c).mpr (List.mem_append_left _ ((hkeeps.connection k c).mp hc))
  have hnew : (h.server.register d (Connection.opened now)).connection? d
      = some (Connection.opened now) :=
    (hkeeps'.connection _ _).mpr (List.mem_append_right _ List.mem_cons_self)
  have hother : ∀ {i : Nat} {x : Session}, h.sessions[i]? = some x → x.isOpen = true →
      x.descriptor ≠ d := by
    rintro i x hx hopen rfl
    obtain ⟨c, hc⟩ := hs.isSome_of_has hx ⟨hopen, rfl⟩
    rw [hd] at hc
    cases hc
  exact {
    configured := hs.configured
    keeps := ⟨_, hkeeps'⟩
    within := hfree
    engine := hs.engine
    session := by
      intro i x hx
      rcases old_or_last hx with hx | ⟨rfl, rfl⟩
      · obtain ⟨unsent, hagrees⟩ := hs.session i x hx
        refine ⟨unsent, hagrees.congr fun hopen => ?_⟩
        obtain ⟨c, hc⟩ := hs.isSome_of_has hx ⟨hopen, rfl⟩
        rw [hc, hold _ c hc]
      · rw [hs.known _ (Nat.le_refl _)]
        exact ⟨[], Session.agrees_opened config.limits eager hnew⟩
    unique := by
      intro i j x y hx hy hxopen hyopen hxy
      rcases old_or_last hx with hx | ⟨rfl, rfl⟩ <;> rcases old_or_last hy with hy | ⟨rfl, rfl⟩
      · exact hs.unique i j x y hx hy hxopen hyopen hxy
      · exact absurd hxy (hother hx hxopen)
      · exact absurd hxy.symm (hother hy hyopen)
      · rfl
    connection := by
      intro k c hc
      rcases List.mem_append.mp ((hkeeps'.connection k c).mp hc) with hmem | hmem
      · obtain ⟨i, x, hx, hhas⟩ := hs.connection k c ((hkeeps.connection k c).mpr hmem)
        refine ⟨i, x, ?_, hhas⟩
        rw [List.getElem?_append_left (List.getElem?_eq_some_iff.mp hx).1, hx]
      · obtain ⟨rfl, -⟩ := Prod.mk.injEq _ _ _ _ ▸ List.mem_singleton.mp hmem
        exact ⟨h.sessions.length, Session.opened k, List.getElem?_concat_length .., rfl, rfl⟩
    known := by
      intro i hi
      rw [List.length_append] at hi
      exact hs.known i (by omega)
    size := by
      have hnone : leftOver config.limits [Session.opened d] = 0 := by
        simp [leftOver, Session.opened]
      rw [leftOver_append, hnone]
      exact hs.size }

/-- **New connections** begin sessions, as far as the limit allows. -/
theorem accept (now : Nat) : ∀ {ds : List Nat} {h : History}, h.Sound config eager log n →
    h.server.Fresh now ds →
    Sound config eager ⟨h.server.acceptAll ds now,
      h.sessions ++ (h.server.accepted now ds).map Session.opened⟩ log n := by
  intro ds
  induction ds with
  | nil => exact fun hs _ => by simpa [Server.accepted, Server.acceptAll] using hs
  | cons d ds ih =>
    intro h hs hfresh
    obtain ⟨hd, hfresh⟩ := hfresh
    rw [Server.acceptAll_cons, Server.accepted]
    rw [Server.accept, hs.configured] at hfresh ⊢
    split
    · next hfull =>
      rw [if_pos hfull] at hfresh
      exact ih hs hfresh
    · next hfull =>
      rw [if_neg hfull] at hfresh
      have hs' := ih (hs.register now hd (Nat.lt_of_not_le hfull)) hfresh
      rwa [List.append_assoc] at hs'

/-! ### Ready connections -/

/-- No session is the one of an unknown descriptor. -/
theorem follow_unknown (hs : h.Sound config eager log n) {d : Nat} (readiness : Readiness)
    (got : ReadResult) (socket : WriteResult) (now : Nat) (hd : h.server.connection? d = none) :
    h.sessions.map (h.server.follow h.server [] (.ready d readiness got socket now))
      = h.sessions := by
  refine (List.map_congr_left fun x hx => ?_).trans (List.map_id' _)
  obtain ⟨i, hi⟩ := List.mem_iff_getElem?.mp hx
  refine if_neg fun hhas => ?_
  obtain ⟨c, hc⟩ := hs.isSome_of_has hi hhas
  rw [hd] at hc
  cases hc

/-- It takes many requests to make the engine overflow. -/
theorem large_of_pass (hs : h.Sound config eager log n) {i now : Nat} {x : Session} {chunk : Bytes}
    (hx : h.sessions[i]? = some x)
    (hpass : Connection.pass config.limits now h.server.engine
      (Connection.remainder config.limits x.received ++ chunk) = .error .overflow) :
    0x8000000000000000 ≤ n + chunk.length := by
  obtain ⟨m, hm, hbound⟩ := hs.represents
  rcases Connection.pass_bounded config.limits now
    (Connection.remainder config.limits x.received ++ chunk) hm hbound with ⟨p, hp⟩ | ⟨-, hlarge⟩
  · cases hp.symm.trans hpass
  · have hrest := length_remainder_le config.limits (List.mem_of_getElem? hx)
    have hsize := hs.size
    rw [List.length_append] at hlarge
    omega

/-- **The requests that a ready connection completes** belong to its session. -/
theorem ready_sound (hs : h.Sound config eager log n) {d i now : Nat} {readiness : Readiness}
    {got : ReadResult} {socket : WriteResult} {x : Session} {c c' : Connection}
    {unsent unsent' sent : Bytes} {p : Connection.Passed} {s' : Server}
    {conns : List (Nat × Connection)} (hd : h.server.connection? d = some c)
    (hx : h.sessions[i]? = some x) (hhas : x.Has d)
    (hagrees : x.Agrees config.limits eager h.server (exchanges log i) unsent)
    (hfront : Connection.front config.limits (Connection.remainder config.limits x.received)
      = .incomplete)
    (hpass : Connection.pass config.limits now h.server.engine
      (Connection.remainder config.limits x.received ++ c.reads readiness got) = .ok p)
    (hsent : sent ++ unsent' = unsent ++ p.sent)
    (hdrove : c.Drove c' now p (c.ends readiness got) socket unsent unsent')
    (heager : eager → socket = .all ∧ c.wantsRead = true) (hkeeps : h.server.Keeps conns)
    (hkeeps' : s'.Keeps (Server.afterReady conns d c')) (hengine : s'.engine = p.engine)
    (hconfig : s'.config = h.server.config) :
    ∃ pairs, Sound config eager
      ⟨s', h.sessions.map (h.server.follow s' sent (.ready d readiness got socket now))⟩
      (log ++ requestsOf i now pairs) (n + got.data.length) := by
  obtain ⟨pairs, hrequests, hrun, hreplies, hrest⟩ := Connection.exists_exchanges_of_pass hpass
  have hslots := hkeeps.connection?_afterReady hkeeps'
  have hchange : ∀ {y : Session}, y.Has d →
      h.server.follow s' sent (.ready d readiness got socket now) y = { y with
        received := y.received ++ c.reads readiness got
        sent := y.sent ++ sent
        isOpen := (s'.connection? d).isSome } := by
    intro y hy
    rw [Server.follow, if_pos hy, Server.reads, hd]
  have hstay : ∀ {y : Session}, ¬y.Has d →
      h.server.follow s' sent (.ready d readiness got socket now) y = y := fun hy => if_neg hy
  -- The session of the connection is the only one that changes.
  have honly : ∀ {j : Nat} {y : Session}, h.sessions[j]? = some y → y.Has d → j = i := by
    intro j y hy hyd
    exact hs.unique j i y x hy hx hyd.1 hhas.1 (hyd.2.trans hhas.2.symm)
  refine ⟨pairs, hs.follow hconfig ⟨_, hkeeps'⟩ ?active ?engine ?session ?connection ?known ?size⟩
  case active =>
    rw [hkeeps.active, hkeeps'.active]
    exact hkeeps.length_afterReady_le hd c'
  case engine =>
    rw [event_requestsOf, reply_requestsOf, hengine]
    exact hrun
  case session =>
    intro j y hy
    rw [exchanges_append]
    by_cases hyd : y.Has d
    · obtain rfl := honly hy hyd
      rw [hx, Option.some_inj] at hy
      subst hy
      rw [hchange hyd, exchanges_requestsOf_self, ← hhas.2]
      refine ⟨unsent', hagrees.ready hfront hpass hrequests hreplies hrest hsent hdrove heager ?_⟩
      rw [hslots, if_pos hhas.2]
    · have hne : i ≠ j := by
        rintro rfl
        rw [hx, Option.some_inj] at hy
        exact hyd (hy ▸ hhas)
      obtain ⟨unsent₁, hagrees₁⟩ := hs.session j y hy
      rw [hstay hyd, exchanges_requestsOf_of_ne hne, List.append_nil]
      refine ⟨unsent₁, hagrees₁.congr fun hopen => ?_⟩
      rw [hslots, if_neg fun heq => hyd ⟨hopen, heq⟩]
  case connection =>
    intro k c₂ hc₂
    by_cases hk : k = d
    · subst hk
      refine ⟨i, x, hx, ?_⟩
      rw [hchange hhas]
      exact ⟨by rw [hc₂]; rfl, hhas.2⟩
    · rw [hslots, if_neg hk] at hc₂
      obtain ⟨j, y, hy, hyk⟩ := hs.connection k c₂ hc₂
      refine ⟨j, y, hy, ?_⟩
      rwa [hstay fun hyd => hk (hyk.2.symm.trans hyd.2)]
  case known =>
    intro j hj
    have hi := (List.getElem?_eq_some_iff.mp hx).1
    exact exchanges_requestsOf_of_ne (by omega) now pairs
  case size =>
    have hleft := leftOver_map config.limits
      (h.server.follow s' sent (.ready d readiness got socket now)) hx
      fun j y hy hj => hstay fun hyd => hj (honly hy hyd)
    have hcount := Connection.length_requests_add_le config.limits
      (Connection.remainder config.limits x.received ++ c.reads readiness got)
    have hchunk := c.length_reads_le readiness got
    rw [hchange hhas, (Connection.requests_append _ hfront).2] at hleft
    rw [← hrequests, List.length_map, List.length_append] at hcount
    rw [requestsOf, List.length_map]
    omega

/-- **A ready connection** runs the requests that it completes. -/
theorem ready (hs : h.Sound config eager log n) {d now : Nat} {readiness : Readiness}
    {got : ReadResult} {socket : WriteResult}
    (hallows : h.server.Allows (.ready d readiness got socket now))
    (heager : eager → socket = .all) :
    (∃ sent s' part, h.server.handleReady d readiness got socket now = .ok (sent, s') ∧
        Sound config eager
          ⟨s', h.sessions.map (h.server.follow s' sent (.ready d readiness got socket now))⟩
          (log ++ part) (n + got.data.length) ∧
        Server.Step.Makes h.sessions (.ready d readiness got socket now) part) ∨
      h.server.handleReady d readiness got socket now = .error .overflow ∧
        0x8000000000000000 ≤ n + got.data.length := by
  cases hd : h.server.connection? d with
  | none =>
    refine .inl ⟨[], h.server, [], Server.handleReady_of_none hd _ _ _ _, ?_, .inl rfl⟩
    rw [hs.follow_unknown readiness got socket now hd, List.append_nil]
    exact hs.mono (Nat.le_add_right _ _)
  | some c =>
    obtain ⟨i, x, unsent, hx, hhas, hagrees, hwaits, hfront, hreads⟩ := hs.exists_session hd
    obtain ⟨conns, hkeeps⟩ := hs.keeps
    obtain ⟨m, hm, -⟩ := hs.represents
    have hfit := Connection.fits_of_room hwaits.incoming fun room => hallows c room hd
    have hlimits : h.server.config.limits = config.limits := by rw [hs.configured]
    rcases Connection.onReady_spec config.limits readiness got socket now hwaits hfront hm hfit with
      ⟨p, m', c', sent, unsent', hpass, -, hready, hsent, hdrove⟩ | ⟨hpass, hready⟩
    · rw [← hlimits] at hready
      obtain ⟨s', hstep, hkeeps', hengine, hconfig⟩ := hkeeps.handleReady hd hready
      obtain ⟨pairs, hs'⟩ := hs.ready_sound hd hx hhas hagrees hfront hpass hsent hdrove
        (fun hyes => ⟨heager hyes, hreads hyes⟩) hkeeps hkeeps' hengine hconfig
      refine .inl ⟨sent, s', requestsOf i now pairs, hstep, hs', .inr ⟨i, pairs, ?_, rfl⟩⟩
      rw [List.getElem?_map, hx, Option.map_some, hhas.2]
    · refine .inr ⟨by rw [Server.handleReady_eq hd, hlimits, hready]; rfl, ?_⟩
      have hlarge := hs.large_of_pass hx hpass
      have hchunk := c.length_reads_le readiness got
      omega

/-! ### Timers -/

/-- **Timers** close some connections and sweep the engine. -/
theorem timers (hs : h.Sound config eager log n) (now : Nat) :
    (∃ s', h.server.processTimers now = .ok s' ∧
        Sound config eager ⟨s', h.sessions.map (h.server.follow s' [] (.timers now))⟩
          (log ++ [.sweep now]) (n + 1)) ∨
      h.server.processTimers now = .error .overflow ∧ h.server.Late := by
  obtain ⟨conns, hkeeps⟩ := hs.keeps
  obtain ⟨m, hm, -⟩ := hs.represents
  obtain ⟨gone, engine, hsweep, -⟩ := Engine.sweep_represents hm now
  refine (hkeeps.processTimers hsweep).imp_left ?_
  rintro ⟨s', htimers, hkeeps', hengine, hconfig⟩
  refine ⟨s', htimers, ?_⟩
  have hsub := List.dropWhile_sublist (Server.Overdue h.server.config.idleTimeout now ·.2)
    (l := conns)
  have hold : ∀ k c, s'.connection? k = some c → h.server.connection? k = some c := by
    intro k c hc
    exact (hkeeps.connection k c).mpr (hsub.mem ((hkeeps'.connection k c).mp hc))
  refine hs.follow hconfig ⟨_, hkeeps'⟩ ?active ?engine ?session ?connection (fun _ _ => rfl) ?size
  case active =>
    rw [hkeeps.active, hkeeps'.active]
    exact hsub.length_le
  case engine =>
    rw [hengine]
    simp [Occurrence.event, Occurrence.reply?, Engine.run, hsweep]
  case session =>
    intro i x hx
    obtain ⟨unsent, hagrees⟩ := hs.session i x hx
    have hquiet : exchanges (log ++ [.sweep now]) i = exchanges log i := by
      rw [exchanges_append]
      exact List.append_nil _
    rw [hquiet]
    refine ⟨unsent, hagrees.requests, hagrees.sent, hagrees.settled, fun hopen => ?_⟩
    -- A connection that is still there is the one that was there before.
    obtain ⟨hopen, hstill⟩ := Bool.and_eq_true_iff.mp hopen
    obtain ⟨c', hc'⟩ := Option.isSome_iff_exists.mp hstill
    obtain ⟨c, hc, hrest⟩ := hagrees.connection hopen
    obtain rfl := Option.some_inj.mp ((hold _ _ hc').symm.trans hc)
    exact ⟨c', hc', hrest⟩
  case connection =>
    intro k c hc
    obtain ⟨i, x, hx, hhas⟩ := hs.connection k c (hold k c hc)
    have hstill := congrArg Option.isSome hc
    rw [← hhas.2] at hstill
    exact ⟨i, x, hx, Bool.and_eq_true_iff.mpr ⟨hhas.1, hstill⟩, hhas.2⟩
  case size =>
    have hsame : leftOver config.limits (h.sessions.map (h.server.follow s' [] (.timers now)))
        = leftOver config.limits h.sessions := by
      rw [leftOver, List.map_map]
      rfl
    rw [hsame, List.length_singleton]
    omega

/-! ### Steps -/

/-- **A step** succeeds and keeps the history sound, or something overflows. -/
theorem step (hs : h.Sound config eager log n) {step : Server.Step}
    (hallows : h.server.Allows step) (heager : eager → step.TakesAll) :
    (∃ sent h' part, h.step step = .ok (sent, h') ∧
        h'.Sound config eager (log ++ part) (n + step.size) ∧ step.Makes h'.sessions part ∧
        h.sessions.map (·.descriptor) <+: h'.sessions.map (·.descriptor)) ∨
      h.step step = .error .overflow ∧
        (0x8000000000000000 ≤ n + step.size ∨ (∃ now, step = .timers now) ∧ h.server.Late) := by
  have hkept : ∀ (sent : Bytes) (s' : Server),
      h.sessions.map (·.descriptor) <+: (h.after step sent s').sessions.map (·.descriptor) := by
    intro sent s'
    refine ⟨(h.server.begun step).map (·.descriptor), ?_⟩
    rw [History.after, List.map_append, List.map_map]
    congr 1
    exact List.map_congr_left fun x _ => (Server.descriptor_follow h.server s' sent step x).symm
  cases step with
  | accept ds now =>
    refine .inl ⟨[], h.after _ [] (h.server.acceptAll ds now), [], rfl, ?_, rfl, hkept _ _⟩
    have hsame : h.sessions.map (h.server.follow (h.server.acceptAll ds now) [] (.accept ds now))
        = h.sessions := List.map_id' _
    rw [History.after, hsame, List.append_nil]
    exact hs.accept now hallows
  | ready d readiness got socket now =>
    rcases hs.ready hallows heager with ⟨sent, s', part, hstep, hs', hmakes⟩ | ⟨hstep, hlarge⟩
    · refine .inl ⟨sent, h.after _ sent s', part, ?_, ?_, hmakes.mono (hkept sent s'),
        hkept sent s'⟩
      · rw [History.step, Server.step, hstep]
        rfl
      · rwa [History.after, Server.begun, List.append_nil]
    · refine .inr ⟨?_, .inl hlarge⟩
      rw [History.step, Server.step, hstep]
      rfl
  | timers now =>
    rcases hs.timers now with ⟨s', hstep, hs'⟩ | ⟨hstep, hlate⟩
    · refine .inl ⟨[], h.after _ [] s', [.sweep now], ?_, ?_, rfl, hkept [] s'⟩
      · rw [History.step, Server.step, hstep]
        rfl
      · rwa [History.after, Server.begun, List.append_nil]
    · refine .inr ⟨?_, .inr ⟨⟨now, rfl⟩, hlate⟩⟩
      rw [History.step, Server.step, hstep]
      rfl

end Sound

end History

end KeyServer
