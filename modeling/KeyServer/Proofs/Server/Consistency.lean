import KeyServer.Proofs.Server.Runs

/-! # The books of a server

In every state that a server comes to, its slots, its idle list and its count tell of the same
connections, and the list is in the order of last activity (**`run_consistent`**).

Where the idle list has a descriptor without a connection, the timers have something to do all the
same.  They never do it: timers that do anything else there (`processTimersOr`) come to the same
(`Keeps.processTimersOr_eq`).
-/

namespace KeyServer.Server

variable {s s' : Server} {conns : List (Nat × Connection)}

/-! ## Missing connections -/

/-- Closes idle connections as `closeIdleWithin`, and does `missing` about a descriptor in the idle
list that has no connection. -/
def closeIdleOrWithin (missing : Nat → Server → Except Fault Server) (now : Nat) (steps : Nat)
    (s : Server) : Except Fault Server :=
  match s.idle.first with
  | none => .ok s
  | some descriptor =>
    match steps with
    | 0 => .error .endlessLinks
    | steps + 1 => do
      match ← s.nextIdleDeadline with
      | none => closeIdleOrWithin missing now steps (← missing descriptor s)
      | some deadline =>
        if now < deadline then return s
        else closeIdleOrWithin missing now steps (← s.destroy descriptor)

/-- Timers that do something else about a descriptor without a connection. -/
def processTimersOr (missing : Nat → Server → Except Fault Server) (s : Server) (now : Nat) :
    Except Fault Server := do
  let s ← closeIdleOrWithin missing now s.idle.size s
  let (_, engine) ← s.engine.sweep now
  return { s with engine }

/-- The server takes such a descriptor out of the list. -/
theorem processTimersOr_remove (s : Server) (now : Nat) :
    processTimersOr (fun descriptor s => .ok { s with idle := (s.idle.remove descriptor).2 }) s now
      = s.processTimers now := by
  have hwithin : ∀ (steps : Nat) (s : Server),
      closeIdleOrWithin (fun descriptor s => .ok { s with idle := (s.idle.remove descriptor).2 })
        now steps s = closeIdleWithin now steps s := by
    intro steps
    induction steps with
    | zero =>
      intro s
      unfold closeIdleOrWithin closeIdleWithin
      cases s.idle.first <;> rfl
    | succ steps ih =>
      intro s
      unfold closeIdleOrWithin closeIdleWithin
      cases s.idle.first with
      | none => rfl
      | some descriptor =>
        refine bind_congr fun deadline => ?_
        cases deadline <;> simp only [ok_bind, ih]
  rw [processTimersOr, hwithin, processTimers]

/-- **No connection is missing** where the idle list has a descriptor. -/
theorem Keeps.closeIdleOrWithin_eq (missing : Nat → Server → Except Fault Server) (now : Nat) :
    ∀ {conns : List (Nat × Connection)} {s : Server} {rounds : Nat}, s.Keeps conns →
      closeIdleOrWithin missing now rounds s = Server.closeIdleWithin now rounds s := by
  intro conns
  induction conns with
  | nil =>
    intro s rounds h
    rw [h.closeIdleWithin_nil, closeIdleOrWithin.eq_def, h.idle.first]
    rfl
  | cons x rest ih =>
    obtain ⟨d, c⟩ := x
    have hfirst : ∀ {s : Server}, s.Keeps ((d, c) :: rest) → s.idle.first = some d :=
      fun h => h.idle.first
    rintro s (_ | rounds) h
    · rw [closeIdleOrWithin.eq_def, Server.closeIdleWithin.eq_def, hfirst h]
    · obtain ⟨s₁, hdestroy, h₁, -⟩ := h.destroy d
      rw [h.without_cons] at h₁
      rw [h.closeIdleWithin_cons, closeIdleOrWithin, hfirst h]
      dsimp only
      rw [h.nextIdleDeadline]
      cases addWords c.lastActive s.config.idleTimeout with
      | error fault => rfl
      | ok deadline => simp only [ok_bind, pure_eq_ok, hdestroy, ih h₁]

theorem Keeps.processTimersOr_eq (h : s.Keeps conns)
    (missing : Nat → Server → Except Fault Server) (now : Nat) :
    s.processTimersOr missing now = s.processTimers now := by
  rw [processTimersOr, h.closeIdleOrWithin_eq missing now, Server.processTimers]

/-! ## Consistency -/

/-- The books of a server agree. -/
structure Consistent (s : Server) : Prop where
  /-- As many slots are occupied as connections are counted. -/
  occupied : s.connections.countP Option.isSome = s.active
  size : s.idle.size = s.active
  length : s.idle.toList.length = s.active
  /-- The idle list has every descriptor with a connection once, and no other one. -/
  nodup : s.idle.toList.Nodup
  mem_iff : ∀ d, d ∈ s.idle.toList ↔ (s.connection? d).isSome = true
  ordered : s.idle.toList.Pairwise fun d d' => ∀ c c', s.connection? d = some c →
    s.connection? d' = some c' → c.lastActive ≤ c'.lastActive
  /-- Nobody was idle for longer than the one in front. -/
  first : ∀ d, s.idle.first = some d → ∃ c, s.connection? d = some c ∧
    ∀ d' c', s.connection? d' = some c' → c.lastActive ≤ c'.lastActive
  within : s.active ≤ s.config.maxConnections
  /-- No connection waits for being closed. -/
  stays : ∀ d c, s.connection? d = some c → c.wantsClose = false
  /-- Every connection is counted, so it can be closed. -/
  counted : ∀ d, ∃ s', s.destroy d = .ok s'
  /-- The timers find a connection wherever they look for one. -/
  present : ∀ missing now, s.processTimersOr missing now = s.processTimers now

theorem Keeps.toList (h : s.Keeps conns) : s.idle.toList = conns.map (·.1) := h.idle.toList

theorem Keeps.consistent {clock : Nat} (h : s.Keeps conns) (hranked : Ranked conns clock)
    (hwithin : s.active ≤ s.config.maxConnections)
    (hstays : ∀ d c, s.connection? d = some c → c.wantsClose = false) : s.Consistent where
  occupied := h.occupied.trans h.active.symm
  size := h.size.trans h.active.symm
  length := by rw [h.toList, List.length_map, h.active]
  nodup := h.toList ▸ h.nodup
  mem_iff d := by rw [h.toList, h.isSome_iff]
  ordered := by
    rw [h.toList, List.pairwise_map]
    refine hranked.ordered.imp_of_mem fun {x y} hx hy hle c c' hc hc' => ?_
    rw [(h.connection _ _).mpr hx, Option.some_inj] at hc
    rw [(h.connection _ _).mpr hy, Option.some_inj] at hc'
    rwa [← hc, ← hc']
  first d hd := by
    rw [h.idle.first, List.head?_map, Option.map_eq_some_iff] at hd
    obtain ⟨⟨d, c⟩, hfirst, rfl⟩ := hd
    obtain ⟨rest, rfl⟩ := List.head?_eq_some_iff.mp hfirst
    refine ⟨c, (h.connection d c).mpr List.mem_cons_self, fun d' c' hc' => ?_⟩
    rcases List.mem_cons.mp ((h.connection d' c').mp hc') with heq | hmem
    · cases heq
      exact Nat.le_refl _
    · exact (List.pairwise_cons.mp hranked.ordered).1 (d', c') hmem
  within := hwithin
  stays := hstays
  counted d := by
    obtain ⟨s', hdestroy, -⟩ := h.destroy d
    exact ⟨s', hdestroy⟩
  present := h.processTimersOr_eq

/-- **The books of a server agree** in every state, whatever the operating system brings while the
clock does not run backwards.  A run fails only when it asks for more than machine words can count
or tell. -/
theorem run_consistent {config : Config} (hs : ofConfig config = .ok s) {steps : List Step}
    (hsteps : Calls.Admissible Server.step Allows s steps)
    (htimes : (steps.map Step.now).Pairwise (· ≤ ·)) :
    (∃ answers s', Calls.run Server.step s steps = .ok (answers, s') ∧ s'.config = config ∧
        s'.Consistent) ∨
      Calls.run Server.step s steps = .error .overflow ∧ s.Exhausts steps := by
  refine (run_sound hs hsteps).imp_left ?_
  rintro ⟨answers, h, log, n, hrun, hsound⟩
  obtain ⟨conns, clock, hkeeps, hranked, -⟩ := run_ranked hs hsteps htimes hrun
  refine ⟨answers, h.server, hrun, hsound.configured, hkeeps.consistent hranked ?_ ?_⟩
  · rw [hsound.configured]
    exact hsound.within
  · intro d c hc
    obtain ⟨i, x, unsent, -, -, -, hwaits, -⟩ := hsound.exists_session hc
    exact hwaits.wantsClose

/-- Two connections, of which one breaks. -/
theorem run_consistent_two :
    ∃ answers s', Calls.run Server.step ⟨{}, Engine.ofConfig {}, #[], 0, IdleList.empty, false⟩
        [.accept [7, 5] 3, .ready 7 ⟨false, false, false, true⟩ .broken .all 4, .timers 100]
        = .ok (answers, s') ∧ s'.config = {} ∧ s'.Consistent := by
  have hs : ofConfig {} = .ok ⟨{}, Engine.ofConfig {}, #[], 0, IdleList.empty, false⟩ := rfl
  have hfresh : Fresh ⟨{}, Engine.ofConfig {}, #[], 0, IdleList.empty, false⟩ 3 [7, 5] :=
    ⟨rfl, rfl, trivial⟩
  have hsmall : ∀ step ∈ [Step.ready 7 ⟨false, false, false, true⟩ .broken .all 4, .timers 100],
      step.Small := by
    simp [Step.Small, ReadResult.data]
  have hsteps := admissible_accept hs hfresh hsmall
  rcases run_consistent hs hsteps (by decide) with h | ⟨-, hlarge | hlate⟩
  · exact h
  · exact absurd hlarge (by decide)
  · exact absurd hlate (not_lateIn hs hsteps (by decide) (by decide))

end KeyServer.Server
