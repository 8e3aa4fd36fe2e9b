import KeyServer.Proofs.Calls
import KeyServer.Proofs.Server.Bookkeeping

/-! # Steps of the event loop

The event loop accepts connections, lets ready ones read and write, and looks at its timers, in
any order and with whatever the operating system brings (`Server.Step`).  The system gives a new
connection a descriptor that no open one has, and reads no more bytes than there is room for
(`Server.Allows`).

* **`Keeps.acceptAll`**: new connections stand behind the others, in turn.
* **`Keeps.step_ranked`**: while the clock does not run backwards, the connections are listed by
  last activity.  So whoever is behind a connection that was not idle for too long was not,
  either (`Ranked.dropWhile_eq`).
-/

namespace KeyServer

namespace Connection

variable {c c' : Connection} {now : Nat} {sent : Bytes}

/-- Whoever is active notes the time. -/
theorem lastActive_of_onWrite {socket : WriteResult} (h : c.onWrite now socket = .ok (sent, c'))
    (hactive : c.lastActive = now) : c'.lastActive = now := by
  obtain ⟨pending, -, h⟩ := bind_eq_ok_iff.mp h
  dsimp only at h
  split at h
  · cases h
    split
    · exact hactive
    · exact hactive
  · obtain ⟨outgoing, -, h⟩ := bind_eq_ok_iff.mp h
    split at h
    · obtain ⟨outgoing, -, h⟩ := bind_eq_ok_iff.mp h
      cases h
      rfl
    · cases h
      rfl

theorem lastActive_of_onRead {e e' : Engine} {limits : Limits} {got : ReadResult}
    {socket : WriteResult} (h : c.onRead e limits now got socket = .ok (sent, c', e'))
    (hactive : c.lastActive = now) : c'.lastActive = now := by
  cases got with
  | finished | broken | wouldBlock =>
    obtain ⟨incoming, -, h⟩ := bind_eq_ok_iff.mp h
    cases h
    exact hactive
  | bytes data =>
    obtain ⟨c₁, hreceived, ⟨-, -, rfl⟩ | hwrite⟩ := received_of_onRead h
    · exact hreceived.lastActive
    · exact lastActive_of_onWrite hwrite hreceived.lastActive

theorem lastActive_of_onReady {e e' : Engine} {limits : Limits} {ready : Readiness}
    {got : ReadResult} {socket : WriteResult}
    (h : c.onReady e limits ready got socket now = .ok (sent, c', e')) : c'.lastActive = now := by
  unfold onReady at h
  dsimp only at h
  split at h
  · cases h
    rfl
  · split at h
    · exact lastActive_of_onRead h rfl
    · split at h
      · obtain ⟨⟨sent₁, c₁⟩, hwrite, h⟩ := bind_eq_ok_iff.mp h
        cases h
        exact lastActive_of_onWrite hwrite rfl
      · cases h
        rfl

end Connection

namespace Server

/-! ## Steps -/

/-- What the event loop does next. -/
inductive Step where
  /-- New connections wait, with these descriptors. -/
  | accept (descriptors : List Nat) (now : Nat)
  /-- A descriptor is ready for something; `got` and `socket` are what a read and a write of it
  would do. -/
  | ready (descriptor : Nat) (readiness : Readiness) (got : ReadResult) (socket : WriteResult)
    (now : Nat)
  /-- The timers are due to be looked at. -/
  | timers (now : Nat)

namespace Step

/-- The time of a step. -/
def now : Step → Nat
  | accept _ now | ready _ _ _ _ now | timers now => now

/-- How much a step can add to what the engine has to do: every request takes some bytes. -/
def size : Step → Nat
  | accept _ _ => 0
  | ready _ _ got _ _ => got.data.length
  | timers _ => 1

/-- Whether the socket takes everything that is written to it. -/
def TakesAll : Step → Prop
  | ready _ _ _ socket _ => socket = .all
  | accept _ _ | timers _ => True

end Step

/-- Makes a step; returns the bytes sent. -/
def step (s : Server) : Step → Except Fault (Bytes × Server)
  | .accept descriptors now => .ok ([], s.acceptAll descriptors now)
  | .ready descriptor readiness got socket now => s.handleReady descriptor readiness got socket now
  | .timers now => do return ([], ← s.processTimers now)

/-- Whether each of some new connections has a descriptor that no open connection has by then. -/
def Fresh (s : Server) (now : Nat) : List Nat → Prop
  | [] => True
  | d :: ds => s.connection? d = none ∧ (s.accept d now).2.Fresh now ds

/-- What the operating system may bring: new descriptors for new connections, and no more bytes
than a read has room for. -/
def Allows (s : Server) : Step → Prop
  | .accept descriptors now => s.Fresh now descriptors
  | .ready descriptor readiness got _ _ => ∀ c room, s.connection? descriptor = some c →
      c.readRoom = .ok room → (c.reads readiness got).length ≤ room
  | .timers _ => True

/-- The descriptors of the new connections that are accepted. -/
def accepted (s : Server) (now : Nat) : List Nat → List Nat
  | [] => []
  | d :: ds =>
    if (s.accept d now).1 then d :: (s.accept d now).2.accepted now ds
    else (s.accept d now).2.accepted now ds

variable {s s' : Server} {conns : List (Nat × Connection)} {d now clock : Nat}
  {c c' : Connection} {sent : Bytes}

/-! ## Accepting -/

theorem acceptAll_cons (s : Server) (d : Nat) (ds : List Nat) (now : Nat) :
    s.acceptAll (d :: ds) now = (s.accept d now).2.acceptAll ds now := rfl

/-- **New connections** are put at the end, as far as the limit allows. -/
theorem Keeps.acceptAll (now : Nat) : ∀ {ds : List Nat} {s : Server}
    {conns : List (Nat × Connection)}, s.Keeps conns → s.Fresh now ds →
    (s.acceptAll ds now).Keeps
      (conns ++ (s.accepted now ds).map fun d => (d, Connection.opened now)) := by
  intro ds
  induction ds with
  | nil => exact fun h _ => by simpa [accepted, Server.acceptAll] using h
  | cons d ds ih =>
    intro s conns h hfresh
    obtain ⟨hd, hfresh⟩ := hfresh
    rw [acceptAll_cons, accepted]
    rw [accept] at hfresh ⊢
    split
    · next hfull =>
      rw [if_pos hfull] at hfresh
      exact ih h hfresh
    · next hfull =>
      rw [if_neg hfull] at hfresh
      have h' := ih (h.register hd (Connection.opened now)) hfresh
      rwa [List.append_assoc] at h'

/-! ## Order -/

/-- Connections listed by last activity, none later than some time. -/
structure Ranked (conns : List (Nat × Connection)) (clock : Nat) : Prop where
  ordered : conns.Pairwise fun x y => x.2.lastActive ≤ y.2.lastActive
  past : ∀ x ∈ conns, x.2.lastActive ≤ clock

namespace Ranked

theorem sublist {conns' : List (Nat × Connection)} (h : Ranked conns clock)
    (hsub : conns'.Sublist conns) : Ranked conns' clock :=
  ⟨h.ordered.sublist hsub, fun x hx => h.past x (hsub.mem hx)⟩

/-- Connections that are active now stand at the end. -/
theorem append {new : List (Nat × Connection)} (h : Ranked conns clock) (hnow : clock ≤ now)
    (hnew : ∀ x ∈ new, x.2.lastActive = now) : Ranked (conns ++ new) now where
  ordered := by
    refine List.pairwise_append.mpr ⟨h.ordered, ?_, fun x hx y hy => ?_⟩
    · refine List.pairwise_of_forall_mem_list fun x hx y hy => ?_
      rw [hnew x hx, hnew y hy]
    · rw [hnew y hy]
      exact Nat.le_trans (h.past x hx) hnow
  past x hx := by
    rcases List.mem_append.mp hx with hx | hx
    · exact Nat.le_trans (h.past x hx) hnow
    · exact Nat.le_of_eq (hnew x hx)

theorem mono (h : Ranked conns clock) (hnow : clock ≤ now) : Ranked conns now := by
  have h' : Ranked (conns ++ []) now := h.append hnow (by simp)
  rwa [List.append_nil] at h'

/-- **No overdue connection** stands behind one that is not overdue. -/
theorem dropWhile_eq (h : Ranked conns clock) (timeout now : Nat) :
    conns.dropWhile (Overdue timeout now ·.2) = conns.filter (¬Overdue timeout now ·.2) := by
  obtain ⟨hordered, -⟩ := h
  induction conns with
  | nil => rfl
  | cons x conns ih =>
    obtain ⟨hfirst, hordered⟩ := List.pairwise_cons.mp hordered
    by_cases hdue : Overdue timeout now x.2
    · rw [List.dropWhile_cons_of_pos (by simpa using hdue),
        List.filter_cons_of_neg (by simpa using hdue), ih hordered]
    · rw [List.dropWhile_cons_of_neg (by simpa using hdue), eq_comm, List.filter_eq_self]
      intro y hy
      rw [decide_eq_true_eq]
      intro hdue'
      rcases List.mem_cons.mp hy with rfl | hy
      · exact hdue hdue'
      · exact hdue (Nat.le_trans (Nat.add_le_add_right (hfirst y hy) timeout) hdue')

end Ranked

theorem Ranked.without (h : Ranked conns clock) (d : Nat) :
    Ranked (Server.without conns d) clock :=
  h.sublist List.filter_sublist

/-- **A step** at a later time leaves the connections listed by last activity. -/
theorem Keeps.step_ranked {step : Step} (h : s.Keeps conns) (hranked : Ranked conns clock)
    (hnow : clock ≤ step.now) (hallows : s.Allows step) (hstep : s.step step = .ok (sent, s')) :
    ∃ conns', s'.Keeps conns' ∧ Ranked conns' step.now := by
  cases step with
  | accept ds now =>
    cases hstep
    refine ⟨_, h.acceptAll now hallows, hranked.append hnow fun x hx => ?_⟩
    obtain ⟨d, -, rfl⟩ := List.mem_map.mp hx
    rfl
  | ready d readiness got socket now =>
    replace hstep : s.handleReady d readiness got socket now = .ok (sent, s') := hstep
    cases hd : s.connection? d with
    | none =>
      rw [handleReady_of_none hd] at hstep
      cases hstep
      exact ⟨conns, h, hranked.mono hnow⟩
    | some c =>
      have hready := hstep
      rw [handleReady_eq hd] at hready
      obtain ⟨⟨sent₁, c', engine⟩, hready, -⟩ := bind_eq_ok_iff.mp hready
      obtain ⟨s₁, hstep', h', -⟩ := h.handleReady hd hready
      cases hstep.symm.trans hstep'
      refine ⟨_, h', ?_⟩
      unfold afterReady
      split
      · exact (hranked.without d).mono hnow
      · refine (hranked.without d).append hnow fun x hx => ?_
        rw [List.mem_singleton.mp hx]
        exact Connection.lastActive_of_onReady hready
  | timers now =>
    obtain ⟨s₁, htimers, hstep⟩ := bind_eq_ok_iff.mp hstep
    cases hstep
    obtain ⟨s₂, hclose, htimers⟩ := bind_eq_ok_iff.mp htimers
    obtain ⟨⟨n, engine⟩, -, htimers⟩ := bind_eq_ok_iff.mp htimers
    cases htimers
    rcases h.closeIdleWithin now (Nat.le_of_eq h.size.symm) with ⟨s₃, hclose', h', -⟩ | ⟨hclose', -⟩
    · cases hclose.symm.trans hclose'
      exact ⟨_, ⟨h'.idle, h'.connection, h'.active⟩,
        (hranked.sublist (List.dropWhile_sublist _)).mono hnow⟩
    · cases hclose.symm.trans hclose'

/-- **Any steps** in the order of time leave the connections listed by last activity. -/
theorem Keeps.run_ranked {steps : List Step} : ∀ {s : Server} {conns : List (Nat × Connection)}
    {clock : Nat} {answers : List Bytes}, s.Keeps conns → Ranked conns clock →
    Calls.Admissible Server.step Allows s steps → (clock :: steps.map Step.now).Pairwise (· ≤ ·) →
    Calls.run Server.step s steps = .ok (answers, s') →
    ∃ conns' clock', s'.Keeps conns' ∧ Ranked conns' clock' ∧
      clock' ∈ clock :: steps.map Step.now := by
  induction steps with
  | nil =>
    intro s conns clock answers h hranked _ _ hrun
    cases hrun
    exact ⟨conns, clock, h, hranked, List.mem_cons_self⟩
  | cons step steps ih =>
    intro s conns clock answers h hranked hsteps htimes hrun
    obtain ⟨hallows, hsteps⟩ := hsteps
    obtain ⟨hfirst, htimes⟩ := List.pairwise_cons.mp htimes
    obtain ⟨⟨sent, s₁⟩, hstep, hrun⟩ := bind_eq_ok_iff.mp hrun
    obtain ⟨⟨more, s₂⟩, hrest, hrun⟩ := bind_eq_ok_iff.mp hrun
    cases hrun
    obtain ⟨conns₁, h₁, hranked₁⟩ :=
      h.step_ranked hranked (hfirst _ List.mem_cons_self) hallows hstep
    obtain ⟨conns', clock', h', hranked', hclock⟩ :=
      ih h₁ hranked₁ (hsteps sent s₁ hstep) htimes hrest
    exact ⟨conns', clock', h', hranked', List.mem_cons_of_mem _ hclock⟩

end Server

end KeyServer
