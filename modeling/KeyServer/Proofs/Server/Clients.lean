import KeyServer.Loopback
import KeyServer.Proofs.Server.Runs

/-! # Clients make a server take steps

A server with its clients in one value (`Loopback`) is a server like any other: whatever the
clients do, in whatever order, it takes steps of its event loop that the operating system may bring,
and its clock does not run backwards (**`Loopback.run_reached`**).  So what holds of every run of a
server holds of it.

The two things that the system sees to are seen to here: a new connection gets a descriptor that no
open one has (`Loopback.connection?_freeDescriptor`), and a read yields no more bytes than there is
room for (`Peer.length_read_le`).
-/

namespace KeyServer

/-- Whether a computation leads to something of a kind, unless something overflows. -/
def Yields {σ : Type} (P : σ → Prop) (r : Except Fault σ) : Prop :=
  (∃ x, r = .ok x ∧ P x) ∨ r = .error .overflow

namespace Yields

variable {σ τ : Type} {P : σ → Prop} {Q : τ → Prop}

theorem ok {x : σ} (h : P x) : Yields P (.ok x) := .inl ⟨x, rfl, h⟩

theorem bind {r : Except Fault σ} {f : σ → Except Fault τ} (hr : Yields P r)
    (hf : ∀ x, P x → Yields Q (f x)) : Yields Q (r >>= f) := by
  rcases hr with ⟨x, rfl, hx⟩ | rfl
  · exact hf x hx
  · exact .inr rfl

end Yields

/-! ## The server -/

namespace Server

variable {config : Config} {now : Nat} {s : Server}

/-- The servers that steps of the event loop lead to until some time. -/
def ReachedBy (config : Config) (now : Nat) (s : Server) : Prop :=
  ∃ s₀ steps answers, ofConfig config = .ok s₀ ∧
    Calls.Admissible Server.step Allows s₀ steps ∧ (steps.map Step.now).Pairwise (· ≤ ·) ∧
    (∀ step ∈ steps, step.now ≤ now) ∧ Calls.run Server.step s₀ steps = .ok (answers, s)

namespace ReachedBy

theorem ofConfig (hs : Server.ofConfig config = .ok s) : s.ReachedBy config now :=
  ⟨s, [], [], hs, trivial, .nil, by simp, rfl⟩

theorem mono {now' : Nat} (hs : s.ReachedBy config now) (hnow : now ≤ now') :
    s.ReachedBy config now' := by
  obtain ⟨s₀, steps, answers, hs₀, hsteps, htimes, hpast, hrun⟩ := hs
  exact ⟨s₀, steps, answers, hs₀, hsteps, htimes,
    fun step hstep => Nat.le_trans (hpast step hstep) hnow, hrun⟩

/-- **A step** that the system may bring leads on, unless something overflows. -/
theorem step (hs : s.ReachedBy config now) {step : Step} (hallows : s.Allows step)
    (hnow : step.now = now) :
    Yields (fun r => r.2.ReachedBy config now) (s.step step) := by
  obtain ⟨s₀, steps, answers, hs₀, hsteps, htimes, hpast, hrun⟩ := hs
  have hsteps' : Calls.Admissible Server.step Allows s₀ (steps ++ [step]) := by
    refine hsteps.append fun answers' s' hrun' => ?_
    cases hrun.symm.trans hrun'
    exact ⟨hallows, fun _ _ _ => trivial⟩
  have hrun' : Calls.run Server.step s₀ (steps ++ [step]) =
      s.step step >>= fun r => .ok (answers ++ [r.1], r.2) := by
    rw [Calls.run_append, hrun]
    simp [Calls.run]
  cases hstep : s.step step with
  | ok r =>
    refine .ok ⟨s₀, steps ++ [step], answers ++ [r.1], hs₀, hsteps', ?_, ?_, ?_⟩
    · rw [List.map_append, List.pairwise_append]
      refine ⟨htimes, by simp, ?_⟩
      simpa [hnow] using hpast
    · intro step' hstep'
      rcases List.mem_append.mp hstep' with hstep' | hstep'
      · exact hpast step' hstep'
      · rw [List.mem_singleton.mp hstep', hnow]
    · rw [hrun', hstep, ok_bind]
  | error fault =>
    rw [hstep] at hrun'
    rcases run_sound hs₀ hsteps' with ⟨_, h, _, _, hsound, -⟩ | ⟨hfault, -⟩
    · cases hsound.symm.trans hrun'
    · cases hfault.symm.trans hrun'
      exact .inr rfl

theorem accept (hs : s.ReachedBy config now) {d : Nat} (hd : s.connection? d = none) :
    (s.accept d now).2.ReachedBy config now := by
  have hstep : Yields (fun r => r.2.ReachedBy config now) (s.step (.accept [d] now)) :=
    hs.step ⟨hd, trivial⟩ rfl
  rcases hstep with ⟨r, hr, h⟩ | hr
  · cases hr
    exact h
  · cases hr

theorem processTimers (hs : s.ReachedBy config now) :
    Yields (ReachedBy config now) (s.processTimers now) := by
  have hstep : Yields (fun r => r.2.ReachedBy config now) (s.step (.timers now)) :=
    hs.step trivial rfl
  rcases hstep with ⟨r, hr, h⟩ | hr
  · obtain ⟨s', htimers, heq⟩ := bind_eq_ok_iff.mp hr
    cases heq
    exact .inl ⟨s', htimers, h⟩
  · refine .inr ?_
    simp only [Server.step] at hr
    cases htimers : s.processTimers now with
    | ok s' =>
      rw [htimers] at hr
      cases hr
    | error fault =>
      rw [htimers] at hr
      cases hr
      rfl

/-- There is room for a read of every connection. -/
theorem exists_readRoom (hs : s.ReachedBy config now) {d : Nat} {c : Connection}
    (hc : s.connection? d = some c) : ∃ room, c.readRoom = .ok room := by
  obtain ⟨s₀, steps, answers, hs₀, hsteps, -, -, hrun⟩ := hs
  rcases run_sound hs₀ hsteps with ⟨_, h, _, _, hrun', hsound⟩ | ⟨hrun', -⟩
  · cases hrun.symm.trans hrun'
    obtain ⟨i, x, unsent, -, -, -, hwaits, -⟩ := hsound.exists_session hc
    obtain ⟨room, hroom, -⟩ := Connection.exists_readRoom hwaits.incoming
    exact ⟨room, hroom⟩
  · cases hrun.symm.trans hrun'

end ReachedBy

end Server

/-- A read yields no more bytes than there is room for. -/
theorem Peer.length_read_le (p : Peer) (room : Nat) : (p.read room).1.data.length ≤ room := by
  unfold read
  split
  · exact List.length_take_le room p.outbound
  · split <;> exact Nat.zero_le _

theorem Peer.descriptor_read (p : Peer) (room : Nat) :
    (p.read room).2.descriptor = p.descriptor := by
  unfold read
  split
  · rfl
  · split <;> rfl

/-! ## Rounds of the event loop -/

namespace Loopback

variable {config : Config} {now : Nat} {s : Server} {l : Loopback}

/-- A new connection gets a descriptor that no open one has. -/
theorem connection?_freeDescriptor (s : Server) : s.connection? (freeDescriptor s) = none := by
  rw [freeDescriptor, Server.connection?]
  cases h : s.connections.findIdx? Option.isNone with
  | none => simp
  | some d =>
    obtain ⟨hlt, hnone, -⟩ := Array.findIdx?_eq_some_iff_getElem.mp h
    simpa [hlt] using hnone

theorem handlePeer_reached (hs : s.ReachedBy config now) (p : Peer) :
    Yields (fun r => r.2.ReachedBy config now) (handlePeer s p now) := by
  unfold handlePeer
  split
  · exact .ok hs
  · next c hc =>
    split
    · exact .ok hs
    · obtain ⟨room, hroom⟩ := hs.exists_readRoom hc
      have hallows :
          s.Allows (.ready p.descriptor { readable := true } (p.read room).1 .all now) := by
        intro c' room' hc' hroom'
        cases hc.symm.trans hc'
        cases hroom.symm.trans hroom'
        exact Nat.le_trans (c.length_reads_le _ _) (p.length_read_le room)
      have hready : Yields (fun r => r.2.ReachedBy config now)
          (s.handleReady p.descriptor { readable := true } (p.read room).1 .all now) :=
        hs.step hallows rfl
      rw [← p.descriptor_read room] at hready
      rw [hroom, ok_bind]
      exact hready.bind fun r hr => .inl ⟨_, rfl, hr⟩

theorem handlePeers_reached (ps : List Peer) : ∀ {s : Server}, s.ReachedBy config now →
    Yields (fun r => r.2.ReachedBy config now) (handlePeers now ps s) := by
  induction ps with
  | nil => exact fun hs => .ok hs
  | cons p ps ih =>
    intro s hs
    refine (handlePeer_reached hs p).bind fun r hr => ?_
    exact (ih hr).bind fun r' hr' => .ok hr'

/-- Whether steps of the event loop have led to the server, until the time it is. -/
def Reached (config : Config) (l : Loopback) : Prop := l.server.ReachedBy config l.now

/-- **A round of the event loop** takes steps only. -/
theorem poll_reached (hl : l.Reached config) : Yields (Reached config) l.poll := by
  refine (handlePeers_reached l.peers hl).bind fun r hr => ?_
  exact hr.processTimers.bind fun s hs => .ok hs

theorem pollUntilRead_reached (client : Nat) : ∀ (steps : Nat) {l : Loopback}, l.Reached config →
    Yields (Reached config) (pollUntilRead client steps l)
  | 0, _, hl => .ok hl
  | steps + 1, l, hl => by
    refine (poll_reached hl).bind fun l' hl' => ?_
    split
    · split
      · exact .ok hl'
      · exact pollUntilRead_reached client steps hl'
    · exact .ok hl'

/-! ## Clients -/

/-- What a client does, or what happens while none does anything. -/
inductive Call where
  | connect (client : Nat)
  | send (client : Nat) (data : Bytes) (expect : Nat)
  | leave (client : Nat)
  | idleOut
  | poll

/-- What it gets to know. -/
inductive Answer where
  | accepted (accepted : Bool)
  | responses (responses : List (Except Error Response)) (ended : Bool)
  | closed (clients : List Nat)
  | done

/-- Carries out a call. -/
def call (l : Loopback) : Call → Except Fault (Answer × Loopback)
  | .connect client => do
    let (accepted, l) ← l.connect client
    return (.accepted accepted, l)
  | .send client data expect => do
    let (responses, ended, l) ← l.send client data expect
    return (.responses responses ended, l)
  | .leave client => return (.done, ← l.leave client)
  | .idleOut => do
    let (clients, l) ← l.idleOut
    return (.closed clients, l)
  | .poll => return (.done, ← l.poll)

theorem connect_reached (hl : l.Reached config) (client : Nat) :
    Yields (fun r => r.2.Reached config) (l.connect client) := by
  have haccept := hl.accept (connection?_freeDescriptor l.server)
  refine Yields.bind (P := Reached config) (poll_reached ?_) fun l' hl' => .ok hl'
  exact haccept

theorem send_reached (hl : l.Reached config) (client : Nat) (data : Bytes) (expect : Nat) :
    Yields (fun r => r.2.2.Reached config) (l.send client data expect) := by
  unfold send
  split
  · exact (poll_reached hl).bind fun l' hl' => .ok hl'
  · split
    · exact (poll_reached hl).bind fun l' hl' => .ok hl'
    · refine (pollUntilRead_reached client _ (l := l.setPeer _) hl).bind fun l' hl' => ?_
      split <;> exact .ok hl'

theorem leave_reached (hl : l.Reached config) (client : Nat) :
    Yields (Reached config) (l.leave client) := by
  unfold leave
  split
  · exact poll_reached hl
  · exact (poll_reached (l := l.setPeer _) hl).bind fun l' hl' => .ok hl'

theorem idleOut_reached (hl : l.Reached config) :
    Yields (fun r => r.2.Reached config) l.idleOut := by
  refine (poll_reached ?_).bind fun l' hl' => .ok hl'
  exact hl.mono (Nat.le_add_right ..)

/-- **Whatever a client does**, the server takes steps. -/
theorem call_reached (hl : l.Reached config) (c : Call) :
    Yields (fun r => r.2.Reached config) (l.call c) := by
  cases c with
  | connect client => exact (connect_reached hl client).bind fun r hr => .ok hr
  | send client data expect => exact (send_reached hl client data expect).bind fun r hr => .ok hr
  | leave client => exact (leave_reached hl client).bind fun l' hl' => .ok hl'
  | idleOut => exact (idleOut_reached hl).bind fun r hr => .ok hr
  | poll => exact (poll_reached hl).bind fun l' hl' => .ok hl'

/-- **Whatever clients do** in turn, in front of a server that starts without connections, steps
of the event loop lead to where the server is. -/
theorem run_reached (hs : Server.ofConfig config = .ok s) (calls : List Call) :
    Yields (fun r => r.2.Reached config) (Calls.run call (ofServer s) calls) := by
  have hstart : (ofServer s).Reached config := .ofConfig hs
  generalize ofServer s = l at hstart
  induction calls generalizing l with
  | nil => exact .ok hstart
  | cons c calls ih =>
    refine (call_reached hstart c).bind fun r hr => ?_
    exact (ih r.2 hr).bind fun r' hr' => .ok hr'

end Loopback

end KeyServer
