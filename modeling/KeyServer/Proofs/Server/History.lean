import KeyServer.Proofs.Connection.Requests
import KeyServer.Proofs.Server.Steps
import Mathlib.Algebra.Order.BigOperators.Group.List
import Mathlib.Algebra.Order.Group.Nat

/-! # Histories of a server

A history has, for every connection that a server ever accepted, the bytes that were read from
and sent to it (`Session`).  Beside it goes a log of what happened to the engine
(`Occurrence`): whose requests were run, and when it was swept.

`Session.Agrees` compares the two: the requests of a session in the log are the requests in the
bytes that were read, and what was sent or is still to be sent are the replies to them.
-/

namespace KeyServer

/-- A connection from its beginning to its end. -/
structure Session where
  descriptor : Nat
  /-- The bytes that were read from it. -/
  received : Bytes
  /-- The bytes that were sent to it. -/
  sent : Bytes
  isOpen : Bool

/-- A server with all connections that it accepted, in order. -/
structure History where
  server : Server
  sessions : List Session

/-- What happened to the engine. -/
inductive Occurrence where
  /-- It answered a request of a session. -/
  | request (session : Nat) (args : List Bytes) (now : Nat) (reply : Bytes)
  /-- It was swept. -/
  | sweep (now : Nat)

namespace Occurrence

/-- What the engine sees of it. -/
def event : Occurrence → Event
  | request _ args now _ => .request args now
  | sweep now => .sweep now

def reply? : Occurrence → Option Bytes
  | request _ _ _ reply => some reply
  | sweep _ => none

/-- The request of a session, and the reply to it. -/
def exchange? (session : Nat) : Occurrence → Option (List Bytes × Bytes)
  | request i args _ reply => if i = session then some (args, reply) else none
  | sweep _ => none

end Occurrence

/-- The requests of a session in a log, with the replies to them. -/
def exchanges (log : List Occurrence) (session : Nat) : List (List Bytes × Bytes) :=
  log.filterMap (Occurrence.exchange? session)

/-- The frames of some replies. -/
def replyFrames (limits : Limits) (exchanges : List (List Bytes × Bytes)) : Bytes :=
  exchanges.flatMap (Frame.capped limits.maxMessageSize ·.2)

/-- Some requests of a session, run one after the other. -/
def requestsOf (session now : Nat) (exchanges : List (List Bytes × Bytes)) : List Occurrence :=
  exchanges.map fun x => .request session x.1 now x.2

namespace Session

/-- A new connection. -/
def opened (descriptor : Nat) : Session := ⟨descriptor, [], [], true⟩

/-- Whether it is the open connection of a descriptor. -/
def Has (x : Session) (descriptor : Nat) : Prop := x.isOpen = true ∧ x.descriptor = descriptor

instance (x : Session) (descriptor : Nat) : Decidable (x.Has descriptor) :=
  inferInstanceAs (Decidable (_ ∧ _))

end Session

namespace Server

/-- The bytes that are read when a descriptor is ready for something. -/
def reads (s : Server) (descriptor : Nat) (readiness : Readiness) (got : ReadResult) : Bytes :=
  match s.connection? descriptor with
  | some c => c.reads readiness got
  | none => []

/-- What a step that leads from one server to another makes of a session. -/
def follow (s s' : Server) (sent : Bytes) (step : Step) (x : Session) : Session :=
  match step with
  | .accept _ _ => x
  | .ready descriptor readiness got _ _ =>
    if x.Has descriptor then
      { x with
        received := x.received ++ s.reads descriptor readiness got
        sent := x.sent ++ sent
        isOpen := (s'.connection? descriptor).isSome }
    else x
  | .timers _ => { x with isOpen := x.isOpen && (s'.connection? x.descriptor).isSome }

section Follow

variable {s s' : Server} {sent : Bytes} {step : Step} {x : Session}

theorem descriptor_follow (s s' : Server) (sent : Bytes) (step : Step) (x : Session) :
    (s.follow s' sent step x).descriptor = x.descriptor := by
  unfold follow
  split
  · rfl
  · split <;> rfl
  · rfl

/-- No closed session is opened again. -/
theorem isOpen_of_follow (h : (s.follow s' sent step x).isOpen = true) : x.isOpen = true := by
  unfold follow at h
  split at h
  · exact h
  · split at h
    · next hhas => exact hhas.1
    · exact h
  · exact (Bool.and_eq_true_iff.mp h).1

end Follow

/-- The sessions that a step begins. -/
def begun (s : Server) : Step → List Session
  | .accept descriptors now => (s.accepted now descriptors).map Session.opened
  | .ready .. | .timers _ => []

end Server

namespace History

/-- A server before anything happened. -/
def ofServer (s : Server) : History := ⟨s, []⟩

/-- Notes what was read and sent in a step that led to some server. -/
def after (h : History) (step : Server.Step) (sent : Bytes) (server : Server) : History :=
  ⟨server, h.sessions.map (h.server.follow server sent step) ++ h.server.begun step⟩

/-- Makes a step of the event loop. -/
def step (h : History) (step : Server.Step) : Except Fault (Bytes × History) := do
  let (sent, server) ← h.server.step step
  return (sent, h.after step sent server)

end History

/-! ## Logs -/

section Logs

variable {log part : List Occurrence} {i j now : Nat} {pairs : List (List Bytes × Bytes)}

theorem exchanges_append (log part : List Occurrence) (i : Nat) :
    exchanges (log ++ part) i = exchanges log i ++ exchanges part i :=
  List.filterMap_append

theorem exchanges_requestsOf_self (i now : Nat) (pairs : List (List Bytes × Bytes)) :
    exchanges (requestsOf i now pairs) i = pairs := by
  rw [exchanges, requestsOf, List.filterMap_map]
  simp [Function.comp_def, Occurrence.exchange?]

theorem exchanges_requestsOf_of_ne (h : i ≠ j) (now : Nat) (pairs : List (List Bytes × Bytes)) :
    exchanges (requestsOf i now pairs) j = [] := by
  rw [exchanges, requestsOf, List.filterMap_map]
  simp [Function.comp_def, Occurrence.exchange?, h]

theorem event_requestsOf (i now : Nat) (pairs : List (List Bytes × Bytes)) :
    (requestsOf i now pairs).map Occurrence.event = pairs.map fun x => .request x.1 now := by
  rw [requestsOf, List.map_map]
  rfl

theorem reply_requestsOf (i now : Nat) (pairs : List (List Bytes × Bytes)) :
    (requestsOf i now pairs).filterMap Occurrence.reply? = pairs.map (·.2) := by
  rw [requestsOf, List.filterMap_map]
  exact congrFun List.filterMap_eq_map' pairs

theorem replyFrames_append (limits : Limits) (pairs pairs' : List (List Bytes × Bytes)) :
    replyFrames limits (pairs ++ pairs') = replyFrames limits pairs ++ replyFrames limits pairs' :=
  List.flatMap_append

end Logs

/-! ## Sessions -/

namespace Session

/-- A session agrees with its requests in the log, and with the connection of the server; `unsent`
of the replies are still to be sent.  If sockets take everything, as `eager` tells, there are
none. -/
structure Agrees (x : Session) (limits : Limits) (eager : Prop) (s : Server)
    (pairs : List (List Bytes × Bytes)) (unsent : Bytes) : Prop where
  requests : pairs.map (·.1) = Connection.requests limits x.received
  sent : x.sent ++ unsent = replyFrames limits pairs
  settled : eager → unsent = []
  connection : x.isOpen = true → ∃ c, s.connection? x.descriptor = some c ∧
    c.Waits (Connection.remainder limits x.received) unsent ∧
    Connection.front limits (Connection.remainder limits x.received) = .incomplete ∧
    (eager → c.wantsRead = true)

variable {limits : Limits} {eager : Prop} {s s' : Server} {pairs : List (List Bytes × Bytes)}
  {unsent : Bytes} {x : Session}

theorem agrees_opened {d now : Nat} (limits : Limits) (eager : Prop)
    (hd : s.connection? d = some (Connection.opened now)) :
    (opened d).Agrees limits eager s [] [] where
  requests := (Connection.requests_nil limits).symm
  sent := rfl
  settled _ := rfl
  connection _ := by
    refine ⟨_, hd, ?_, ?_, fun _ => rfl⟩
    · rw [opened, Connection.remainder_nil]
      exact Connection.waits_opened now
    · rw [opened, Connection.remainder_nil]
      exact Connection.front_nil limits

/-- A session whose connection stays as it is. -/
theorem Agrees.congr (h : x.Agrees limits eager s pairs unsent)
    (hconnection : x.isOpen = true → s'.connection? x.descriptor = s.connection? x.descriptor) :
    x.Agrees limits eager s' pairs unsent where
  requests := h.requests
  sent := h.sent
  settled := h.settled
  connection hopen := by
    rw [hconnection hopen]
    exact h.connection hopen

/-- **The session of a ready connection** goes on with the requests that it completes. -/
theorem Agrees.ready {now : Nat} {e : Engine} {chunk sent unsent' : Bytes}
    {p : Connection.Passed} {c c' : Connection} {ended : Bool} {socket : WriteResult}
    {pairs' : List (List Bytes × Bytes)} (h : x.Agrees limits eager s pairs unsent)
    (hfront : Connection.front limits (Connection.remainder limits x.received) = .incomplete)
    (hpass : Connection.pass limits now e (Connection.remainder limits x.received ++ chunk) = .ok p)
    (hrequests : pairs'.map (·.1)
      = Connection.requests limits (Connection.remainder limits x.received ++ chunk))
    (hreplies : p.sent = replyFrames limits pairs')
    (hrest : p.rest
      = Connection.remainder limits (Connection.remainder limits x.received ++ chunk))
    (hsent : sent ++ unsent' = unsent ++ p.sent)
    (hdrove : c.Drove c' now p ended socket unsent unsent')
    (heager : eager → socket = .all ∧ c.wantsRead = true)
    (hconnection : s'.connection? x.descriptor = if c'.wantsClose then none else some c') :
    Agrees { x with
      received := x.received ++ chunk
      sent := x.sent ++ sent
      isOpen := (s'.connection? x.descriptor).isSome } limits eager s' (pairs ++ pairs')
      unsent' := by
  obtain ⟨hall, hremainder⟩ := Connection.requests_append chunk hfront
  have hdone : eager → unsent' = [] ∧ c'.wantsRead = true := by
    intro hyes
    obtain ⟨hsocket, hread⟩ := heager hyes
    obtain ⟨hnone, hread', -⟩ := hdrove.all hsocket (h.settled hyes) hread
    exact ⟨hnone, hread'⟩
  refine ⟨?_, ?_, fun hyes => (hdone hyes).1, fun hopen => ?_⟩
  · rw [List.map_append, h.requests, hrequests, hall]
  · rw [List.append_assoc, hsent, ← List.append_assoc, h.sent, hreplies, replyFrames_append]
  · -- An open connection was not closed by the pass, so what it left begins a frame.
    dsimp only at hopen ⊢
    rw [hconnection] at hopen ⊢
    cases hclose : c'.wantsClose with
    | true => simp [hclose] at hopen
    | false =>
      have hclosed : p.closed = false := by
        rw [Bool.eq_false_iff]
        intro hclosed
        rw [hdrove.wantsClose hclosed] at hclose
        cases hclose
      have hnext := Connection.front_remainder_of_pass hpass
      rw [hclosed] at hnext
      rw [hremainder, ← hrest] at *
      exact ⟨c', rfl, ⟨hdrove.incoming, hdrove.outgoing, hclose⟩, hnext, fun hyes => (hdone hyes).2⟩

end Session

/-- How many bytes are left of what was read from some sessions. -/
def leftOver (limits : Limits) (sessions : List Session) : Nat :=
  (sessions.map fun x => (Connection.remainder limits x.received).length).sum

theorem leftOver_append (limits : Limits) (sessions sessions' : List Session) :
    leftOver limits (sessions ++ sessions')
      = leftOver limits sessions + leftOver limits sessions' := by
  rw [leftOver, List.map_append, List.sum_append, leftOver, leftOver]

/-- What is left of one session is part of it. -/
theorem length_remainder_le (limits : Limits) {sessions : List Session} {x : Session}
    (hx : x ∈ sessions) :
    (Connection.remainder limits x.received).length ≤ leftOver limits sessions :=
  List.le_sum_of_mem (List.mem_map.mpr ⟨x, hx, rfl⟩)

/-- When one session changes, so does its part. -/
theorem leftOver_map (limits : Limits) (f : Session → Session) :
    ∀ {sessions : List Session} {i : Nat} {x : Session}, sessions[i]? = some x →
    (∀ j y, sessions[j]? = some y → j ≠ i → f y = y) →
    leftOver limits (sessions.map f) + (Connection.remainder limits x.received).length
      = leftOver limits sessions + (Connection.remainder limits (f x).received).length := by
  intro sessions
  induction sessions with
  | nil => simp
  | cons z sessions ih =>
    rintro (_ | i) x hx hf
    · obtain rfl := Option.some_inj.mp hx
      have hrest : sessions.map f = sessions := by
        refine (List.map_congr_left fun y hy => ?_).trans (List.map_id' sessions)
        obtain ⟨j, hj⟩ := List.mem_iff_getElem?.mp hy
        exact hf (j + 1) y hj (Nat.succ_ne_zero j)
      rw [List.map_cons, hrest, leftOver, leftOver, List.map_cons, List.map_cons, List.sum_cons,
        List.sum_cons]
      omega
    · have hfirst : f z = z := hf 0 z rfl (Nat.succ_ne_zero i).symm
      have hrest := ih (i := i) hx fun j y hy hj => hf (j + 1) y hy (by omega)
      rw [List.map_cons, hfirst]
      simp only [leftOver, List.map_cons, List.sum_cons] at hrest ⊢
      omega

end KeyServer
