import KeyServer.Connection
import KeyServer.IdleList
import KeyServer.Poll

/-!
# The server

The event loop of a server as a state machine.  The operating system appears only through
arguments: which descriptor a new connection gets, what a descriptor is ready for, what a
read or write of it does, and what time it is.  One round of the loop

1. waits at most `nextTimeout`;
2. accepts new connections (`accept`);
3. lets the ready connections read or write (`handleReady`);
4. closes the connections that were idle for too long and sweeps the keys whose deadline
   has come (`processTimers`).
-/

namespace KeyServer

/-- The state of a server. -/
structure Server where
  config : Config
  engine : Engine
  /-- The open connections by descriptor. -/
  connections : Array (Option Connection)
  /-- How many connections are open. -/
  active : Nat
  /-- The descriptors of the open connections by last activity. -/
  idle : IdleList
  /-- Whether the event loop is to end. -/
  stopping : Bool

namespace Server

/-- A server without connections, if the configuration is good. -/
def ofConfig (config : Config) : Except Error Server := do
  config.validate
  return ⟨config, Engine.ofConfig config, #[], 0, IdleList.empty, false⟩

/-- Asks the event loop to end. -/
def shutdown (s : Server) : Server := { s with stopping := true }

/-- The connection of a descriptor. -/
def connection? (s : Server) (descriptor : Nat) : Option Connection :=
  s.connections[descriptor]?.join

/-! ## Connections -/

/-- Keeps a connection under its descriptor. -/
def register (s : Server) (descriptor : Nat) (c : Connection) : Server :=
  let room := Array.replicate (descriptor + 1 - s.connections.size) none
  { s with
    connections := (s.connections ++ room).setIfInBounds descriptor (some c)
    idle := s.idle.pushBack descriptor
    active := s.active + 1 }

/-- Accepts a new connection unless there are as many as allowed; tells whether it did. -/
def accept (s : Server) (descriptor now : Nat) : Bool × Server :=
  if s.config.maxConnections ≤ s.active then (false, s)
  else (true, s.register descriptor (Connection.opened now))

/-- Accepts new connections in turn. -/
def acceptAll (s : Server) (descriptors : List Nat) (now : Nat) : Server :=
  descriptors.foldl (fun s descriptor => (s.accept descriptor now).2) s

/-- Closes the connection of a descriptor. -/
def destroy (s : Server) (descriptor : Nat) : Except Fault Server :=
  match s.connection? descriptor with
  | none => .ok s
  | some _ => do
    return { s with
      connections := s.connections.setIfInBounds descriptor none
      idle := (s.idle.remove descriptor).2
      active := ← countDiff s.active 1 }

/-- Lets a connection do what its socket is ready for; `got` and `socket` are what a read
and a write of it would do.  Returns the bytes sent. -/
def handleReady (s : Server) (descriptor : Nat) (ready : Readiness) (got : ReadResult)
    (socket : WriteResult) (now : Nat) : Except Fault (Bytes × Server) :=
  match s.connection? descriptor with
  | none => .ok ([], s)
  | some c => do
    let c := c.touch now
    let (sent, c, engine) ←
      if ready.error then pure ([], c.close, s.engine)
      else if c.wantsRead && (ready.readable || ready.hangup) then
        c.onRead s.engine s.config.limits now got socket
      else if c.wantsWrite && (ready.writable || ready.hangup) then do
        let (sent, c) ← c.onWrite now socket
        pure (sent, c, s.engine)
      else pure ([], c, s.engine)
    let s := { s with
      engine
      connections := s.connections.setIfInBounds descriptor (some c)
      idle := s.idle.touch descriptor }
    return (sent, ← if c.wantsClose then s.destroy descriptor else pure s)

/-! ## Timers -/

/-- When the connection that is idle for longest is to be closed. -/
def nextIdleDeadline (s : Server) : Except Fault (Option Nat) :=
  match s.idle.first.bind s.connection? with
  | none => .ok none
  | some c => return some (← addWords c.lastActive s.config.idleTimeout)

/-- How long the event loop may wait, in milliseconds. -/
def nextTimeout (s : Server) (now : Nat) : Except Fault Nat := do
  let until? (deadline : Option Nat) (wait : Nat) : Nat :=
    match deadline with
    | some t => min wait (t - now)
    | none => wait
  return until? s.engine.nextExpiry? (until? (← s.nextIdleDeadline) s.config.maxPollWait)

/-- Closes the connections that were idle for too long, at most `steps` of them. -/
def closeIdleWithin (now : Nat) (steps : Nat) (s : Server) : Except Fault Server :=
  match s.idle.first with
  | none => .ok s
  | some descriptor =>
    match steps with
    | 0 => .error .endlessLinks
    | steps + 1 => do
      match ← s.nextIdleDeadline with
      | none => closeIdleWithin now steps { s with idle := (s.idle.remove descriptor).2 }
      | some deadline =>
        if now < deadline then return s
        else closeIdleWithin now steps (← s.destroy descriptor)

/-- Closes idle connections and sweeps the keys. -/
def processTimers (s : Server) (now : Nat) : Except Fault Server := do
  let s ← closeIdleWithin now s.idle.size s
  let (_, engine) ← s.engine.sweep now
  return { s with engine }

end Server

end KeyServer
