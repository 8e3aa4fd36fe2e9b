import KeyServer.Engine.Execution
import KeyServer.Request

/-!
# Connections

A connection is the server's side of one client: what was received and not yet answered,
and the replies on their way out.  It is driven by what the socket does: `onRead` takes
what one read of the socket yields, runs every complete request and starts to send the
replies; `onWrite` sends what is left.

While replies wait, the connection does not want to read, so a client that does not read
its replies cannot make the server store more of them.  A malformed frame cannot be
skipped: the connection then wants to be closed, and runs no further request.
-/

namespace KeyServer

/-- What one read of a socket yields. -/
inductive ReadResult where
  /-- Some bytes. -/
  | bytes (data : Bytes)
  /-- The peer will send no more. -/
  | finished
  /-- There is nothing to read now. -/
  | wouldBlock
  /-- The connection is broken. -/
  | broken
  deriving DecidableEq, Repr

/-- What one write to a socket would do. -/
inductive WriteResult where
  /-- It takes everything. -/
  | all
  /-- It takes at most some number of bytes. -/
  | atMost (bytes : Nat)
  /-- It takes nothing now. -/
  | wouldBlock
  /-- The connection is broken. -/
  | broken
  deriving DecidableEq, Repr

/-- The limits on the messages of a connection. -/
structure Limits where
  maxMessageSize : Nat
  maxArgs : Nat
  deriving DecidableEq, Repr

/-- The limits that a configuration sets. -/
def Config.limits (c : Config) : Limits := ⟨c.maxMessageSize, c.maxArgs⟩

/-- The server's side of a connection. -/
structure Connection where
  /-- Received bytes that are not yet a complete request. -/
  incoming : Buffer
  /-- Replies that are not yet sent. -/
  outgoing : Buffer
  wantsRead : Bool
  wantsWrite : Bool
  /-- Whether the event loop is to close the connection. -/
  wantsClose : Bool
  /-- The time of the last successful read or write. -/
  lastActive : Nat
  deriving Repr

namespace Connection

/-- How many bytes a read has room for, at least. -/
def readChunk : Nat := 64 * 1024

/-- Buffers are not made smaller than this. -/
def shrinkFloor : Nat := 1024 * 1024

/-- A new connection. -/
def opened (now : Nat) : Connection := ⟨Buffer.empty, Buffer.empty, true, false, false, now⟩

/-- Asks for the connection to be closed. -/
def close (c : Connection) : Connection := { c with wantsClose := true }

/-- Notes activity. -/
def touch (c : Connection) (now : Nat) : Connection := { c with lastActive := now }

/-- The number of received bytes that wait, and of bytes to be sent. -/
def buffered (c : Connection) : Except Fault (Nat × Nat) :=
  return (← c.incoming.length, ← c.outgoing.length)

/-! ## Writing -/

/-- Sends replies as far as the socket takes them; returns the bytes it took. -/
def onWrite (c : Connection) (now : Nat) (socket : WriteResult) :
    Except Fault (Bytes × Connection) := do
  let pending ← c.outgoing.unread
  let accepted : Option Nat := match socket with
    | .all => some pending.length
    | .atMost n => some (min n pending.length)
    | .wouldBlock | .broken => none
  match accepted with
  | none => return ([], if socket = .broken then c.close else c)
  | some n =>
    let outgoing ← c.outgoing.consume n
    let sent := pending.take n
    if outgoing.isEmpty then
      let outgoing ← outgoing.shrink shrinkFloor
      return (sent, { c with outgoing, lastActive := now, wantsRead := true, wantsWrite := false })
    else
      return (sent, { c with outgoing, lastActive := now })

/-! ## Reading -/

/-- What running the received requests leaves. -/
structure Served where
  engine : Engine
  /-- The replies so far. -/
  outgoing : Buffer
  /-- The bytes after the last request that was run. -/
  rest : Bytes
  /-- Whether the bytes after it are no request. -/
  malformed : Bool

/-- Runs one request and appends its reply as a frame. -/
def answer (engine : Engine) (limits : Limits) (now : Nat) (args : List Bytes) (out : Buffer) :
    Except Fault (Buffer × Engine) := do
  let out ← out.openFrame
  let (out, engine) ← engine.execute args now out
  return (← out.closeFrame limits.maxMessageSize, engine)

/-- Runs the complete requests at the front of `data`, up to the first malformed one. -/
def serve (engine : Engine) (limits : Limits) (now : Nat) (out : Buffer) (data : Bytes) :
    Except Fault Served :=
  match h : Frame.cut? data limits.maxMessageSize with
  | .error _ => .ok ⟨engine, out, data, true⟩
  | .ok none => .ok ⟨engine, out, data, false⟩
  | .ok (some (body, rest)) =>
    have := Frame.length_lt_of_cut? h
    match Request.parse body limits.maxArgs with
    | .error _ => .ok ⟨engine, out, data, true⟩
    | .ok args =>
      match answer engine limits now args out with
      | .error fault => .error fault
      | .ok (out, engine) => serve engine limits now out rest
termination_by data.length

/-- Takes what a read of the socket yields, runs the complete requests and starts to send
the replies; returns the bytes sent. -/
def onRead (c : Connection) (engine : Engine) (limits : Limits) (now : Nat)
    (got : ReadResult) (socket : WriteResult) : Except Fault (Bytes × Connection × Engine) := do
  let incoming ← c.incoming.reserve readChunk
  match got with
  | .finished | .broken => return ([], { c with incoming, wantsClose := true }, engine)
  | .wouldBlock => return ([], { c with incoming }, engine)
  | .bytes data =>
    let incoming ← (incoming.fillTail data).commit data.length
    let c := { c with lastActive := now }
    let (c, incoming, engine) ←
      if c.wantsClose then
        pure (c, incoming, engine)
      else do
        let waiting ← incoming.unread
        let served ← serve engine limits now c.outgoing waiting
        let incoming ← incoming.consume (waiting.length - served.rest.length)
        pure ({ c with outgoing := served.outgoing, wantsClose := served.malformed },
          incoming, served.engine)
    let c := { c with incoming := ← incoming.shrink shrinkFloor }
    if c.outgoing.isEmpty then
      return ([], c, engine)
    else
      let (sent, c) ← { c with wantsRead := false, wantsWrite := true }.onWrite now socket
      return (sent, c, engine)

/-- How many bytes the next read of the socket has room for. -/
def readRoom (c : Connection) : Except Fault Nat := do
  (← c.incoming.reserve readChunk).writableLength

end Connection

end KeyServer
