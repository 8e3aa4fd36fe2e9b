import KeyServer.Server

/-!
# Clients in front of a server

A server together with its clients and the bytes under way between them, in one value.
Every client action is followed by one round of the event loop.  Nothing is lost or
delayed on the way, and a socket takes whatever is written to it.

The clock stands still except where a client waits for the server to close it.
-/

namespace KeyServer

/-- The client's side of a connection. -/
structure Peer where
  /-- The number the client goes by. -/
  client : Nat
  /-- The server's descriptor of the connection. -/
  descriptor : Nat
  /-- What the client sent and the server has not read. -/
  outbound : Bytes
  /-- What the server sent and the client has not read. -/
  inbound : Bytes
  /-- Whether the client will send no more. -/
  finished : Bool
  /-- Whether the server closed the connection. -/
  closed : Bool

namespace Peer

/-- What a read of the server's side yields, with room for some bytes, and the peer
after it. -/
def read (p : Peer) (room : Nat) : ReadResult × Peer :=
  if !p.outbound.isEmpty then
    (.bytes (p.outbound.take room), { p with outbound := p.outbound.drop room })
  else if p.finished then (.finished, p)
  else (.wouldBlock, p)

/-- Reads at most `count` responses off what a client received.  The last part tells
whether the connection ended before there were as many. -/
def take (p : Peer) : (count : Nat) → List (Except Error Response) × Bool × Peer
  | 0 => ([], false, p)
  | count + 1 =>
    match Frame.readResponse p.inbound Frame.maxMessageSize with
    | (.error .endOfStream, _) => ([], p.closed, p)
    | (response, rest) =>
      let (more, ended, p) := ({ p with inbound := rest } : Peer).take count
      (response :: more, ended, p)

end Peer

/-- A server with its clients. -/
structure Loopback where
  server : Server
  /-- The clients that connected and did not leave. -/
  peers : List Peer
  now : Nat

namespace Loopback

/-- A server without clients. -/
def ofServer (server : Server) : Loopback := ⟨server, [], 0⟩

/-- The lowest descriptor that is not in use. -/
def freeDescriptor (s : Server) : Nat :=
  (s.connections.findIdx? Option.isNone).getD s.connections.size

/-- The peer of a client. -/
def peer? (l : Loopback) (client : Nat) : Option Peer := l.peers.find? (·.client == client)

/-- Replaces the peer of a client. -/
def setPeer (l : Loopback) (p : Peer) : Loopback :=
  { l with peers := l.peers.map fun q => if q.client == p.client then p else q }

/-- Lets the server handle one peer, if there is something to handle. -/
def handlePeer (server : Server) (p : Peer) (now : Nat) : Except Fault (Peer × Server) :=
  match server.connection? p.descriptor with
  | none => .ok (p, server)
  | some c =>
    if p.closed || (p.outbound.isEmpty && !p.finished) then .ok (p, server)
    else do
      let (got, p) := p.read (← c.readRoom)
      let (sent, server) ← server.handleReady p.descriptor { readable := true } got .all now
      let closed := (server.connection? p.descriptor).isNone
      return ({ p with inbound := p.inbound ++ sent, closed }, server)

/-- Lets the server handle some peers in turn. -/
def handlePeers (now : Nat) : List Peer → Server → Except Fault (List Peer × Server)
  | [], server => .ok ([], server)
  | p :: ps, server => do
    let (p, server) ← handlePeer server p now
    let (ps, server) ← handlePeers now ps server
    return (p :: ps, server)

/-- One round of the event loop at a given time. -/
def poll (l : Loopback) : Except Fault Loopback := do
  let (peers, server) ← handlePeers l.now l.peers l.server
  let server ← server.processTimers l.now
  let peers := peers.map fun p =>
    { p with closed := p.closed || (server.connection? p.descriptor).isNone }
  return { l with server, peers }

/-- Connects a client; tells whether it was accepted. -/
def connect (l : Loopback) (client : Nat) : Except Fault (Bool × Loopback) := do
  let descriptor := freeDescriptor l.server
  let (accepted, server) := l.server.accept descriptor l.now
  let others := l.peers.filter (·.client != client)
  let peers := if accepted then others ++ [⟨client, descriptor, [], [], false, false⟩] else others
  return (accepted, ← poll { l with server, peers })

/-- Polls until the server has read what a client sent, at most `steps` times. -/
def pollUntilRead (client : Nat) : (steps : Nat) → Loopback → Except Fault Loopback
  | 0, l => .ok l
  | steps + 1, l => do
    let l ← l.poll
    match l.peer? client with
    | some p => if p.outbound.isEmpty || p.closed then return l else pollUntilRead client steps l
    | none => return l

/-- Sends bytes for a client and reads `expect` responses.  The second part tells whether
the connection is closed and some of them will not come. -/
def send (l : Loopback) (client : Nat) (data : Bytes) (expect : Nat) :
    Except Fault (List (Except Error Response) × Bool × Loopback) := do
  match l.peer? client with
  | none => return ([], true, ← l.poll)
  | some p =>
    if p.closed then return ([], true, ← l.poll)
    else do
      let l := l.setPeer { p with outbound := p.outbound ++ data }
      let l ← pollUntilRead client (data.length + 1) l
      match l.peer? client with
      | none => return ([], true, l)
      | some p =>
        let (responses, ended, p) := p.take expect
        return (responses, ended, l.setPeer p)

/-- Lets a client leave. -/
def leave (l : Loopback) (client : Nat) : Except Fault Loopback := do
  match l.peer? client with
  | none => l.poll
  | some p =>
    let l ← (l.setPeer { p with finished := true }).poll
    return { l with peers := l.peers.filter (·.client != client) }

/-- Lets time pass until the server has closed every connection for idleness; returns the
clients that were connected. -/
def idleOut (l : Loopback) : Except Fault (List Nat × Loopback) := do
  let l' ← poll { l with now := l.now + l.server.config.idleTimeout }
  let closed := l'.peers.filter fun p => p.closed && (l.peer? p.client).any (!·.closed)
  return (closed.map (·.client), l')

end Loopback

end KeyServer
