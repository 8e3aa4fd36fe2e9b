import KeyServer.Request

/-!
# Configuration

What a server can be told, with defaults.  `Config.validate` names the first field with a
value that no server can run with.
-/

namespace KeyServer

/-- The settings of a server.  Times are in milliseconds. -/
structure Config where
  /-- Where to listen. -/
  listenAddress : String := "127.0.0.1:1234"
  /-- The most connections at a time. -/
  maxConnections : Nat := 1024
  /-- A connection without successful read or write for this long is closed. -/
  idleTimeout : Nat := 5000
  /-- The longest wait of the event loop, so that it notices a shutdown. -/
  maxPollWait : Nat := 1000
  /-- The longest body of a request or response. -/
  maxMessageSize : Nat := Frame.maxMessageSize
  /-- The most arguments of a request. -/
  maxArgs : Nat := Request.maxArgs
  /-- The number of background workers. -/
  workerThreads : Nat := 4
  /-- Sorted sets with more members than this are freed by the workers. -/
  largeSetThreshold : Nat := 1000
  /-- The most keys that one sweep removes. -/
  maxExpirationsPerSweep : Nat := 2000
  deriving DecidableEq, Repr

namespace Config

/-- The fields that have a least value, with it. -/
def lowerBounds (c : Config) : List (String × Nat × Nat) :=
  [("max_connections", c.maxConnections, 1), ("idle_timeout_ms", c.idleTimeout, 1),
    ("max_poll_wait_ms", c.maxPollWait, 1), ("max_message_size", c.maxMessageSize, 4),
    ("max_args", c.maxArgs, 1), ("max_expirations_per_tick", c.maxExpirationsPerSweep, 1)]

/-- Refuses what a server cannot run with. -/
def validate (c : Config) : Except Error Unit :=
  match c.lowerBounds.find? fun (_, value, least) => value < least with
  | some (field, _, _) => .error (.config (.outOfRange field))
  | none =>
    if 0x100000000 ≤ c.maxMessageSize then .error (.config .frameTooLong) else .ok ()

end Config

/-- The version of this program. -/
def version : String := "0.1.0"

end KeyServer
