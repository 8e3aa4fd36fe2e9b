/-!
# Waiting for sockets

What a socket turns out to be ready for, and how long a wait is in the milliseconds of the
system call.
-/

namespace KeyServer

/-- What a socket is ready for. -/
structure Readiness where
  readable : Bool := false
  writable : Bool := false
  /-- The peer has gone; there may still be something to read. -/
  hangup : Bool := false
  error : Bool := false
  deriving DecidableEq, Repr

namespace Poll

/-- The greatest timeout of the system call. -/
def maxTimeout : Nat := 0x7FFFFFFF

/-- The timeout for a wait of some nanoseconds, in milliseconds and rounded up, so that a
short wait is not none at all; without a limit it is `-1`. -/
def timeoutMillis : Option Nat → Int
  | none => -1
  | some nanos => min ((nanos + 999999) / 1000000) maxTimeout

end Poll

end KeyServer
