import KeyServer.Frame

/-!
# Requests

The body of a request is the number of its arguments and the arguments, each after its
length; all numbers take four little-endian bytes.  `Request.encode` writes a frame,
`Request.parse` reads a body; bytes that are missing or left over are errors.
-/

namespace KeyServer.Request

/-- The most arguments unless a configuration says otherwise. -/
def maxArgs : Nat := 200000

/-- The body of a request. -/
def body (args : List Bytes) : Bytes :=
  Bytes.littleEndian 4 args.length ++ args.flatMap Bytes.sized

/-- The frame of a request, whose body is at most `max` bytes long. -/
def encode (args : List Bytes) (max : Nat) : Except Error Bytes :=
  let b := body args
  if max < b.length then .error (.messageTooLarge b.length max) else .ok (Frame.encode b)

/-- Reads `count` arguments; `done` holds the ones before, last first. -/
def parseArgs : (count : Nat) → (done : List Bytes) → Bytes →
    Except Malformed (List Bytes × Bytes)
  | 0, done, b => .ok (done.reverse, b)
  | count + 1, done, b =>
    match Bytes.split? 4 b with
    | none => .error (.missingLength done.length)
    | some (length, b) =>
      let n := Bytes.value length
      match Bytes.split? n b with
      | none => .error (.truncatedArgument done.length n b.length)
      | some (arg, b) => parseArgs count (arg :: done) b

/-- Reads the body of a request with at most `max` arguments. -/
def parse (body : Bytes) (max : Nat) : Except Error (List Bytes) :=
  match Bytes.split? 4 body with
  | none => .error (.protocol .missingCount)
  | some (countBytes, b) =>
    let count := Bytes.value countBytes
    if max < count then .error (.tooManyArgs count max)
    else match parseArgs count [] b with
      | .error e => .error (.protocol e)
      | .ok (args, []) => .ok args
      | .ok (_, rest) => .error (.protocol (.requestTrailing rest.length))

end KeyServer.Request
