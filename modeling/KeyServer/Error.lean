/-!
# Errors

What can go wrong between a client and a server, as causes.  The words for each cause are
in one function per type: `Malformed.message`, `ConfigFault.message`, `Error.message`.

A command that cannot run is no such error: its cause (`CommandError`) goes to the client
as a value of the reply.
-/

namespace KeyServer

/-- The codes that error values carry. -/
inductive ErrorCode where
  /-- No such command, or not with this number of arguments. -/
  | unknown
  /-- The reply is longer than a message may be. -/
  | tooBig
  /-- The key holds a value of the other kind. -/
  | wrongType
  /-- An argument is no numeral. -/
  | argument
  deriving DecidableEq, Repr

namespace ErrorCode

/-- The number sent for a code. -/
def number : ErrorCode → Nat
  | unknown => 1
  | tooBig => 2
  | wrongType => 3
  | argument => 4

/-- The code with a given number. -/
def ofNumber? : Nat → Option ErrorCode
  | 1 => some unknown
  | 2 => some tooBig
  | 3 => some wrongType
  | 4 => some argument
  | _ => none

theorem ofNumber?_eq_some_iff {n : Nat} {c : ErrorCode} :
    ofNumber? n = some c ↔ n = c.number := by
  constructor
  · intro h
    unfold ofNumber? at h
    split at h <;> cases h <;> rfl
  · rintro rfl
    cases c <;> rfl

/-- The name of a code. -/
def name : ErrorCode → String
  | unknown => "Unknown"
  | tooBig => "TooBig"
  | wrongType => "Type"
  | argument => "Arg"

end ErrorCode

/-- The parts of a response in which its bytes can end too early. -/
inductive Part where
  | tag
  | errorCode
  | errorMessage
  | string
  | int
  | double
  | arrayLength
  deriving DecidableEq, Repr

/-- The name of a part. -/
def Part.name : Part → String
  | tag => "tag"
  | errorCode => "error code"
  | errorMessage => "error message"
  | string => "string"
  | int => "int"
  | double => "double"
  | arrayLength => "array length"

/-- Why a body is no request or no response. -/
inductive Malformed where
  /-- A request ends before its argument count. -/
  | missingCount
  /-- A request ends before the length of an argument. -/
  | missingLength (argument : Nat)
  /-- A request ends inside an argument. -/
  | truncatedArgument (argument expected got : Nat)
  /-- Bytes follow the last argument of a request. -/
  | requestTrailing (bytes : Nat)
  /-- A response ends inside one of its parts. -/
  | truncated (part : Part) (expected got : Nat)
  /-- A response has a tag that is none. -/
  | unknownTag (byte : UInt8)
  /-- The arrays of a response are nested too deep. -/
  | nestedTooDeep
  /-- Bytes follow the value of a response. -/
  | responseTrailing (bytes : Nat)
  /-- A violation given in words. -/
  | described (text : String)
  deriving DecidableEq, Repr

namespace Malformed

/-- A byte in two hexadecimal digits. -/
def hexByte (b : UInt8) : String :=
  String.ofList [Nat.digitChar (b.toNat / 16), Nat.digitChar (b.toNat % 16)]

/-- The words for a malformed body. -/
def message : Malformed → String
  | missingCount => "request: missing argument count"
  | missingLength argument => s!"request: missing length of argument {argument}"
  | truncatedArgument argument expected got =>
    s!"request: argument {argument} truncated (expected {expected}, got {got})"
  | requestTrailing bytes => s!"request: {bytes} trailing bytes"
  | truncated part expected got =>
    s!"response: truncated {part.name} (expected {expected} bytes, got {got})"
  | unknownTag byte => s!"response: unknown tag 0x{hexByte byte}"
  | nestedTooDeep => "response: arrays nested too deep"
  | responseTrailing bytes => s!"response: {bytes} trailing bytes"
  | described text => text

end Malformed

/-- Why a server cannot run with a configuration. -/
inductive ConfigFault where
  /-- A field has a value that makes no sense. -/
  | outOfRange (field : String)
  /-- The length of a message would not fit into the header of its frame. -/
  | frameTooLong
  /-- A reason given in words. -/
  | described (text : String)
  deriving DecidableEq, Repr

/-- The words for a bad configuration. -/
def ConfigFault.message : ConfigFault → String
  | outOfRange field => s!"{field} is out of range"
  | frameTooLong => "max_message_size must fit in a u32 length prefix"
  | described text => text

/-- What can go wrong between a client and a server. -/
inductive Error where
  /-- The stream ended inside a message. -/
  | endOfStream
  /-- A body is malformed. -/
  | protocol (cause : Malformed)
  /-- A message is longer than allowed. -/
  | messageTooLarge (size max : Nat)
  /-- A request has more arguments than allowed. -/
  | tooManyArgs (count max : Nat)
  /-- The network failed. -/
  | network (text : String)
  /-- The server answered with an error. -/
  | server (code : ErrorCode) (text : String)
  /-- The configuration is bad. -/
  | config (cause : ConfigFault)
  deriving DecidableEq, Repr

/-- The words for an error. -/
def Error.message : Error → String
  | endOfStream => "IO error: failed to fill whole buffer"
  | protocol cause => s!"Protocol error: {cause.message}"
  | messageTooLarge size max => s!"Message too large: {size} bytes (max {max})"
  | tooManyArgs count max => s!"Too many arguments: {count} (max {max})"
  | network text => s!"Network error: {text}"
  | server code text => s!"Server error ({code.name}): {text}"
  | config cause => s!"Configuration error: {cause.message}"

/-- Why a command cannot run. -/
inductive CommandError where
  /-- No command has this name and this number of arguments. -/
  | unknownCommand
  /-- An argument is not the numeral of a number. -/
  | expectFloat
  /-- An argument is not the numeral of a 64-bit integer. -/
  | expectInt
  /-- The key holds a sorted set and not a string. -/
  | notString
  /-- The key holds a string and not a sorted set. -/
  | notSortedSet
  deriving DecidableEq, Repr

namespace CommandError

/-- The code a failed command is answered with. -/
def code : CommandError → ErrorCode
  | unknownCommand => .unknown
  | expectFloat | expectInt => .argument
  | notString | notSortedSet => .wrongType

/-- The message a failed command is answered with. -/
def message : CommandError → String
  | unknownCommand => "unknown command"
  | expectFloat => "expect float"
  | expectInt => "expect int"
  | notString => "not a string value"
  | notSortedSet => "expect zset"

end CommandError

end KeyServer
