import KeyServer.Response

/-!
# Reading responses

`Response.decodeValue room b` reads one value off the front of `b`, whose arrays may be
nested at most `room` deep, and returns it with the bytes after it.  No byte beyond the
given ones is looked at, and a body must hold exactly one value (`Response.decode`).
-/

namespace KeyServer.Response

/-- How deep arrays may be nested. -/
def maxNesting : Nat := 64

/-- Takes `n` bytes that belong to a part. -/
def take (part : Part) (n : Nat) (b : Bytes) : Except Malformed (Bytes × Bytes) :=
  match Bytes.split? n b with
  | some cut => .ok cut
  | none => .error (.truncated part n b.length)

/-- Takes a number of `n` bytes. -/
def takeNumber (part : Part) (n : Nat) (b : Bytes) : Except Malformed (Nat × Bytes) := do
  let (number, b) ← take part n b
  return (Bytes.value number, b)

/-- Takes a length and the bytes it counts. -/
def takeSized (part : Part) (b : Bytes) : Except Malformed (Bytes × Bytes) := do
  let (length, b) ← takeNumber part 4 b
  take part length b

/-- Takes the tag of a value. -/
def takeTag : Bytes → Except Malformed (Tag × Bytes)
  | [] => .error (.truncated .tag 1 0)
  | byte :: b =>
    match Tag.ofByte? byte with
    | some tag => .ok (tag, b)
    | none => .error (.unknownTag byte)

/-- Reads `count` values with `item`; `done` holds the ones before, last first. -/
def decodeItems (item : Bytes → Except Malformed (Response × Bytes)) :
    (count : Nat) → (done : List Response) → Bytes → Except Malformed (List Response × Bytes)
  | 0, done, b => .ok (done.reverse, b)
  | count + 1, done, b =>
    match item b with
    | .error e => .error e
    | .ok (value, b) => decodeItems item count (value :: done) b

/-- Reads a value with arrays nested at most `room` deep, and returns what follows it. -/
def decodeValue (room : Nat) (b : Bytes) : Except Malformed (Response × Bytes) := do
  let (tag, b) ← takeTag b
  match tag with
  | .nil => return (.nil, b)
  | .err =>
    let (code, b) ← takeNumber .errorCode 4 b
    let (message, b) ← takeSized .errorMessage b
    return (.err (UInt32.ofNat code) (Utf8.decodeLossy message), b)
  | .str =>
    let (data, b) ← takeSized .string b
    return (.str data, b)
  | .int =>
    let (value, b) ← takeNumber .int 8 b
    return (.int (UInt64.ofNat value).toInt64, b)
  | .dbl =>
    let (value, b) ← takeNumber .double 8 b
    return (.dbl ⟨UInt64.ofNat value⟩, b)
  | .arr =>
    match room with
    | 0 => throw .nestedTooDeep
    | room + 1 =>
      let (count, b) ← takeNumber .arrayLength 4 b
      let (items, b) ← decodeItems (decodeValue room) count [] b
      return (.arr items, b)

/-- Reads a body, which holds exactly one value. -/
def decode (body : Bytes) : Except Malformed Response := do
  let (value, rest) ← decodeValue maxNesting body
  if rest.isEmpty then
    return value
  else
    throw (.responseTrailing rest.length)

end KeyServer.Response
