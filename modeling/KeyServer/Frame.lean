import KeyServer.Response.Decoder
import KeyServer.Response.Writer

/-!
# Frames

Every message is a frame: the length of its body in four little-endian bytes, and the
body.  A receiver names the longest body it accepts.  A longer one cannot be skipped, so
it ends the conversation.
-/

namespace KeyServer

namespace Frame

/-- The length of a header. -/
def headerSize : Nat := 4

/-- The longest body unless a configuration says otherwise: 32 MiB. -/
def maxMessageSize : Nat := 32 * 1024 * 1024

/-- A body with its header. -/
def encode (body : Bytes) : Bytes := Bytes.sized body

/-- Cuts a complete frame off the front: its body and what follows it.  Nothing is cut
while bytes are missing. -/
def cut? (data : Bytes) (max : Nat) : Except Error (Option (Bytes × Bytes)) :=
  match Bytes.split? headerSize data with
  | none => .ok none
  | some (header, rest) =>
    let length := Bytes.value header
    if max < length then .error (.messageTooLarge length max)
    else .ok (Bytes.split? length rest)

/-- What is cut off is a header, a body of the length it gives, and the rest. -/
theorem length_of_cut? {data body rest : Bytes} {max : Nat}
    (h : cut? data max = .ok (some (body, rest))) :
    data.length = headerSize + body.length + rest.length := by
  unfold cut? at h
  split at h
  · cases h
  · next header after hs =>
    dsimp only at h
    split at h
    · cases h
    · obtain ⟨rfl, hlen⟩ := Bytes.split?_eq_some_iff.mp hs
      obtain ⟨rfl, _⟩ := Bytes.split?_eq_some_iff.mp (Except.ok.inj h)
      simp only [List.length_append]
      omega

/-- After a frame there is less data. -/
theorem length_lt_of_cut? {data body rest : Bytes} {max : Nat}
    (h : cut? data max = .ok (some (body, rest))) : rest.length < data.length := by
  have := length_of_cut? h
  simp only [headerSize] at this
  omega

/-- The length of the body of a complete frame at the front. -/
def bodyLength? (data : Bytes) (max : Nat) : Except Error (Option Nat) := do
  let cut ← cut? data max
  return cut.map fun (body, _) => body.length

/-- Reads the next response off a stream that is given whole, and returns the rest of the
stream.  A stream that ends inside the frame is used up. -/
def readResponse (stream : Bytes) (max : Nat) : Except Error Response × Bytes :=
  match Bytes.split? headerSize stream with
  | none => (.error .endOfStream, [])
  | some (header, rest) =>
    let length := Bytes.value header
    if max < length then (.error (.messageTooLarge length max), rest)
    else match Bytes.split? length rest with
      | none => (.error .endOfStream, [])
      | some (body, rest) => ((Response.decode body).mapError .protocol, rest)

/-- Reads responses off a stream until that fails, at most `tries` of them. -/
def readResponsesWithin (max : Nat) : (tries : Nat) → Bytes → List Response × Error
  | 0, _ => ([], .endOfStream)
  | tries + 1, stream =>
    match readResponse stream max with
    | (.error e, _) => ([], e)
    | (.ok value, rest) =>
      let (values, e) := readResponsesWithin max tries rest
      (value :: values, e)

/-- Reads responses off a stream until that fails, and tells why it did.  Every response
takes at least a header, so the length of the stream bounds their number. -/
def readResponses (stream : Bytes) (max : Nat) : List Response × Error :=
  readResponsesWithin max (stream.length + 1) stream

end Frame

namespace Buffer

/-- Begins a frame, whose length is filled in by `closeFrame`. -/
def openFrame (q : Buffer) : Except Fault Buffer := q.pushSlot

/-- Fills in the length of the innermost frame left open.  A body of more than `max`
bytes gives way to an error value. -/
def closeFrame (q : Buffer) (max : Nat) : Except Fault Buffer := do
  let length ← q.slotBodyLength
  if max < length then
    let q ← q.truncateToSlot
    let q ← q.writeError .tooBig "response is too big"
    q.popSlot (← q.slotBodyLength)
  else
    q.popSlot length

/-- Appends the frame of a value. -/
def writeResponse (q : Buffer) (value : Response) (max : Nat) : Except Fault Buffer := do
  let q ← q.openFrame
  let q ← q.writeValue value
  q.closeFrame max

end Buffer

end KeyServer
