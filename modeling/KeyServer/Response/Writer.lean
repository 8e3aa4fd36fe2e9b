import KeyServer.Buffer
import KeyServer.Response

/-!
# Writing responses

A value is its tag byte and a payload that depends on the tag:

| tag | payload |
|-----|---------|
| nil | nothing |
| err | code (4), length (4), message |
| str | length (4), bytes |
| int | 8 bytes |
| dbl | 8 bytes |
| arr | count (4), the values |

All numbers are little-endian.  `Response.encode` is the encoding as a byte string.  The
functions of `Buffer` append it piece by piece; the count of an array may be given at
once (`writeArray`) or filled in after the values (`openArray`, `closeArray`).
-/

namespace KeyServer

/-- A length and the bytes it counts. -/
def Bytes.sized (data : Bytes) : Bytes := Bytes.littleEndian 4 data.length ++ data

namespace Response

mutual

/-- The encoding of a value. -/
def encode : Response → Bytes
  | nil => [Tag.nil.byte]
  | err code message =>
    Tag.err.byte :: Bytes.littleEndian 4 code.toNat ++ Bytes.sized (Utf8.encode message)
  | str data => Tag.str.byte :: Bytes.sized data
  | int value => Tag.int.byte :: Bytes.littleEndian 8 value.toUInt64.toNat
  | dbl value => Tag.dbl.byte :: Bytes.littleEndian 8 value.bits.toNat
  | arr items => Tag.arr.byte :: Bytes.littleEndian 4 items.length ++ encodeAll items

/-- The encodings of some values, one after the other. -/
def encodeAll : List Response → Bytes
  | [] => []
  | item :: rest => encode item ++ encodeAll rest

end

end Response

namespace Buffer

/-- Appends the byte of a tag. -/
def writeTag (q : Buffer) (tag : Tag) : Except Fault Buffer := q.putByte tag.byte

/-- Appends a length and the bytes it counts. -/
def writeSized (q : Buffer) (data : Bytes) : Except Fault Buffer := do
  let q ← q.putWord32 data.length
  q.append data

/-- Appends nothing as a value. -/
def writeNil (q : Buffer) : Except Fault Buffer := q.writeTag .nil

/-- Appends an error value with any code. -/
def writeErrorNumber (q : Buffer) (code : Nat) (message : String) : Except Fault Buffer := do
  let q ← q.writeTag .err
  let q ← q.putWord32 code
  q.writeSized (Utf8.encode message)

/-- Appends the error value of a known code. -/
def writeError (q : Buffer) (code : ErrorCode) (message : String) : Except Fault Buffer :=
  q.writeErrorNumber code.number message

/-- Appends a byte string as a value. -/
def writeStr (q : Buffer) (data : Bytes) : Except Fault Buffer := do
  let q ← q.writeTag .str
  q.writeSized data

/-- Appends an integer as a value. -/
def writeInt (q : Buffer) (value : Int64) : Except Fault Buffer := do
  let q ← q.writeTag .int
  q.putWord64 value.toUInt64.toNat

/-- Appends a double as a value. -/
def writeDouble (q : Buffer) (value : Double) : Except Fault Buffer := do
  let q ← q.writeTag .dbl
  q.putWord64 value.bits.toNat

/-- Begins an array of `count` values, which are to follow. -/
def writeArray (q : Buffer) (count : Nat) : Except Fault Buffer := do
  let q ← q.writeTag .arr
  q.putWord32 count

/-- Begins an array whose count is filled in by `closeArray`. -/
def openArray (q : Buffer) : Except Fault Buffer := do
  let q ← q.writeTag .arr
  q.pushSlot

/-- Fills in the count of the innermost array left open. -/
def closeArray (q : Buffer) (count : Nat) : Except Fault Buffer := q.popSlot count

mutual

/-- Appends a value. -/
def writeValue (q : Buffer) : Response → Except Fault Buffer
  | .nil => q.writeNil
  | .err code message => q.writeErrorNumber code.toNat message
  | .str data => q.writeStr data
  | .int value => q.writeInt value
  | .dbl value => q.writeDouble value
  | .arr items => do
    let q ← q.writeArray items.length
    writeValues q items

/-- Appends some values, one after the other. -/
def writeValues (q : Buffer) : List Response → Except Fault Buffer
  | [] => .ok q
  | item :: rest => do
    let q ← writeValue q item
    writeValues q rest

end

end Buffer

end KeyServer
