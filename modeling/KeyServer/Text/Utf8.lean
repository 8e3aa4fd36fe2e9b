import KeyServer.Bytes

/-!
# UTF-8

Text is written as UTF-8 (`Utf8.encode`).  Bytes are read as text without ever failing
(`Utf8.decodeLossy`): the reader goes on byte by byte and remembers the character it is
in the middle of.  A byte that cannot go on ends that character, which then counts as one
replacement character, and is read again as a first byte.  So every longest beginning of
a character that does not go on becomes one replacement character.
-/

namespace KeyServer.Utf8

/-- The UTF-8 bytes of a text. -/
def encode (text : String) : Bytes := text.toList.flatMap String.utf8EncodeChar

/-- What stands for bytes that are no character. -/
def replacement : Char := '\uFFFD'

/-- A character of which at least the first byte has been read. -/
structure Partial where
  /-- The value of the bits read so far. -/
  value : Nat
  /-- How many bytes follow after the next one. -/
  more : Nat
  /-- The least byte that may come next. -/
  low : UInt8
  /-- The greatest byte that may come next. -/
  high : UInt8

/-- Reads a first byte: a finished character, or the state in the middle of one. -/
def first (b : UInt8) : List Char × Option Partial :=
  if b < 0x80 then ([Char.ofNat b.toNat], none)
  else if 0xC2 ≤ b ∧ b ≤ 0xDF then ([], some ⟨b.toNat - 0xC0, 0, 0x80, 0xBF⟩)
  else if b = 0xE0 then ([], some ⟨0, 1, 0xA0, 0xBF⟩)
  else if b = 0xED then ([], some ⟨0xD, 1, 0x80, 0x9F⟩)
  else if 0xE1 ≤ b ∧ b ≤ 0xEF then ([], some ⟨b.toNat - 0xE0, 1, 0x80, 0xBF⟩)
  else if b = 0xF0 then ([], some ⟨0, 2, 0x90, 0xBF⟩)
  else if 0xF1 ≤ b ∧ b ≤ 0xF3 then ([], some ⟨b.toNat - 0xF0, 2, 0x80, 0xBF⟩)
  else if b = 0xF4 then ([], some ⟨4, 2, 0x80, 0x8F⟩)
  else ([replacement], none)

/-- Reads one byte: the characters it finishes and the state after it. -/
def step : Option Partial → UInt8 → List Char × Option Partial
  | none, b => first b
  | some p, b =>
    if p.low ≤ b ∧ b ≤ p.high then
      let value := p.value * 64 + (b.toNat - 0x80)
      match p.more with
      | 0 => ([Char.ofNat value], none)
      | more + 1 => ([], some ⟨value, more, 0x80, 0xBF⟩)
    else
      let (chars, next) := first b
      (replacement :: chars, next)

/-- Reads on from a state; `done` holds the characters before, last first. -/
def decodeFrom (done : List Char) (state : Option Partial) : Bytes → List Char
  | [] => (if state.isSome then replacement :: done else done).reverse
  | b :: bs =>
    let (chars, next) := step state b
    decodeFrom (chars.reverse ++ done) next bs

/-- The text of a byte string, with a replacement character for each part that is none. -/
def decodeLossy (b : Bytes) : String := String.ofList (decodeFrom [] none b)

end KeyServer.Utf8
