import KeyServer.Double.Shortest
import KeyServer.Error
import KeyServer.Text.Utf8

/-!
# Responses

The values a server answers with, and their text for people.  On the wire every value
starts with the byte of its `Tag`; see `KeyServer.Response.Writer` and
`KeyServer.Response.Decoder`.
-/

namespace KeyServer

/-- The kinds of response values. -/
inductive Tag where
  | nil
  | err
  | str
  | int
  | dbl
  | arr
  deriving DecidableEq, Repr

namespace Tag

/-- The byte that marks a kind. -/
def byte : Tag → UInt8
  | nil => 0
  | err => 1
  | str => 2
  | int => 3
  | dbl => 4
  | arr => 5

/-- The kind that a byte marks. -/
def ofByte? : UInt8 → Option Tag
  | 0 => some nil
  | 1 => some err
  | 2 => some str
  | 3 => some int
  | 4 => some dbl
  | 5 => some arr
  | _ => none

@[simp] theorem ofByte?_byte (t : Tag) : ofByte? t.byte = some t := by
  cases t <;> rfl

theorem ofByte?_eq_some_iff {b : UInt8} {t : Tag} : ofByte? b = some t ↔ b = t.byte := by
  constructor
  · intro h
    unfold ofByte? at h
    split at h <;> cases h <;> rfl
  · rintro rfl
    exact ofByte?_byte t

/-- The name of a kind. -/
def name : Tag → String
  | nil => "Nil"
  | err => "Err"
  | str => "Str"
  | int => "Int"
  | dbl => "Dbl"
  | arr => "Arr"

end Tag

/-- A response value. -/
inductive Response where
  /-- Nothing. -/
  | nil
  /-- An error with its code, which need not be a known one. -/
  | err (code : UInt32) (message : String)
  /-- A byte string. -/
  | str (data : Bytes)
  /-- A signed 64-bit integer. -/
  | int (value : Int64)
  /-- A double. -/
  | dbl (value : Double)
  /-- Any number of values. -/
  | arr (items : List Response)
  deriving Inhabited

namespace Response

/-- The error value of a known code. -/
def error (code : ErrorCode) (message : String) : Response :=
  .err (UInt32.ofNat code.number) message

/-- Whether the value itself is an error. -/
def isError : Response → Bool
  | err _ _ => true
  | _ => false

mutual

/-- The text of a value; an array has its values on lines of their own. -/
def text : Response → String
  | nil => "(nil)"
  | err code message => s!"(err) {code.toNat} {message}"
  | str data => s!"(str) {Utf8.decodeLossy data}"
  | int value => s!"(int) {value.toInt}"
  | dbl value => s!"(dbl) {value.text}"
  | arr items => s!"(arr) len={items.length}\n" ++ lines items ++ "(arr) end"

/-- The texts of some values, each ended by a line break. -/
def lines : List Response → String
  | [] => ""
  | item :: rest => text item ++ "\n" ++ lines rest

end

end Response

end KeyServer
