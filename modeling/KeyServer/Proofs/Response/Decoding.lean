import KeyServer.Proofs.Bytes
import KeyServer.Proofs.Text.Utf8
import KeyServer.Response.Decoder
import KeyServer.Response.Writer

/-! # Decoding undoes encoding

`Spells b v messages` says that the bytes `b` are a value on the wire, whatever bytes stand for
the messages of its errors.  The encoding of a value spells it, if its lengths and counts fit
into 32 bits (`Sized`).

* **`Spells.decodeValue`**: what spells a value is read as this value, whatever follows it, and
  is refused if its arrays are nested too deep.
* **`decode_encode`**: so a body holds the value that it was encoded from.

A short encoding is the encoding of a sized value (`sized_of_length`).
-/

namespace KeyServer.Response

mutual

/-- Whether all lengths and counts in a value fit into 32 bits. -/
def Sized : Response → Prop
  | nil | int _ | dbl _ => True
  | err _ message => (Utf8.encode message).length < 0x100000000
  | str data => data.length < 0x100000000
  | arr items => items.length < 0x100000000 ∧ AllSized items

/-- Whether this is so for all of some values. -/
def AllSized : List Response → Prop
  | [] => True
  | item :: rest => item.Sized ∧ AllSized rest

end

mutual

/-- How deep arrays are nested. -/
def depth : Response → Nat
  | arr items => depths items + 1
  | _ => 0

/-- How deep they are nested in some values. -/
def depths : List Response → Nat
  | [] => 0
  | item :: rest => max item.depth (depths rest)

end

/-! ## Values on the wire

The message of an error is read as text whatever bytes it consists of, so a value is written in
more than one way. -/

mutual

/-- The bytes `b` spell a value, and these are the messages of the errors in it. -/
inductive Spells : (b : Bytes) → (v : Response) → (messages : List Bytes) → Prop where
  | nil : Spells [Tag.nil.byte] .nil []
  | err (code : UInt32) (message : Bytes) (h : message.length < 0x100000000) :
      Spells (Tag.err.byte :: Bytes.littleEndian 4 code.toNat ++ Bytes.sized message)
        (.err code (Utf8.decodeLossy message)) [message]
  | str {data : Bytes} (h : data.length < 0x100000000) :
      Spells (Tag.str.byte :: Bytes.sized data) (.str data) []
  | int (value : Int64) :
      Spells (Tag.int.byte :: Bytes.littleEndian 8 value.toUInt64.toNat) (.int value) []
  | dbl (value : Double) :
      Spells (Tag.dbl.byte :: Bytes.littleEndian 8 value.bits.toNat) (.dbl value) []
  | arr {b : Bytes} {items : List Response} {messages : List Bytes}
      (hcount : items.length < 0x100000000) (hitems : SpellsAll b items messages) :
      Spells (Tag.arr.byte :: Bytes.littleEndian 4 items.length ++ b) (.arr items) messages

/-- The bytes `b` spell some values, one after the other. -/
inductive SpellsAll : (b : Bytes) → (items : List Response) → (messages : List Bytes) → Prop where
  | nil : SpellsAll [] [] []
  | cons {b b' : Bytes} {item : Response} {items : List Response} {messages messages' : List Bytes}
      (hitem : Spells b item messages) (hitems : SpellsAll b' items messages') :
      SpellsAll (b ++ b') (item :: items) (messages ++ messages')

end

/-! ## Parts -/

section Parts

variable (part : Part) {n : Nat} {data : Bytes} (rest : Bytes)

theorem takeNumber_littleEndian {w : Nat} (h : n < 256 ^ w) :
    takeNumber part w (Bytes.littleEndian w n ++ rest) = .ok (n, rest) := by
  rw [takeNumber, take, Bytes.split?_littleEndian]
  simp only [ok_bind, pure_eq_ok, Bytes.value_littleEndian_of_lt h]

theorem takeSized_sized (h : data.length < 0x100000000) :
    takeSized part (Bytes.sized data ++ rest) = .ok (data, rest) := by
  rw [takeSized, Bytes.sized, List.append_assoc, takeNumber_littleEndian part _ (by simpa), ok_bind]
  dsimp only
  rw [take, Bytes.split?_append]

theorem takeTag_byte (tag : Tag) : takeTag (tag.byte :: rest) = .ok (tag, rest) := by
  rw [takeTag, Tag.ofByte?_byte]

end Parts

/-! ## Values -/

mutual

/-- **Reading** what spells a value. -/
theorem Spells.decodeValue : ∀ {b : Bytes} {v : Response} {messages : List Bytes},
    Spells b v messages → ∀ (room : Nat) (rest : Bytes), Response.decodeValue room (b ++ rest)
      = if v.depth ≤ room then .ok (v, rest) else .error .nestedTooDeep
  | _, _, _, .nil, room, rest => by
    rw [Response.decodeValue, List.cons_append, takeTag_byte]
    rfl
  | _, _, _, .err code _ h, room, rest => by
    rw [Response.decodeValue, List.cons_append, List.cons_append, takeTag_byte, ok_bind]
    dsimp only
    rw [List.append_assoc, takeNumber_littleEndian _ _ (UInt32.toNat_lt code), ok_bind]
    dsimp only
    rw [takeSized_sized _ _ h, ok_bind, pure_eq_ok, UInt32.ofNat_toNat]
    rfl
  | _, _, _, .str h, room, rest => by
    rw [Response.decodeValue, List.cons_append, takeTag_byte, ok_bind]
    dsimp only
    rw [takeSized_sized _ _ h]
    rfl
  | _, _, _, .int value, room, rest => by
    rw [Response.decodeValue, List.cons_append, takeTag_byte, ok_bind]
    dsimp only
    rw [takeNumber_littleEndian _ _ (UInt64.toNat_lt _), ok_bind, pure_eq_ok, UInt64.ofNat_toNat]
    rfl
  | _, _, _, .dbl value, room, rest => by
    rw [Response.decodeValue, List.cons_append, takeTag_byte, ok_bind]
    dsimp only
    rw [takeNumber_littleEndian _ _ (UInt64.toNat_lt _), ok_bind, pure_eq_ok, UInt64.ofNat_toNat]
    rfl
  | _, _, _, .arr _ _, 0, rest => by
    rw [Response.decodeValue, List.cons_append, List.cons_append, takeTag_byte, depth]
    rfl
  | _, _, _, .arr hcount hitems, room + 1, rest => by
    rw [Response.decodeValue, List.cons_append, List.cons_append, takeTag_byte, ok_bind]
    dsimp only
    rw [List.append_assoc, takeNumber_littleEndian _ _ (by simpa using hcount), ok_bind]
    dsimp only
    rw [hitems.decodeItems room [] rest, depth]
    simp only [Nat.add_le_add_iff_right]
    split <;> rfl

/-- Reading what spells some values in a row. -/
theorem SpellsAll.decodeItems : ∀ {b : Bytes} {items : List Response} {messages : List Bytes},
    SpellsAll b items messages → ∀ (room : Nat) (done : List Response) (rest : Bytes),
      Response.decodeItems (Response.decodeValue room) items.length done (b ++ rest)
        = if depths items ≤ room then .ok (done.reverse ++ items, rest) else .error .nestedTooDeep
  | _, _, _, .nil, room, done, rest => by simp [Response.decodeItems, depths]
  | _, item :: _, _, .cons hitem hitems, room, done, rest => by
    rw [List.length_cons, Response.decodeItems, List.append_assoc, hitem.decodeValue, depths]
    by_cases hdepth : item.depth ≤ room
    · rw [if_pos hdepth]
      dsimp only
      rw [hitems.decodeItems room _ rest]
      simp only [Nat.max_le, hdepth, true_and, List.reverse_cons, List.append_assoc,
        List.singleton_append]
    · rw [if_neg hdepth, if_neg (by omega)]

end

mutual

/-- The encoding spells a value. -/
theorem spells_encode : ∀ {v : Response}, v.Sized → ∃ messages, Spells v.encode v messages
  | .nil, _ => ⟨_, .nil⟩
  | .err code message, h => by
    rw [Sized] at h
    have hspells := Spells.err code _ h
    rw [Utf8.decodeLossy_encode] at hspells
    exact ⟨_, hspells⟩
  | .str data, h => by
    rw [Sized] at h
    exact ⟨_, .str h⟩
  | .int value, _ => ⟨_, .int value⟩
  | .dbl value, _ => ⟨_, .dbl value⟩
  | .arr items, h => by
    rw [Sized] at h
    obtain ⟨messages, hitems⟩ := spellsAll_encodeAll h.2
    exact ⟨messages, .arr h.1 hitems⟩

theorem spellsAll_encodeAll : ∀ {items : List Response}, AllSized items →
    ∃ messages, SpellsAll (encodeAll items) items messages
  | [], _ => ⟨_, .nil⟩
  | item :: items, h => by
    rw [AllSized] at h
    obtain ⟨messages, hitem⟩ := spells_encode h.1
    obtain ⟨messages', hitems⟩ := spellsAll_encodeAll h.2
    exact ⟨_, .cons hitem hitems⟩

end

/-- **Decoding** a value from its encoding. -/
theorem decodeValue_encode {v : Response} {room : Nat} (rest : Bytes) (hsized : v.Sized)
    (hdepth : v.depth ≤ room) : decodeValue room (v.encode ++ rest) = .ok (v, rest) := by
  obtain ⟨messages, h⟩ := spells_encode hsized
  rw [h.decodeValue, if_pos hdepth]

/-- **A body** holds the value it was encoded from. -/
theorem decode_encode {v : Response} (hsized : v.Sized) (hdepth : v.depth ≤ maxNesting) :
    decode v.encode = .ok v := by
  have h := decodeValue_encode [] hsized hdepth
  rw [List.append_nil] at h
  rw [decode, h]
  rfl

/-! ## Short encodings -/

theorem encode_ne_nil (v : Response) : v.encode ≠ [] := by
  cases v <;> simp [encode]

theorem length_le_encodeAll (items : List Response) : items.length ≤ (encodeAll items).length := by
  induction items with
  | nil => exact Nat.zero_le _
  | cons item items ih =>
    have := List.length_pos_iff.mpr item.encode_ne_nil
    rw [encodeAll, List.length_append, List.length_cons]
    omega

mutual

/-- **A short encoding** has small parts. -/
theorem sized_of_length : ∀ {v : Response}, v.encode.length < 0x100000000 → v.Sized
  | .nil, _ | .int _, _ | .dbl _, _ => by simp [Sized]
  | .err _ message, h => by
    simp only [encode, Bytes.sized, List.length_cons, List.length_append] at h
    rw [Sized]
    omega
  | .str data, h => by
    simp only [encode, Bytes.sized, List.length_cons, List.length_append] at h
    rw [Sized]
    omega
  | .arr items, h => by
    simp only [encode, List.length_cons, List.length_append] at h
    have := length_le_encodeAll items
    rw [Sized]
    exact ⟨by omega, allSized_of_length (by omega)⟩

theorem allSized_of_length : ∀ {items : List Response},
    (encodeAll items).length < 0x100000000 → AllSized items
  | [], _ => by simp [AllSized]
  | item :: items, h => by
    rw [encodeAll, List.length_append] at h
    rw [AllSized]
    exact ⟨sized_of_length (by omega), allSized_of_length (by omega)⟩

end

end KeyServer.Response
