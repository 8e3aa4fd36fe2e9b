import KeyServer.Proofs.Response.Decoding
import KeyServer.Proofs.Response.Writing

/-! # Bodies and values correspond

The reader accepts exactly what spells a value with arrays not nested too deep
(`decode_eq_ok_iff`), and takes no byte more (`decodeValue_eq_ok_iff`).  A body spells one value
only, with one list of messages (`Spells.unique`).  Hence:

* **`decode_writeValue`**: what is written for a value is read as this value, and no beginning
  and no continuation of it is a body.
* **`decode_canonical`**: a body is what is written for its value, provided that the messages
  in it are text.
-/

namespace KeyServer.Response

/-! ## What is read -/

section Parts

variable {part : Part} {n : Nat} {b front rest : Bytes}

theorem take_eq_ok (h : take part n b = .ok (front, rest)) :
    b = front ++ rest ∧ front.length = n := by
  unfold take at h
  split at h
  · next hcut =>
    cases h
    exact Bytes.split?_eq_some_iff.mp hcut
  · cases h

theorem takeNumber_eq_ok {w : Nat} (h : takeNumber part w b = .ok (n, rest)) :
    b = Bytes.littleEndian w n ++ rest ∧ n < 256 ^ w := by
  obtain ⟨⟨front, rest'⟩, htake, h⟩ := bind_eq_ok_iff.mp h
  cases h
  obtain ⟨rfl, rfl⟩ := take_eq_ok htake
  exact ⟨by rw [Bytes.littleEndian_value], Bytes.value_lt front⟩

theorem takeSized_eq_ok {data : Bytes} (h : takeSized part b = .ok (data, rest)) :
    b = Bytes.sized data ++ rest ∧ data.length < 0x100000000 := by
  obtain ⟨⟨length, b'⟩, hlength, hdata⟩ := bind_eq_ok_iff.mp h
  obtain ⟨rfl, hlt⟩ := takeNumber_eq_ok hlength
  obtain ⟨rfl, rfl⟩ := take_eq_ok hdata
  exact ⟨by rw [Bytes.sized, List.append_assoc], hlt⟩

theorem takeTag_eq_ok {tag : Tag} (h : takeTag b = .ok (tag, rest)) : b = tag.byte :: rest := by
  unfold takeTag at h
  split at h
  · cases h
  · split at h
    · next htag =>
      cases h
      rw [Tag.ofByte?_eq_some_iff.mp htag]
    · cases h

end Parts

/-- Some values in a row, if each of them is read so. -/
theorem exists_spellsAll {room : Nat} {item : Bytes → Except Malformed (Response × Bytes)}
    (hitem : ∀ {b rest : Bytes} {v : Response}, item b = .ok (v, rest) →
      v.depth ≤ room ∧ ∃ used messages, b = used ++ rest ∧ Spells used v messages) :
    ∀ {count : Nat} {done items : List Response} {b rest : Bytes},
      decodeItems item count done b = .ok (items, rest) →
      ∃ new, items = done.reverse ++ new ∧ new.length = count ∧ depths new ≤ room ∧
        ∃ used messages, b = used ++ rest ∧ SpellsAll used new messages := by
  intro count
  induction count with
  | zero =>
    rintro done items b rest ⟨⟩
    exact ⟨[], (List.append_nil _).symm, rfl, Nat.zero_le room, [], [], rfl, .nil⟩
  | succ count ih =>
    intro done items b rest h
    rw [decodeItems] at h
    split at h
    · cases h
    · next v b' hv =>
      obtain ⟨hdepth, used, messages, rfl, hspells⟩ := hitem hv
      obtain ⟨new, rfl, rfl, hdepths, used', messages', rfl, hrest⟩ := ih h
      refine ⟨v :: new, by simp, rfl, Nat.max_le.mpr ⟨hdepth, hdepths⟩, used ++ used', _, ?_,
        .cons hspells hrest⟩
      rw [List.append_assoc]

/-- **What is read** spells the value that is returned. -/
theorem exists_spells {room : Nat} : ∀ {b rest : Bytes} {v : Response},
    decodeValue room b = .ok (v, rest) →
      v.depth ≤ room ∧ ∃ used messages, b = used ++ rest ∧ Spells used v messages := by
  induction room using Nat.strong_induction_on with
  | _ room ih =>
    intro b rest v h
    rw [decodeValue] at h
    obtain ⟨⟨tag, b'⟩, htag, hpayload⟩ := bind_eq_ok_iff.mp h
    obtain rfl := takeTag_eq_ok htag
    cases tag with
    | nil =>
      cases hpayload
      exact ⟨Nat.zero_le room, _, _, rfl, .nil⟩
    | err =>
      obtain ⟨⟨code, b₁⟩, hcode, hpayload⟩ := bind_eq_ok_iff.mp hpayload
      obtain ⟨⟨message, b₂⟩, hmessage, hpayload⟩ := bind_eq_ok_iff.mp hpayload
      cases hpayload
      obtain ⟨rfl, hlt⟩ := takeNumber_eq_ok hcode
      obtain ⟨rfl, hlength⟩ := takeSized_eq_ok hmessage
      have hspells := Spells.err (UInt32.ofNat code) message hlength
      rw [UInt32.toNat_ofNat_of_lt' hlt] at hspells
      exact ⟨Nat.zero_le room, _, _, by simp, hspells⟩
    | str =>
      obtain ⟨⟨data, b₁⟩, hdata, hpayload⟩ := bind_eq_ok_iff.mp hpayload
      cases hpayload
      obtain ⟨rfl, hlength⟩ := takeSized_eq_ok hdata
      exact ⟨Nat.zero_le room, _, _, rfl, .str hlength⟩
    | int =>
      obtain ⟨⟨n, b₁⟩, hn, hpayload⟩ := bind_eq_ok_iff.mp hpayload
      cases hpayload
      obtain ⟨rfl, hlt⟩ := takeNumber_eq_ok hn
      have hspells := Spells.int (UInt64.ofNat n).toInt64
      rw [UInt64.toUInt64_toInt64, UInt64.toNat_ofNat_of_lt' hlt] at hspells
      exact ⟨Nat.zero_le room, _, _, rfl, hspells⟩
    | dbl =>
      obtain ⟨⟨n, b₁⟩, hn, hpayload⟩ := bind_eq_ok_iff.mp hpayload
      cases hpayload
      obtain ⟨rfl, hlt⟩ := takeNumber_eq_ok hn
      have hspells := Spells.dbl ⟨UInt64.ofNat n⟩
      rw [UInt64.toNat_ofNat_of_lt' hlt] at hspells
      exact ⟨Nat.zero_le room, _, _, rfl, hspells⟩
    | arr =>
      cases room with
      | zero => cases hpayload
      | succ room =>
        obtain ⟨⟨count, b₁⟩, hcount, hpayload⟩ := bind_eq_ok_iff.mp hpayload
        obtain ⟨⟨items, b₂⟩, hitems, hpayload⟩ := bind_eq_ok_iff.mp hpayload
        cases hpayload
        obtain ⟨rfl, hlt⟩ := takeNumber_eq_ok hcount
        obtain ⟨new, rfl, rfl, hdepths, used, messages, rfl, hspells⟩ :=
          exists_spellsAll (fun h => ih room (Nat.lt_succ_self room) h) hitems
        exact ⟨Nat.succ_le_succ hdepths, _, messages, by simp, .arr hlt hspells⟩

/-! ## What is accepted -/

variable {b b' : Bytes} {v v' : Response} {messages messages' : List Bytes}

/-- **Exactly what spells a value** is read, and not a byte more. -/
theorem decodeValue_eq_ok_iff {room : Nat} {rest : Bytes} :
    decodeValue room b = .ok (v, rest) ↔
      v.depth ≤ room ∧ ∃ used messages, b = used ++ rest ∧ Spells used v messages := by
  refine ⟨exists_spells, ?_⟩
  rintro ⟨hdepth, used, messages, rfl, h⟩
  rw [h.decodeValue, if_pos hdepth]

/-- **A body** is what spells a value with arrays not nested too deep. -/
theorem decode_eq_ok_iff :
    decode b = .ok v ↔ v.depth ≤ maxNesting ∧ ∃ messages, Spells b v messages := by
  constructor
  · intro h
    obtain ⟨⟨v', rest⟩, hvalue, h⟩ := bind_eq_ok_iff.mp h
    dsimp only at h
    split at h
    · next hrest =>
      cases h
      obtain rfl := List.isEmpty_iff.mp hrest
      obtain ⟨hdepth, used, messages, rfl, hspells⟩ := decodeValue_eq_ok_iff.mp hvalue
      rw [List.append_nil]
      exact ⟨hdepth, messages, hspells⟩
    · cases h
  · rintro ⟨hdepth, messages, h⟩
    have hvalue : decodeValue maxNesting b = .ok (v, []) :=
      decodeValue_eq_ok_iff.mpr ⟨hdepth, b, messages, (List.append_nil b).symm, h⟩
    rw [decode, hvalue]
    rfl

/-! ## One spelling, one value -/

/-- What spells a value is told apart from whatever follows it. -/
theorem Spells.eq_of_append (h : Spells b v messages) (h' : Spells b' v' messages')
    {rest rest' : Bytes} (heq : b ++ rest = b' ++ rest') : b = b' ∧ v = v' ∧ rest = rest' := by
  have hread := h.decodeValue (max v.depth v'.depth) rest
  rw [heq, h'.decodeValue, if_pos (Nat.le_max_left _ _), if_pos (Nat.le_max_right _ _)] at hread
  cases hread
  exact ⟨List.append_cancel_right heq, rfl, rfl⟩

mutual

/-- The messages in what spells a value can be told from it. -/
theorem Spells.messages_eq : ∀ {b b' : Bytes} {v v' : Response} {messages messages' : List Bytes},
    Spells b v messages → Spells b' v' messages' → b = b' → v = v' → messages = messages'
  | _, _, _, _, _, _, .err code _ h, h', hb, hv => by
    cases h' with
    | err code' _ h' =>
      cases (Response.err.inj hv).1
      have hsized := List.append_cancel_left (List.cons.inj hb).2
      rw [(List.append_inj hsized (by simp)).2]
    | _ => cases hv
  | _, _, _, _, _, _, .arr hcount hitems, h', hb, hv => by
    cases h' with
    | arr hcount' hitems' =>
      cases hv
      exact hitems.messages_eq hitems' (List.append_cancel_left (List.cons.inj hb).2) rfl
    | _ => cases hv
  | _, _, _, _, _, _, .nil, h', _, hv => by cases h' <;> first | rfl | cases hv
  | _, _, _, _, _, _, .str _, h', _, hv => by cases h' <;> first | rfl | cases hv
  | _, _, _, _, _, _, .int _, h', _, hv => by cases h' <;> first | rfl | cases hv
  | _, _, _, _, _, _, .dbl _, h', _, hv => by cases h' <;> first | rfl | cases hv

theorem SpellsAll.messages_eq : ∀ {b b' : Bytes} {items items' : List Response}
    {messages messages' : List Bytes}, SpellsAll b items messages →
    SpellsAll b' items' messages' → b = b' → items = items' → messages = messages'
  | _, _, _, _, _, _, .nil, .nil, _, _ => rfl
  | _, _, _, _, _, _, .cons hitem hitems, .cons hitem' hitems', hb, hv => by
    obtain ⟨hfront, -, hrest⟩ := hitem.eq_of_append hitem' hb
    obtain ⟨rfl, rfl⟩ := List.cons.inj hv
    rw [hitem.messages_eq hitem' hfront rfl, hitems.messages_eq hitems' hrest rfl]

end

/-- **A body** spells one value, with one list of messages. -/
theorem Spells.unique (h : Spells b v messages) (h' : Spells b v' messages') :
    v = v' ∧ messages = messages' := by
  obtain ⟨-, rfl, -⟩ := h.eq_of_append h' (rfl : b ++ [] = b ++ [])
  exact ⟨rfl, h.messages_eq h' rfl rfl⟩

/-! ## Writing and reading -/

/-- **What is written is read**, and is told apart from whatever follows it.  No beginning of it
and no continuation is a body. -/
theorem decode_writeValue (hsized : v.Sized) :
    Buffer.Appends (Buffer.writeValue · v) v.encode ∧
      (v.depth ≤ maxNesting →
        (∀ rest, decodeValue maxNesting (v.encode ++ rest) = .ok (v, rest)) ∧
        decode v.encode = .ok v ∧
        (∀ front, front <+: v.encode → front ≠ v.encode → ∃ e, decode front = .error e) ∧
        ∀ rest, rest ≠ [] → ∃ e, decode (v.encode ++ rest) = .error e) ∧
      (maxNesting < v.depth → decode v.encode = .error .nestedTooDeep) := by
  obtain ⟨messages, h⟩ := spells_encode hsized
  refine ⟨Buffer.appends_writeValue v, fun hdepth => ⟨?_, ?_, ?_, ?_⟩, fun hdepth => ?_⟩
  · exact fun rest => decodeValue_encode rest hsized hdepth
  · exact decode_encode hsized hdepth
  · rintro front ⟨rest, heq⟩ hne
    cases hfront : decode front with
    | error e => exact ⟨e, rfl⟩
    | ok w =>
      -- A body in front of more bytes would be read instead of the whole.
      obtain ⟨-, messages', hw⟩ := decode_eq_ok_iff.mp hfront
      obtain ⟨rfl, -⟩ := hw.eq_of_append h (heq.trans (List.append_nil _).symm)
      exact absurd rfl hne
  · intro rest hne
    refine ⟨.responseTrailing rest.length, ?_⟩
    rw [decode, decodeValue_encode rest hsized hdepth, ok_bind]
    simp [hne]
  · have hvalue := h.decodeValue maxNesting []
    rw [List.append_nil, if_neg (Nat.not_le.mpr hdepth)] at hvalue
    rw [decode, hvalue]
    rfl

/-- An array with a value of every kind, among them a double that is not a number. -/
theorem decode_writeValue_kinds :
    let v : Response :=
      .arr [.nil, .err 3 "é", .str [1, 2], .int (-1), .dbl ⟨0x7FF8000000000001⟩, .arr []]
    v.Sized ∧
      Buffer.Appends (Buffer.writeValue · v) v.encode ∧
      (v.depth ≤ maxNesting →
        (∀ rest, decodeValue maxNesting (v.encode ++ rest) = .ok (v, rest)) ∧
        decode v.encode = .ok v ∧
        (∀ front, front <+: v.encode → front ≠ v.encode → ∃ e, decode front = .error e) ∧
        ∀ rest, rest ≠ [] → ∃ e, decode (v.encode ++ rest) = .error e) ∧
      (maxNesting < v.depth → decode v.encode = .error .nestedTooDeep) := by
  intro v
  have hsized : v.Sized := by
    simp only [v, Sized, AllSized]
    decide
  exact ⟨hsized, decode_writeValue hsized⟩

/-! ## Reading and writing -/

mutual

/-- A value whose messages are text is spelled as it is written. -/
theorem Spells.eq_encode : ∀ {b : Bytes} {v : Response} {messages : List Bytes},
    Spells b v messages → (∀ m ∈ messages, Utf8.Valid m) → b = v.encode
  | _, _, _, .nil, _ => by rw [encode]
  | _, _, _, .err code _ _, hvalid => by
    rw [encode, Utf8.encode_decodeLossy (hvalid _ List.mem_cons_self)]
  | _, _, _, .str _, _ => by rw [encode]
  | _, _, _, .int value, _ => by rw [encode]
  | _, _, _, .dbl value, _ => by rw [encode]
  | _, _, _, .arr _ hitems, hvalid => by rw [encode, hitems.eq_encodeAll hvalid]

theorem SpellsAll.eq_encodeAll : ∀ {b : Bytes} {items : List Response} {messages : List Bytes},
    SpellsAll b items messages → (∀ m ∈ messages, Utf8.Valid m) → b = encodeAll items
  | _, _, _, .nil, _ => by rw [encodeAll]
  | _, _, _, .cons hitem hitems, hvalid => by
    rw [encodeAll, hitem.eq_encode fun m hm => hvalid m (List.mem_append_left _ hm),
      hitems.eq_encodeAll fun m hm => hvalid m (List.mem_append_right _ hm)]

end

/-- Whether these bytes are the message of an error in a body. -/
def HasMessage (body message : Bytes) : Prop :=
  ∃ v messages, Spells body v messages ∧ message ∈ messages

/-- A body whose messages are text is what is written for its value. -/
theorem eq_encode_of_decode (h : decode b = .ok v)
    (hvalid : ∀ message, HasMessage b message → Utf8.Valid message) : b = v.encode := by
  obtain ⟨-, messages, hspells⟩ := decode_eq_ok_iff.mp h
  exact hspells.eq_encode fun m hm => hvalid m ⟨v, messages, hspells, hm⟩

/-- **Bodies are canonical**: a body whose messages are text is written again as it was read, and
no other one is read as the same value. -/
theorem decode_canonical (h : decode b = .ok v)
    (hvalid : ∀ message, HasMessage b message → Utf8.Valid message) :
    Buffer.Appends (Buffer.writeValue · v) b ∧ v.depth ≤ maxNesting ∧
      ∀ b', decode b' = .ok v → (∀ message, HasMessage b' message → Utf8.Valid message) →
        b' = b := by
  have heq := eq_encode_of_decode h hvalid
  refine ⟨heq ▸ Buffer.appends_writeValue v, (decode_eq_ok_iff.mp h).1, fun b' h' hvalid' => ?_⟩
  rw [heq, eq_encode_of_decode h' hvalid']

/-- An array of an error and of an array with a double that is not a number. -/
theorem decode_canonical_nested :
    let b : Bytes := [5, 2, 0, 0, 0, 1, 7, 0, 0, 0, 2, 0, 0, 0, 0xC3, 0xA9,
      5, 1, 0, 0, 0, 4, 1, 0, 0, 0, 0, 0, 0xF8, 0x7F]
    let v : Response := .arr [.err 7 "é", .arr [.dbl ⟨0x7FF8000000000001⟩]]
    decode b = .ok v ∧ (∀ message, HasMessage b message → Utf8.Valid message) ∧
      Buffer.Appends (Buffer.writeValue · v) b ∧ v.depth ≤ maxNesting ∧
      ∀ b', decode b' = .ok v → (∀ message, HasMessage b' message → Utf8.Valid message) →
        b' = b := by
  intro b v
  have herr : Spells [1, 7, 0, 0, 0, 2, 0, 0, 0, 0xC3, 0xA9] (.err 7 "é") [Utf8.encode "é"] := by
    have h := Spells.err 7 (Utf8.encode "é") (by decide)
    rwa [Utf8.decodeLossy_encode] at h
  have hinner : Spells [5, 1, 0, 0, 0, 4, 1, 0, 0, 0, 0, 0, 0xF8, 0x7F]
      (.arr [.dbl ⟨0x7FF8000000000001⟩]) [] :=
    .arr (by simp) (.cons (.dbl ⟨0x7FF8000000000001⟩) .nil)
  have hspells : Spells b v [Utf8.encode "é"] := .arr (by simp) (.cons herr (.cons hinner .nil))
  have hdecode : decode b = .ok v := decode_eq_ok_iff.mpr ⟨by decide, _, hspells⟩
  have hvalid : ∀ message, HasMessage b message → Utf8.Valid message := by
    rintro message ⟨v', messages, h, hmessage⟩
    obtain ⟨-, rfl⟩ := h.unique hspells
    exact ⟨"é", (List.mem_singleton.mp hmessage).symm⟩
  exact ⟨hdecode, hvalid, decode_canonical hdecode hvalid⟩

/-- A message that is not text is read as text, and not written again as it was. -/
example : decode [1, 7, 0, 0, 0, 1, 0, 0, 0, 0xFF] = .ok (.err 7 "\uFFFD") ∧
    encode (.err 7 "\uFFFD") = [1, 7, 0, 0, 0, 3, 0, 0, 0, 0xEF, 0xBF, 0xBD] := by
  have hlossy : Utf8.decodeLossy [0xFF] = "\uFFFD" := by decide +kernel
  refine ⟨decode_eq_ok_iff.mpr ⟨by decide, [[0xFF]], ?_⟩, by decide +kernel⟩
  exact hlossy ▸ Spells.err 7 [0xFF] (by decide)

end KeyServer.Response
