import KeyServer.Frame
import KeyServer.Proofs.Response.Decoding
import KeyServer.Proofs.Response.Writing

/-! # Frames arrive as they were sent

* **`Buffer.Holds.closeFrame`**: a frame whose length is filled in at the end is the frame of
  its body, or of an error when the body is too long (`Response.capped`).
* **`Frame.cut?_encode`** cuts a frame off that was put before other bytes.
* **`Frame.readResponses_encode`**: a reader of responses gets all the values that were sent,
  in order, and then finds the end of the stream.
-/

namespace KeyServer

/-! ## Sending -/

/-- What is sent for a value: an error when its encoding is too long. -/
def Response.capped (max : Nat) (v : Response) : Response :=
  if max < v.encode.length then .error .tooBig "response is too big" else v

/-- The length of the error that stands for a reply that is too long. -/
def Response.tooBigLength : Nat := 28

/-- The error is sent whatever its own length. -/
theorem Response.length_encode_capped (max : Nat) (v : Response) :
    (v.capped max).encode.length =
      if max < v.encode.length then tooBigLength else v.encode.length := by
  unfold capped
  split
  · decide +kernel
  · rfl

/-- The frame of a reply, or of an error when the reply is too long. -/
def Frame.capped (max : Nat) (reply : Bytes) : Bytes :=
  Frame.encode (if max < reply.length then
    (Response.error .tooBig "response is too big").encode else reply)

theorem Frame.capped_encode (max : Nat) (v : Response) :
    Frame.capped max v.encode = Frame.encode (v.capped max).encode := by
  unfold Frame.capped Response.capped
  split <;> rfl

/-- **Closing a frame** puts the length of the body before it, or an error in its place. -/
theorem Buffer.Holds.closeFrame {q : Buffer} {before slot body : Bytes} {marks : List Nat}
    (h : q.Holds (before ++ slot ++ body) (before.length :: marks))
    (hslot : slot.length = slotWidth) (max : Nat) :
    ∃ q', q.closeFrame max = .ok q' ∧ q'.Holds (before ++ Frame.capped max body) marks := by
  unfold Buffer.closeFrame Frame.capped Frame.encode Bytes.sized
  rw [h.slotBodyLength hslot, ok_bind]
  split
  · obtain ⟨q₁, htruncate, h₁⟩ := h.truncateToSlot hslot
    obtain ⟨q₂, hwrite, h₂⟩ := appends_writeError .tooBig "response is too big" h₁
    obtain ⟨q₃, hpop, h₃⟩ :=
      h₂.popSlot hslot (Response.error .tooBig "response is too big").encode.length
    refine ⟨q₃, ?_, by simpa [slotWidth] using h₃⟩
    simp only [htruncate, hwrite, h₂.slotBodyLength hslot, hpop, ok_bind]
  · obtain ⟨q₁, hpop, h₁⟩ := h.popSlot hslot body.length
    exact ⟨q₁, hpop, by simpa [slotWidth] using h₁⟩

/-! ## Receiving -/

theorem Frame.cut?_eq (d : Bytes) (max : Nat) :
    Frame.cut? d max =
      if d.length < 4 then .ok none
      else if max < Bytes.value (d.take 4) then
        .error (.messageTooLarge (Bytes.value (d.take 4)) max)
      else if d.length < 4 + Bytes.value (d.take 4) then .ok none
      else .ok (some ((d.drop 4).take (Bytes.value (d.take 4)),
        d.drop (4 + Bytes.value (d.take 4)))) := by
  unfold Frame.cut? Frame.headerSize
  rw [Bytes.split?_eq]
  by_cases hheader : d.length < 4
  · rw [if_pos hheader, if_neg (by omega)]
  · rw [if_neg hheader, if_pos (by omega)]
    dsimp only
    split
    · rfl
    · rw [Bytes.split?_eq, List.length_drop, List.drop_drop]
      by_cases hbody : d.length < 4 + Bytes.value (d.take 4)
      · rw [if_pos hbody, if_neg (by omega)]
      · rw [if_neg hbody, if_pos (by omega)]

namespace Frame

/-- **The length** of a body is known once all of its bytes are there. -/
theorem bodyLength?_eq (d : Bytes) (max : Nat) :
    bodyLength? d max =
      if d.length < 4 then .ok none
      else if max < Bytes.value (d.take 4) then
        .error (.messageTooLarge (Bytes.value (d.take 4)) max)
      else if d.length < 4 + Bytes.value (d.take 4) then .ok none
      else .ok (some (Bytes.value (d.take 4))) := by
  rw [bodyLength?, cut?_eq]
  split
  · rfl
  · split
    · rfl
    · split
      · rfl
      · simp only [ok_bind, pure_eq_ok, Option.map_some, List.length_take, List.length_drop]
        congr 2
        omega

variable {body rest : Bytes} {max : Nat}

/-- A frame is a header and a body. -/
theorem encode_append (body rest : Bytes) :
    encode body ++ rest = Bytes.littleEndian headerSize body.length ++ (body ++ rest) := by
  simp [encode, Bytes.sized, headerSize]

theorem value_header {n : Nat} (h : n < 0x100000000) :
    Bytes.value (Bytes.littleEndian headerSize n) = n :=
  Bytes.value_littleEndian_of_lt h

/-- Reading a response that was put before other bytes. -/
theorem readResponse_encode {v : Response} (rest : Bytes) (hv : v.encode.length ≤ max)
    (hsize : v.encode.length < 0x100000000) (hdepth : v.depth ≤ Response.maxNesting) :
    readResponse (encode v.encode ++ rest) max = (.ok v, rest) := by
  rw [encode_append, readResponse, Bytes.split?_littleEndian]
  dsimp only
  rw [value_header hsize, if_neg (by omega), Bytes.split?_append]
  dsimp only
  rw [Response.decode_encode (Response.sized_of_length hsize) hdepth]
  rfl

/-- **Reading all responses** that were sent. -/
theorem readResponsesWithin_encode : ∀ {values : List Response} {tries : Nat},
    (∀ v ∈ values, v.encode.length ≤ max ∧ v.encode.length < 0x100000000 ∧
      v.depth ≤ Response.maxNesting) → values.length < tries →
    readResponsesWithin max tries (values.flatMap fun v => encode v.encode)
      = (values, .endOfStream)
  | _, 0, _, htries => by omega
  | [], tries + 1, _, _ => rfl
  | v :: values, tries + 1, h, htries => by
    obtain ⟨hv, hsize, hdepth⟩ := h v List.mem_cons_self
    rw [List.flatMap_cons, readResponsesWithin, readResponse_encode _ hv hsize hdepth]
    dsimp only
    rw [readResponsesWithin_encode (fun w hw => h w (List.mem_cons_of_mem v hw))
      (Nat.lt_of_succ_lt_succ htries)]

theorem length_le_frames (values : List Response) :
    values.length ≤ (values.flatMap fun v => encode v.encode).length := by
  induction values with
  | nil => exact Nat.le_refl _
  | cons v values ih =>
    rw [List.flatMap_cons, List.length_append, List.length_cons, encode, Bytes.sized,
      List.length_append, Bytes.length_littleEndian]
    omega

theorem readResponses_encode {values : List Response}
    (h : ∀ v ∈ values, v.encode.length ≤ max ∧ v.encode.length < 0x100000000 ∧
      v.depth ≤ Response.maxNesting) :
    readResponses (values.flatMap fun v => encode v.encode) max = (values, .endOfStream) :=
  readResponsesWithin_encode h (Nat.lt_succ_of_le (length_le_frames values))

end Frame

end KeyServer
