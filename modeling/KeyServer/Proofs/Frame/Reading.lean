import KeyServer.Proofs.Buffer.Growth
import KeyServer.Proofs.Frame

/-! # Two ways to read a frame

Whoever collects bytes asks from time to time whether a frame is complete (`bodyLength?`).  Whoever
reads off a stream takes a header and then as many bytes as it says (`readResponse`).  Both come to
the same verdict about all bytes there can be (`Agrees`).

* **`agrees`**: the stream is read up to the end of the frame exactly if the frame is complete.
* **`readResponses_eq_iff`**: reading until it fails, with a bound on the number of responses, is
  reading until it fails (`ReadsAll`).
* **`agrees_and_readsAll`**: so the frames that were appended to a buffer are read as the values
  that they were written for.
-/

namespace KeyServer

/-- Appends the frames of some values. -/
def Buffer.writeResponses (q : Buffer) (values : List Response) (max : Nat) :
    Except Fault Buffer :=
  values.foldlM (fun q v => q.writeResponse v max) q

namespace Frame

/-- About some bytes both ways to read a frame tell the same. -/
structure Agrees (d : Bytes) (max : Nat) : Prop where
  /-- Of a complete frame exactly its bytes are read, and its body is decoded. -/
  complete : ∀ n, bodyLength? d max = .ok (some n) → headerSize + n ≤ d.length ∧
    readResponse d max = ((Response.decode ((d.drop headerSize).take n)).mapError .protocol,
      d.drop (headerSize + n))
  /-- While bytes are missing, the stream ends too early. -/
  incomplete : bodyLength? d max = .ok none → (readResponse d max).1 = .error .endOfStream
  /-- Nothing else goes wrong than that the body is too long, and that goes wrong for both. -/
  refused : ∀ e, bodyLength? d max = .error e →
    (∃ size, max < size ∧ e = .messageTooLarge size max) ∧ (readResponse d max).1 = .error e

/-- Reading responses off a stream one after the other, until that fails. -/
inductive ReadsAll (max : Nat) : Bytes → List Response → Error → Prop where
  | failed {stream rest : Bytes} {e : Error} (hread : readResponse stream max = (.error e, rest)) :
      ReadsAll max stream [] e
  | read {stream rest : Bytes} {v : Response} {values : List Response} {e : Error}
      (hread : readResponse stream max = (.ok v, rest)) (hrest : ReadsAll max rest values e) :
      ReadsAll max stream (v :: values) e

variable {stream rest : Bytes} {max : Nat} {v : Response} {values : List Response} {e : Error}

/-! ## One response -/

/-- **Reading** goes by the first four bytes. -/
theorem readResponse_eq (d : Bytes) (max : Nat) :
    readResponse d max =
      if d.length < 4 then (.error .endOfStream, [])
      else if max < Bytes.value (d.take 4) then
        (.error (.messageTooLarge (Bytes.value (d.take 4)) max), d.drop 4)
      else if d.length < 4 + Bytes.value (d.take 4) then (.error .endOfStream, [])
      else ((Response.decode ((d.drop 4).take (Bytes.value (d.take 4)))).mapError .protocol,
        d.drop (4 + Bytes.value (d.take 4))) := by
  unfold readResponse headerSize
  rw [Bytes.split?_eq]
  by_cases hheader : d.length < 4
  · rw [if_pos hheader, if_neg (by omega)]
  · rw [if_neg hheader, if_pos (by omega)]
    dsimp only
    split
    · rfl
    · rw [Bytes.split?_eq, List.length_drop, List.drop_drop]
      by_cases hbody : d.length < 4 + Bytes.value (d.take 4)
      · rw [if_pos hbody, if_neg (by omega)]
      · rw [if_neg hbody, if_pos (by omega)]

theorem agrees_of_incomplete {d : Bytes} (hlength : bodyLength? d max = .ok none)
    (hread : (readResponse d max).1 = .error .endOfStream) : Agrees d max where
  complete := fun n h => by
    rw [hlength] at h
    cases h
  incomplete := fun _ => hread
  refused := fun e h => by
    rw [hlength] at h
    cases h

/-- **Both ways** to read a frame go by the same bytes. -/
theorem agrees (d : Bytes) (max : Nat) : Agrees d max := by
  have hlength := bodyLength?_eq d max
  have hread := readResponse_eq d max
  by_cases hheader : d.length < 4
  · rw [if_pos hheader] at hlength hread
    exact agrees_of_incomplete hlength (by rw [hread])
  rw [if_neg hheader] at hlength hread
  by_cases hmax : max < Bytes.value (d.take 4)
  · rw [if_pos hmax] at hlength hread
    refine ⟨fun n h => ?_, fun h => ?_, fun e h => ?_⟩ <;> rw [hlength] at h <;> cases h
    exact ⟨⟨_, hmax, rfl⟩, by rw [hread]⟩
  rw [if_neg hmax] at hlength hread
  by_cases hbody : d.length < 4 + Bytes.value (d.take 4)
  · rw [if_pos hbody] at hlength hread
    exact agrees_of_incomplete hlength (by rw [hread])
  rw [if_neg hbody] at hlength hread
  refine ⟨fun n h => ?_, fun h => ?_, fun e h => ?_⟩ <;> rw [hlength] at h <;> cases h
  exact ⟨Nat.le_of_not_lt hbody, hread⟩

/-- A response that was read took a header and its body off the stream. -/
theorem length_lt_of_readResponse (h : readResponse stream max = (.ok v, rest)) :
    rest.length < stream.length := by
  cases hlength : bodyLength? stream max with
  | error e =>
    have hread := ((agrees stream max).refused e hlength).2
    rw [h] at hread
    cases hread
  | ok n =>
    cases n with
    | none =>
      have hread := (agrees stream max).incomplete hlength
      rw [h] at hread
      cases hread
    | some n =>
      obtain ⟨hle, hread⟩ := (agrees stream max).complete n hlength
      rw [h, Prod.mk.injEq] at hread
      rw [hread.2, List.length_drop]
      unfold headerSize at hle ⊢
      omega

/-! ## Responses in turn -/

/-- Reading with enough tries. -/
theorem readResponsesWithin_eq_iff {tries : Nat} (htries : stream.length < tries) :
    readResponsesWithin max tries stream = (values, e) ↔ ReadsAll max stream values e := by
  -- Each response is shorter than what it was read off, so the tries never run out.
  induction tries generalizing stream values e with
  | zero => omega
  | succ tries ih =>
    rw [readResponsesWithin]
    rcases hread : readResponse stream max with ⟨outcome, rest⟩
    cases outcome with
    | error e' =>
      dsimp only
      constructor
      · rintro ⟨⟩
        exact .failed hread
      · intro h
        cases h with
        | failed hread' =>
          cases hread.symm.trans hread'
          rfl
        | read hread' =>
          rw [hread] at hread'
          cases hread'
    | ok v =>
      have hshort := length_lt_of_readResponse hread
      have hrest : ∀ {values e}, readResponsesWithin max tries rest = (values, e) ↔
          ReadsAll max rest values e := ih (by omega)
      dsimp only
      constructor
      · rintro ⟨⟩
        exact .read hread (hrest.mp rfl)
      · intro h
        cases h with
        | failed hread' =>
          rw [hread] at hread'
          cases hread'
        | read hread' h =>
          cases hread.symm.trans hread'
          rw [hrest.mpr h]

/-- **Reading** all there is ends when a read fails, and not before. -/
theorem readResponses_eq_iff :
    readResponses stream max = (values, e) ↔ ReadsAll max stream values e :=
  readResponsesWithin_eq_iff (Nat.lt_succ_self _)

end Frame

/-! ## Frames in a buffer -/

namespace Buffer

/-- **A frame** is appended to what a buffer holds. -/
theorem appends_writeResponse (v : Response) (max : Nat) :
    Appends (·.writeResponse v max) (Frame.encode (v.capped max).encode) := by
  intro q data marks h
  obtain ⟨q₁, hopen, h₁⟩ := h.pushSlot
  obtain ⟨q₂, hwrite, h₂⟩ := appends_writeValue v h₁
  obtain ⟨q₃, hclose, h₃⟩ := h₂.closeFrame (by simp) max
  rw [Frame.capped_encode] at h₃
  exact ⟨q₃, by simp only [writeResponse, openFrame, hopen, hwrite, hclose, ok_bind], h₃⟩

/-- Frames in turn. -/
theorem appends_writeResponses (max : Nat) (values : List Response) :
    Appends (·.writeResponses values max)
      (values.flatMap fun v => Frame.encode (v.capped max).encode) := by
  induction values with
  | nil => exact appends_pure
  | cons v values ih => exact (appends_writeResponse v max).bind ih

end Buffer

namespace Frame

/-- Values that fit are sent as they are. -/
theorem flatMap_capped {values : List Response} {max : Nat}
    (hfit : ∀ v ∈ values, v.encode.length ≤ max) :
    (values.flatMap fun v => encode (v.capped max).encode)
      = values.flatMap fun v => encode v.encode := by
  refine List.flatMap_congr fun v hv => ?_
  rw [Response.capped, if_neg (Nat.not_lt_of_le (hfit v hv))]

/-- **Both ways to read a frame agree**, about all bytes and all limits.  So if a limit is one that
headers can tell, and values are nested no deeper than can be decoded and are not too long, then
every buffer grows by a stream off which these values are read in order, and then it ends. -/
theorem agrees_and_readsAll (max : Nat) :
    (∀ d, Agrees d max) ∧
      ∀ values : List Response, max < 0x100000000 →
        (∀ v ∈ values, v.depth ≤ Response.maxNesting ∧ v.encode.length ≤ max) →
        ∃ stream, ReadsAll max stream values .endOfStream ∧
          readResponses stream max = (values, .endOfStream) ∧
          ∀ q : Buffer, q.Reachable →
            ∃ q', q.writeResponses values max = .ok q' ∧ q.Grown stream q' := by
  refine ⟨fun d => agrees d max, fun values hmax hvalues => ?_⟩
  have hread : readResponses (values.flatMap fun v => encode v.encode) max
      = (values, .endOfStream) := by
    refine readResponses_encode fun v hv => ?_
    obtain ⟨hdepth, hlength⟩ := hvalues v hv
    exact ⟨hlength, Nat.lt_of_le_of_lt hlength hmax, hdepth⟩
  have happends := Buffer.appends_writeResponses max values
  rw [flatMap_capped fun v hv => (hvalues v hv).2] at happends
  exact ⟨_, readResponses_eq_iff.mp hread, hread, fun q hq => happends.grown hq⟩

/-- Two values, one of them an array. -/
theorem agrees_and_readsAll_two :
    let values : List Response := [.arr [.str [107], .int 7], .nil]
    (∀ v ∈ values, v.depth ≤ Response.maxNesting ∧ v.encode.length ≤ 64) ∧
      ∃ stream, ReadsAll 64 stream values .endOfStream ∧
        readResponses stream 64 = (values, .endOfStream) ∧
        ∀ q : Buffer, q.Reachable →
          ∃ q', q.writeResponses values 64 = .ok q' ∧ q.Grown stream q' := by
  intro values
  have hvalues : ∀ v ∈ values, v.depth ≤ Response.maxNesting ∧ v.encode.length ≤ 64 := by
    simp only [values, List.forall_mem_cons]
    decide +kernel
  exact ⟨hvalues, (agrees_and_readsAll 64).2 values (by decide) hvalues⟩

end Frame

end KeyServer
