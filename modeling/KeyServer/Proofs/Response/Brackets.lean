import KeyServer.Proofs.Buffer.Growth
import KeyServer.Proofs.Frame

/-! # Lengths and counts that are filled in later

A value is written by some calls of writers, its `Piece`s.  The count of an array is given at
once, or it is filled in behind the values, and arrays of both kinds can stand in each other
(`Describes`).  The length of a frame is filled in behind all of that.

* **`Describes.appends`**: pieces that describe a value append its encoding, so it does not
  matter when the counts are given.
* **`Reachable.writeFrame_grows`**: nor does it matter what the buffer held, which slots were
  pending in it, and whether its bytes had to move while the lengths were still missing.
-/

namespace KeyServer

/-- A call of a writer of values. -/
inductive Piece where
  | nil
  | err (code : ErrorCode) (message : String)
  | str (data : Bytes)
  | int (i : Int64)
  | dbl (d : Double)
  /-- Begins an array of so many values. -/
  | array (count : Nat)
  /-- Begins an array whose count comes last. -/
  | openArray
  | closeArray (count : Nat)
  /-- A whole value. -/
  | value (v : Response)

/-- Carries out one call. -/
def Piece.write (q : Buffer) : Piece → Except Fault Buffer
  | nil => q.writeNil
  | err code message => q.writeError code message
  | str data => q.writeStr data
  | int i => q.writeInt i
  | dbl d => q.writeDouble d
  | array count => q.writeArray count
  | openArray => q.openArray
  | closeArray count => q.closeArray count
  | value v => q.writeValue v

mutual

/-- Calls in turn that describe one value. -/
inductive Describes : List Piece → Response → Prop where
  | nil : Describes [.nil] .nil
  | err (code : ErrorCode) (message : String) :
      Describes [.err code message] (.error code message)
  | str (data : Bytes) : Describes [.str data] (.str data)
  | int (i : Int64) : Describes [.int i] (.int i)
  | dbl (d : Double) : Describes [.dbl d] (.dbl d)
  | value (v : Response) : Describes [.value v] v
  /-- An array whose count is given at once. -/
  | counted {pieces : List Piece} {items : List Response} (hitems : DescribesAll pieces items) :
      Describes (.array items.length :: pieces) (.arr items)
  /-- An array whose count is filled in behind the values. -/
  | deferred {pieces : List Piece} {items : List Response} (hitems : DescribesAll pieces items) :
      Describes (.openArray :: pieces ++ [.closeArray items.length]) (.arr items)

/-- Calls in turn that describe some values, one after the other. -/
inductive DescribesAll : List Piece → List Response → Prop where
  | nil : DescribesAll [] []
  | cons {pieces pieces' : List Piece} {item : Response} {items : List Response}
      (hitem : Describes pieces item) (hitems : DescribesAll pieces' items) :
      DescribesAll (pieces ++ pieces') (item :: items)

end

namespace Buffer

/-- Carries out some calls in turn. -/
def writePieces (q : Buffer) : List Piece → Except Fault Buffer
  | [] => .ok q
  | piece :: pieces => do
    let q ← piece.write q
    q.writePieces pieces

theorem writePieces_append (pieces pieces' : List Piece) (q : Buffer) :
    q.writePieces (pieces ++ pieces') = q.writePieces pieces >>= (·.writePieces pieces') := by
  induction pieces generalizing q with
  | nil => rfl
  | cons piece pieces ih =>
    rw [List.cons_append, writePieces, writePieces]
    cases hpiece : piece.write q with
    | error fault => rfl
    | ok q₁ => exact ih q₁

/-- Writes a frame around some calls. -/
def writeFrame (q : Buffer) (pieces : List Piece) (max : Nat) : Except Fault Buffer := do
  let q ← q.openFrame
  let q ← q.writePieces pieces
  q.closeFrame max

end Buffer

open Buffer

/-! ## Values -/

theorem Piece.appends {piece : Piece} {bytes : Bytes} (h : Appends piece.write bytes) :
    Appends (writePieces · [piece]) bytes := by
  have hbind := h.bind appends_pure
  rwa [List.append_nil] at hbind

mutual

/-- **Pieces of a value** append its encoding. -/
theorem Describes.appends {pieces : List Piece} {v : Response} :
    Describes pieces v → Appends (writePieces · pieces) v.encode
  | .nil => Piece.appends appends_writeNil
  | .err code message => Piece.appends (appends_writeError code message)
  | .str data => Piece.appends (appends_writeStr data)
  | .int i => Piece.appends (appends_writeInt i)
  | .dbl d => Piece.appends (appends_writeDouble d)
  | .value v => Piece.appends (appends_writeValue v)
  | .counted hitems => by
    rw [Response.encode]
    exact (appends_writeArray _).bind hitems.appends
  | .deferred hitems => by
    -- The slot of the count is pending while the values are written, and is the innermost one
    -- again behind them.
    intro q data marks h
    obtain ⟨q₁, hopen, h₁⟩ := h.openArray
    obtain ⟨q₂, hwrite, h₂⟩ := hitems.appends h₁
    obtain ⟨q₃, hclose, h₃⟩ := h₂.closeArray
    refine ⟨q₃, ?_, h₃⟩
    simp only [List.cons_append, writePieces, Piece.write, hopen, ok_bind, writePieces_append,
      hwrite, hclose]

/-- Pieces of some values append their encodings. -/
theorem DescribesAll.appends {pieces : List Piece} {items : List Response} :
    DescribesAll pieces items → Appends (writePieces · pieces) (Response.encodeAll items)
  | .nil => appends_pure
  | .cons hitem hitems => by
    rw [Response.encodeAll]
    simp only [writePieces_append]
    exact hitem.appends.bind hitems.appends

end

/-! ## Frames -/

/-- What writing a value appends to an empty buffer. -/
def Response.written (v : Response) : Except Fault Bytes := do
  let q ← Buffer.empty.writeValue v
  q.unread

theorem Response.written_eq (v : Response) : v.written = .ok v.encode := by
  obtain ⟨q, hwrite, h⟩ := appends_writeValue v holds_empty
  simp only [written, hwrite, ok_bind, h.unread, List.nil_append]

namespace Buffer

/-- **A frame** around pieces that describe a value is the frame of its encoding, or of an error
when that is too long. -/
theorem appends_writeFrame {pieces : List Piece} {v : Response} (hpieces : Describes pieces v)
    (max : Nat) : Appends (writeFrame · pieces max) (Frame.capped max v.encode) := by
  intro q data marks h
  obtain ⟨q₁, hopen, h₁⟩ := h.pushSlot
  obtain ⟨q₂, hwrite, h₂⟩ := hpieces.appends h₁
  obtain ⟨q₃, hclose, h₃⟩ := h₂.closeFrame (by simp) max
  refine ⟨q₃, ?_, h₃⟩
  simp only [writeFrame, openFrame, hopen, hwrite, hclose, ok_bind]

/-- **Lengths and counts may come last.**  Whatever a reachable buffer holds, calls that describe
a value between the beginning and the end of a frame add one frame, and leave alone what was
unread and pending.  Its body is what writing the value as a whole gives, or an error when that is
too long. -/
theorem Reachable.writeFrame_grows {q : Buffer} (hq : q.Reachable) {pieces : List Piece}
    {v : Response} (hpieces : Describes pieces v) {max : Nat} (hmax : max < 0x100000000) :
    ∃ q' encoding body, q.writeFrame pieces max = .ok q' ∧
      q.Grown (Bytes.littleEndian 4 body.length ++ body) q' ∧ body.length < 0x100000000 ∧
      v.written = .ok encoding ∧
      if encoding.length ≤ max then body = encoding
      else (Response.error .tooBig "response is too big").written = .ok body := by
  obtain ⟨q', hrun, hgrown⟩ := (appends_writeFrame hpieces max).grown hq
  rw [Frame.capped_encode] at hgrown
  refine ⟨q', v.encode, (v.capped max).encode, hrun, hgrown, ?_, v.written_eq, ?_⟩
  · rw [Response.length_encode_capped]
    split
    · decide
    · omega
  · unfold Response.capped
    split
    · next hfits => rw [if_neg (Nat.not_lt.mpr hfits)]
    · next hlong => rw [if_pos (Nat.lt_of_not_le hlong), Response.written_eq]

/-- Arrays of both kinds in each other, behind a slot that was pending before. -/
theorem Reachable.writeFrame_grows_nested :
    let q : Buffer := ⟨#[3, 0, 0, 0, 0, 0], 0, 5, [1]⟩
    let pieces : List Piece := [.openArray, .int 1, .array 2, .openArray, .closeArray 0,
      .value (.str [7]), .nil, .closeArray 3]
    let v : Response := .arr [.int 1, .arr [.arr [], .str [7]], .nil]
    q.Reachable ∧ Describes pieces v ∧
      ∃ q' encoding body, q.writeFrame pieces 64 = .ok q' ∧
        q.Grown (Bytes.littleEndian 4 body.length ++ body) q' ∧ body.length < 0x100000000 ∧
        v.written = .ok encoding ∧
        if encoding.length ≤ 64 then body = encoding
        else (Response.error .tooBig "response is too big").written = .ok body := by
  intro q pieces v
  have hq : q.Reachable := by
    have happended : Reachable ⟨#[1, 2, 3], 0, 3, []⟩ :=
      .call (.append [1, 2, 3]) (.withCapacity 0) trivial (by cbv)
    have hconsumed : Reachable ⟨#[1, 2, 3], 2, 3, []⟩ :=
      .call (.consume 2) happended ⟨⟨3, rfl, by decide⟩, by simp⟩ (by cbv)
    exact .call .pushSlot hconsumed trivial (by cbv)
  have hpieces : Describes pieces v := by
    have hinner := Describes.counted (.cons (.deferred .nil) (.cons (.value (.str [7])) .nil))
    exact .deferred (.cons (.int 1) (.cons hinner (.cons .nil .nil)))
  exact ⟨hq, hpieces, hq.writeFrame_grows hpieces (by decide)⟩

end Buffer

end KeyServer
