import KeyServer.Proofs.Buffer.Contents
import KeyServer.Response.Writer

/-! # What the writers append

A writer of a buffer `Appends` a byte string when it succeeds on every buffer, whatever
that holds, and adds exactly these bytes behind what is unread, without touching a pending
slot.  Every writer of a value appends its encoding (`appends_writeValue`).  So does an
array whose count comes last, once it is closed (`Holds.closeArray`).
-/

namespace KeyServer.Buffer

variable {q : Buffer} {data : Bytes} {marks : List Nat}

/-- On every buffer a writer succeeds and adds some bytes at the end. -/
def Appends (write : Buffer → Except Fault Buffer) (bytes : Bytes) : Prop :=
  ∀ ⦃q : Buffer⦄ ⦃data : Bytes⦄ ⦃marks : List Nat⦄, q.Holds data marks →
    ∃ q', write q = .ok q' ∧ q'.Holds (data ++ bytes) marks

theorem appends_append (extra : Bytes) : Appends (·.append extra) extra :=
  fun _ _ _ h => h.append extra

theorem appends_pure : Appends .ok [] := fun q _ _ h => ⟨q, rfl, by rwa [List.append_nil]⟩

/-- One writer after another. -/
theorem Appends.bind {write next : Buffer → Except Fault Buffer} {a b : Bytes}
    (hw : Appends write a) (hn : Appends next b) :
    Appends (fun q => write q >>= next) (a ++ b) := by
  intro q data marks h
  obtain ⟨q₁, hwrite, h₁⟩ := hw h
  obtain ⟨q₂, hnext, h₂⟩ := hn h₁
  refine ⟨q₂, by simp only [hwrite, ok_bind, hnext], ?_⟩
  rwa [← List.append_assoc]

/-! ## Values -/

theorem appends_writeTag (tag : Tag) : Appends (·.writeTag tag) [tag.byte] :=
  appends_append [tag.byte]

theorem appends_writeSized (data : Bytes) : Appends (·.writeSized data) (Bytes.sized data) :=
  (appends_append _).bind (appends_append data)

theorem appends_writeNil : Appends writeNil (Response.encode .nil) := appends_writeTag .nil

theorem appends_writeErrorNumber (code : Nat) (message : String) :
    Appends (·.writeErrorNumber code message)
      (Tag.err.byte :: Bytes.littleEndian 4 code ++ Bytes.sized (Utf8.encode message)) :=
  (appends_writeTag .err).bind ((appends_append _).bind (appends_writeSized _))

theorem appends_writeError (code : ErrorCode) (message : String) :
    Appends (·.writeError code message) (Response.error code message).encode := by
  have hcode : (UInt32.ofNat code.number).toNat = code.number := by cases code <;> rfl
  rw [Response.error, Response.encode, hcode]
  exact appends_writeErrorNumber code.number message

theorem appends_writeStr (data : Bytes) :
    Appends (·.writeStr data) (Response.encode (.str data)) :=
  (appends_writeTag .str).bind (appends_writeSized data)

theorem appends_writeInt (value : Int64) :
    Appends (·.writeInt value) (Response.encode (.int value)) :=
  (appends_writeTag .int).bind (appends_append _)

theorem appends_writeDouble (value : Double) :
    Appends (·.writeDouble value) (Response.encode (.dbl value)) :=
  (appends_writeTag .dbl).bind (appends_append _)

theorem appends_writeArray (count : Nat) :
    Appends (·.writeArray count) (Tag.arr.byte :: Bytes.littleEndian 4 count) :=
  (appends_writeTag .arr).bind (appends_append _)

mutual

/-- **Writing a value** appends its encoding. -/
theorem appends_writeValue : ∀ value : Response, Appends (writeValue · value) value.encode
  | .nil => by
    simp only [writeValue]
    exact appends_writeNil
  | .err code message => by
    simp only [writeValue]
    exact appends_writeErrorNumber _ _
  | .str data => by
    simp only [writeValue]
    exact appends_writeStr data
  | .int value => by
    simp only [writeValue]
    exact appends_writeInt value
  | .dbl value => by
    simp only [writeValue]
    exact appends_writeDouble value
  | .arr items => by
    simp only [writeValue, Response.encode]
    exact (appends_writeArray items.length).bind (appends_writeValues items)

theorem appends_writeValues : ∀ values : List Response,
    Appends (writeValues · values) (Response.encodeAll values)
  | [] => by
    simp only [writeValues]
    exact appends_pure
  | value :: rest => by
    simp only [writeValues, Response.encodeAll]
    exact (appends_writeValue value).bind (appends_writeValues rest)

end

/-! ## Arrays whose count comes last -/

namespace Holds

theorem openArray (h : q.Holds data marks) :
    ∃ q', q.openArray = .ok q' ∧
      q'.Holds (data ++ [Tag.arr.byte] ++ List.replicate slotWidth 0)
        ((data ++ [Tag.arr.byte]).length :: marks) := by
  obtain ⟨q₁, htag, h₁⟩ := appends_writeTag .arr h
  obtain ⟨q₂, hpush, h₂⟩ := h₁.pushSlot
  exact ⟨q₂, by simp only [Buffer.openArray, htag, ok_bind, hpush], h₂⟩

/-- **Closing** an array leaves its encoding. -/
theorem closeArray {values : List Response}
    (h : q.Holds (data ++ [Tag.arr.byte] ++ List.replicate slotWidth 0 ++
      Response.encodeAll values) ((data ++ [Tag.arr.byte]).length :: marks)) :
    ∃ q', q.closeArray values.length = .ok q' ∧
      q'.Holds (data ++ Response.encode (.arr values)) marks := by
  obtain ⟨q', hpop, h'⟩ := h.popSlot (by simp) values.length
  refine ⟨q', hpop, ?_⟩
  rw [Response.encode]
  simpa [slotWidth] using h'

end Holds

end KeyServer.Buffer
