import KeyServer.Proofs.Frame
import KeyServer.Request

/-! # Requests are read as they were written

**`parse_body`** reads the arguments from the body that `encode` puts into a frame, as long
as their number and lengths fit into 32 bits.  They do when the body itself is that short
(`parse_body_of_length`).
-/

namespace KeyServer.Request

variable {args : List Bytes} {max : Nat}

/-- Reading arguments that were written before other bytes. -/
theorem parseArgs_sized : ∀ {args : List Bytes} (done : List Bytes) (rest : Bytes),
    (∀ arg ∈ args, arg.length < 0x100000000) →
    parseArgs args.length done (args.flatMap Bytes.sized ++ rest)
      = .ok (done.reverse ++ args, rest)
  | [], done, rest, _ => by simp [parseArgs]
  | arg :: args, done, rest, h => by
    have hvalue : Bytes.value (Bytes.littleEndian 4 arg.length) = arg.length :=
      Bytes.value_littleEndian_of_lt (h arg List.mem_cons_self)
    rw [List.flatMap_cons, Bytes.sized, List.append_assoc, List.append_assoc, List.length_cons,
      parseArgs, Bytes.split?_littleEndian]
    dsimp only
    rw [hvalue, Bytes.split?_append]
    dsimp only
    rw [parseArgs_sized (arg :: done) rest fun a ha => h a (List.mem_cons_of_mem arg ha)]
    simp

/-- **Reading a body** gives the arguments it was written from. -/
theorem parse_body (hcount : args.length ≤ max) (hargs : args.length < 0x100000000)
    (hsizes : ∀ arg ∈ args, arg.length < 0x100000000) : parse (body args) max = .ok args := by
  have hvalue : Bytes.value (Bytes.littleEndian 4 args.length) = args.length :=
    Bytes.value_littleEndian_of_lt hargs
  have hparse := parseArgs_sized [] [] hsizes
  rw [List.append_nil] at hparse
  rw [parse, body, Bytes.split?_littleEndian]
  dsimp only
  rw [hvalue, if_neg (by omega), hparse]
  rfl

/-! ## Lengths -/

theorem encode_eq_ok_iff {frame : Bytes} :
    encode args max = .ok frame ↔ (body args).length ≤ max ∧ frame = Frame.encode (body args) := by
  unfold encode
  dsimp only
  split
  · next h =>
    constructor
    · intro he
      cases he
    · intro he
      omega
  · next h =>
    rw [Except.ok.injEq]
    exact ⟨fun he => ⟨by omega, he.symm⟩, fun he => he.2.symm⟩

theorem length_flatMap_sized (args : List Bytes) :
    args.length ≤ (args.flatMap Bytes.sized).length ∧
      ∀ arg ∈ args, arg.length ≤ (args.flatMap Bytes.sized).length := by
  induction args with
  | nil => simp
  | cons arg args ih =>
    have hlength : ((arg :: args).flatMap Bytes.sized).length
        = 4 + arg.length + (args.flatMap Bytes.sized).length := by
      rw [List.flatMap_cons, List.length_append, Bytes.sized, List.length_append,
        Bytes.length_littleEndian]
    rw [hlength]
    refine ⟨by rw [List.length_cons]; omega, fun a ha => ?_⟩
    rcases List.mem_cons.mp ha with rfl | ha
    · omega
    · have := ih.2 a ha
      omega

/-- **A body that is short enough** is read back. -/
theorem parse_body_of_length {maxArgs : Nat} (hbody : (body args).length < 0x100000000)
    (hcount : args.length ≤ maxArgs) : parse (body args) maxArgs = .ok args := by
  obtain ⟨hargs, hsizes⟩ := length_flatMap_sized args
  rw [body, List.length_append, Bytes.length_littleEndian] at hbody
  exact parse_body hcount (by omega) fun arg harg => by
    have := hsizes arg harg
    omega

end KeyServer.Request
