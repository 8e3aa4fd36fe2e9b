import KeyServer.Proofs.Request

/-! # The parser reads exactly what is written

* **`parse_eq_ok_iff`**: the bodies that are read are the ones that `body` writes for so many
  arguments of such lengths as their numbers can tell, and for not more than allowed.
* **`parse_exact`**: so a body is read exactly if some frame has it, no beginning and no
  continuation of such a body is read, and a frame is complete with its last byte and not before.
-/

namespace KeyServer.Request

variable {args args' : List Bytes} {b rest : Bytes} {max max' : Nat}

/-! ## Reading -/

/-- **Arguments that are read** were written before the rest. -/
theorem parseArgs_eq_ok {count : Nat} : ∀ {done : List Bytes} {b : Bytes},
    parseArgs count done b = .ok (args, rest) →
      ∃ new, args = done.reverse ++ new ∧ new.length = count ∧
        (∀ arg ∈ new, arg.length < 0x100000000) ∧ b = new.flatMap Bytes.sized ++ rest := by
  induction count with
  | zero =>
    rintro done b ⟨⟩
    exact ⟨[], (List.append_nil _).symm, rfl, by simp, rfl⟩
  | succ count ih =>
    intro done b h
    rw [parseArgs] at h
    split at h
    · cases h
    · next length b₁ hlength =>
      dsimp only at h
      split at h
      · cases h
      · next arg b₂ harg =>
        obtain ⟨rfl, hwidth⟩ := Bytes.split?_eq_some_iff.mp hlength
        obtain ⟨rfl, hsize⟩ := Bytes.split?_eq_some_iff.mp harg
        obtain ⟨new, rfl, hcount, hsizes, rfl⟩ := ih h
        have hheader : Bytes.littleEndian 4 arg.length = length := by
          rw [hsize, ← hwidth, Bytes.littleEndian_value]
        have hlt : arg.length < 0x100000000 := by
          have hvalue := Bytes.value_lt length
          rw [hwidth] at hvalue
          omega
        refine ⟨arg :: new, by simp, by rw [List.length_cons, hcount],
          List.forall_mem_cons.mpr ⟨hlt, hsizes⟩, ?_⟩
        rw [List.flatMap_cons, Bytes.sized, hheader]
        simp only [List.append_assoc]

/-- **A body** is what is written for some arguments. -/
theorem parse_eq_ok_iff :
    parse b max = .ok args ↔ args.length ≤ max ∧ args.length < 0x100000000 ∧
      (∀ arg ∈ args, arg.length < 0x100000000) ∧ b = body args := by
  constructor
  · intro h
    rw [parse] at h
    split at h
    · cases h
    · next countBytes b₁ hcut =>
      dsimp only at h
      obtain ⟨rfl, hwidth⟩ := Bytes.split?_eq_some_iff.mp hcut
      split at h
      · cases h
      · next hcount =>
        split at h
        · cases h
        · next read hargs =>
          cases h
          obtain ⟨new, rfl, hlength, hsizes, rfl⟩ := parseArgs_eq_ok hargs
          have hvalue := Bytes.value_lt countBytes
          rw [hwidth] at hvalue
          refine ⟨by omega, by omega, hsizes, ?_⟩
          rw [body, hlength, ← hwidth, Bytes.littleEndian_value, List.append_nil]
        · cases h
  · rintro ⟨hcount, hargs, hsizes, rfl⟩
    exact parse_body hcount hargs hsizes

/-- What is read does not depend on how much more is allowed. -/
theorem parse_mono (h : parse b max = .ok args) (hmax : max ≤ max') :
    parse b max' = .ok args := by
  rw [parse_eq_ok_iff] at h ⊢
  exact ⟨Nat.le_trans h.1 hmax, h.2⟩

/-- Bytes after a body are left over. -/
theorem parse_append (h : parse b max = .ok args) (hrest : rest ≠ []) :
    parse (b ++ rest) max = .error (.protocol (.requestTrailing rest.length)) := by
  obtain ⟨hcount, hargs, hsizes, rfl⟩ := parse_eq_ok_iff.mp h
  have hvalue : Bytes.value (Bytes.littleEndian 4 args.length) = args.length :=
    Bytes.value_littleEndian_of_lt hargs
  rw [parse, body, List.append_assoc, Bytes.split?_littleEndian]
  dsimp only
  rw [hvalue, if_neg (by omega), parseArgs_sized [] rest hsizes]
  cases rest with
  | nil => exact absurd rfl hrest
  | cons byte rest => rfl

/-- **A body ends with itself**: nothing that goes on is a body. -/
theorem eq_nil_of_parse_append (h : parse b max = .ok args)
    (h' : parse (b ++ rest) max' = .ok args') : rest = [] := by
  by_contra hrest
  have hmore := parse_append (parse_mono h (Nat.le_max_left max max')) hrest
  rw [parse_mono h' (Nat.le_max_right max max')] at hmore
  cases hmore

/-- **Too many arguments** are refused by their number alone, whatever follows it. -/
theorem parse_eq_tooManyArgs_iff {count : Nat} :
    parse b max = .error (.tooManyArgs count max') ↔
      max' = max ∧ 4 ≤ b.length ∧ Bytes.value (b.take 4) = count ∧ max < count := by
  rw [parse, Bytes.split?_eq]
  by_cases hwidth : 4 ≤ b.length
  · rw [if_pos hwidth]
    dsimp only
    split
    · next hmany =>
      rw [Except.error.injEq, Error.tooManyArgs.injEq]
      constructor
      · rintro ⟨rfl, rfl⟩
        exact ⟨rfl, hwidth, rfl, hmany⟩
      · rintro ⟨rfl, -, rfl, -⟩
        exact ⟨rfl, rfl⟩
    · next hfew =>
      refine iff_of_false (fun h => ?_) fun h => hfew (h.2.2.1 ▸ h.2.2.2)
      split at h <;> cases h
  · rw [if_neg hwidth]
    exact iff_of_false (fun h => by cases h) fun h => hwidth h.2.1

/-! ## Frames -/

/-- These bytes follow the header of the frame that is written for some arguments. -/
def Writes (args : List Bytes) (limit : Nat) (b : Bytes) : Prop :=
  ∃ header, header.length = Frame.headerSize ∧ encode args limit = .ok (header ++ b)

theorem writes_iff {limit : Nat} : Writes args limit b ↔ b.length ≤ limit ∧ b = body args := by
  have hframe : Frame.encode (body args)
      = Bytes.littleEndian Frame.headerSize (body args).length ++ body args := rfl
  constructor
  · rintro ⟨header, hheader, h⟩
    obtain ⟨hlimit, heq⟩ := encode_eq_ok_iff.mp h
    rw [hframe] at heq
    obtain ⟨-, rfl⟩ := List.append_inj heq (by rw [hheader, Bytes.length_littleEndian])
    exact ⟨hlimit, rfl⟩
  · rintro ⟨hlimit, rfl⟩
    exact ⟨_, Bytes.length_littleEndian _ _, encode_eq_ok_iff.mpr ⟨hlimit, hframe⟩⟩

/-- What is read, and what is not, of bodies with at most `max` arguments. -/
structure ReadsExactly (b : Bytes) (max : Nat) : Prop where
  /-- A body is read if some frame has it, and then every frame that it fits into has it. -/
  accepts : ∀ args, parse b max = .ok args ↔ args.length ≤ max ∧
    ∃ limit, b.length ≤ limit ∧ limit < 0x100000000 ∧ Writes args limit b
  writes : ∀ args limit, parse b max = .ok args → b.length ≤ limit → Writes args limit b
  truncated : ∀ args front max', parse b max = .ok args → front <+: b → front ≠ b →
    ∃ e, parse front max' = .error e
  trailing : ∀ args rest max', parse b max = .ok args → rest ≠ [] →
    ∃ e, parse (b ++ rest) max' = .error e
  tooMany : ∀ count, parse b max = .error (.tooManyArgs count max) ↔
    4 ≤ b.length ∧ Bytes.value (b.take 4) = count ∧ max < count

/-- A frame is a header that tells the length of the body, and the body.  Whoever accepts the
body finds the frame complete with its last byte and not before. -/
structure Framed (args : List Bytes) (frame : Bytes) : Prop where
  header : frame = Bytes.littleEndian Frame.headerSize (body args).length ++ body args
  value : Bytes.value (frame.take Frame.headerSize) = (body args).length
  complete : ∀ max, (body args).length ≤ max →
    Frame.bodyLength? frame max = .ok (some (body args).length)
  incomplete : ∀ max front, (body args).length ≤ max → front <+: frame → front ≠ frame →
    Frame.bodyLength? front max = .ok none

theorem readsExactly (hb : b.length < 0x100000000) (max : Nat) : ReadsExactly b max where
  accepts args := by
    rw [parse_eq_ok_iff]
    constructor
    · rintro ⟨hcount, -, -, rfl⟩
      exact ⟨hcount, _, Nat.le_refl _, hb, writes_iff.mpr ⟨Nat.le_refl _, rfl⟩⟩
    · rintro ⟨hcount, limit, -, -, h⟩
      obtain ⟨-, rfl⟩ := writes_iff.mp h
      exact parse_eq_ok_iff.mp (parse_body_of_length hb hcount)
  writes args limit h hlimit := by
    obtain ⟨-, -, -, rfl⟩ := parse_eq_ok_iff.mp h
    exact writes_iff.mpr ⟨hlimit, rfl⟩
  truncated args front max' h hfront hne := by
    obtain ⟨rest, rfl⟩ := hfront
    cases hparse : parse front max' with
    | error e => exact ⟨e, rfl⟩
    | ok args' =>
      rw [eq_nil_of_parse_append hparse h, List.append_nil] at hne
      exact absurd rfl hne
  trailing args rest max' h hrest := by
    cases hparse : parse (b ++ rest) max' with
    | error e => exact ⟨e, rfl⟩
    | ok args' => exact absurd (eq_nil_of_parse_append h hparse) hrest
  tooMany count := by rw [parse_eq_tooManyArgs_iff, and_iff_right rfl]

theorem framed (hbody : (body args).length < 0x100000000) :
    Framed args (Frame.encode (body args)) := by
  have htake : (Frame.encode (body args)).take 4 = Bytes.littleEndian 4 (body args).length :=
    List.take_left' (Bytes.length_littleEndian _ _)
  have hvalue := Frame.value_header hbody
  have hlength : (Frame.encode (body args)).length = 4 + (body args).length := by
    rw [Frame.encode, Bytes.sized, List.length_append, Bytes.length_littleEndian]
  refine ⟨rfl, htake ▸ hvalue, fun max hmax => ?_, fun max front hmax hfront hne => ?_⟩
  · rw [Frame.bodyLength?_eq, htake]
    rw [Frame.headerSize] at hvalue
    rw [hvalue, if_neg (by omega), if_neg (by omega), if_neg (by omega)]
  · obtain ⟨rest, hrest⟩ := hfront
    have hlt : front.length < 4 + (body args).length := by
      rw [← hlength, ← hrest, List.length_append]
      have hpos := List.length_pos_iff.mpr fun hnone : rest = [] =>
        hne (by rw [← hrest, hnone, List.append_nil])
      omega
    rw [Frame.bodyLength?_eq]
    by_cases hheader : front.length < 4
    · rw [if_pos hheader]
    · -- The header is there, and tells of more bytes than are.
      have hfront : front.take 4 = Bytes.littleEndian 4 (body args).length := by
        rw [← htake, ← hrest, List.take_append_of_le_length (by omega)]
      rw [Frame.headerSize] at hvalue
      rw [hfront, hvalue, if_neg hheader, if_neg (by omega), if_pos hlt]

/-- **The parser reads exactly what is written**, within any limit that a header can tell, and
frames are told apart from their beginnings. -/
theorem parse_exact :
    (∀ b max, b.length < 0x100000000 → ReadsExactly b max) ∧
      ∀ args limit frame, limit < 0x100000000 → encode args limit = .ok frame →
        Framed args frame := by
  refine ⟨fun b max hb => readsExactly hb max, fun args limit frame hlimit h => ?_⟩
  obtain ⟨hbody, rfl⟩ := encode_eq_ok_iff.mp h
  exact framed (Nat.lt_of_le_of_lt hbody hlimit)

/-- A request of two arguments, the second of which is empty. -/
theorem parse_exact_two :
    ([2, 0, 0, 0, 1, 0, 0, 0, 107, 0, 0, 0, 0] : Bytes).length < 0x100000000 ∧
      encode [[107], []] 64
        = .ok [13, 0, 0, 0, 2, 0, 0, 0, 1, 0, 0, 0, 107, 0, 0, 0, 0] ∧
      ReadsExactly [2, 0, 0, 0, 1, 0, 0, 0, 107, 0, 0, 0, 0] 2 ∧
      Framed [[107], []] [13, 0, 0, 0, 2, 0, 0, 0, 1, 0, 0, 0, 107, 0, 0, 0, 0] :=
  ⟨by decide, rfl, parse_exact.1 _ 2 (by decide), parse_exact.2 _ 64 _ (by decide) rfl⟩

end KeyServer.Request
