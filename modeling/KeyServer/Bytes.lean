/-!
# Byte strings

Keys, values, names, request arguments and frames are all lists of bytes.  Two
operations carry the whole wire format:

* `Bytes.littleEndian w n` writes the low `w` bytes of a number, least significant
  first, and `Bytes.value` reads them back;
* `Bytes.split? n b` cuts exactly `n` bytes off the front, or nothing
  (`split?_eq_some_iff`).

Names of members and keys are ordered as byte strings: the first difference decides,
and a proper beginning comes first.
-/

namespace KeyServer

/-- A string of bytes. -/
abbrev Bytes := List UInt8

namespace Bytes

/-! ## Numbers -/

/-- The low `w` bytes of `n`, least significant first; higher bits are dropped. -/
def littleEndian : (w n : Nat) → Bytes
  | 0, _ => []
  | w + 1, n => UInt8.ofNat (n % 256) :: littleEndian w (n / 256)

/-- The number whose bytes, least significant first, are given. -/
def value : Bytes → Nat
  | [] => 0
  | b :: bs => b.toNat + 256 * value bs

@[simp] theorem littleEndian_zero (n : Nat) : littleEndian 0 n = [] := rfl

@[simp] theorem value_nil : value [] = 0 := rfl

@[simp] theorem value_cons (b : UInt8) (bs : Bytes) : value (b :: bs) = b.toNat + 256 * value bs :=
  rfl

@[simp] theorem length_littleEndian (w n : Nat) : (littleEndian w n).length = w := by
  induction w generalizing n with
  | zero => rfl
  | succ w ih => simp [littleEndian, ih]

/-! ## Cutting -/

/-- The first `n` bytes and the rest, when there are at least `n`. -/
def split? (n : Nat) (b : Bytes) : Option (Bytes × Bytes) :=
  let (front, rest) := b.splitAt n
  if front.length = n then some (front, rest) else none

/-- A cut succeeds exactly when the bytes are a front of length `n` and a rest. -/
theorem split?_eq_some_iff {n : Nat} {b front rest : Bytes} :
    split? n b = some (front, rest) ↔ b = front ++ rest ∧ front.length = n := by
  simp only [split?, List.splitAt_eq]
  split
  · next h =>
    constructor
    · intro e
      cases e
      exact ⟨(List.take_append_drop n b).symm, h⟩
    · rintro ⟨rfl, rfl⟩
      simp
  · next h =>
    constructor
    · intro e
      cases e
    · rintro ⟨rfl, rfl⟩
      simp at h

theorem split?_append (front rest : Bytes) :
    split? front.length (front ++ rest) = some (front, rest) :=
  split?_eq_some_iff.mpr ⟨rfl, rfl⟩

theorem split?_eq_none_iff {n : Nat} {b : Bytes} : split? n b = none ↔ b.length < n := by
  simp only [split?, List.splitAt_eq, List.length_take]
  split <;> simp <;> omega

end Bytes

end KeyServer
