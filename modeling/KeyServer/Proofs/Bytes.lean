import KeyServer.Bytes
import Mathlib.Algebra.Ring.Nat
import Mathlib.Data.List.Basic

/-! # Numbers and cuts

Numbers are read back as they were written, up to the bytes that do not fit
(`value_littleEndian`), and written back as they were read (`littleEndian_value`).  A cut is a
`take` and a `drop` (`split?_eq`).
-/

namespace KeyServer.Bytes

/-- **Reading back** gives the part of a number that fits. -/
theorem value_littleEndian (w n : Nat) : value (littleEndian w n) = n % 256 ^ w := by
  induction w generalizing n with
  | zero => exact (Nat.mod_one n).symm
  | succ w ih =>
    have hbyte : (UInt8.ofNat (n % 256)).toNat = n % 256 := by
      rw [UInt8.toNat_ofNat']
      omega
    rw [littleEndian, value_cons, hbyte, ih, Nat.pow_succ, Nat.mul_comm (256 ^ w), Nat.mod_mul]

theorem value_littleEndian_of_lt {w n : Nat} (h : n < 256 ^ w) : value (littleEndian w n) = n := by
  rw [value_littleEndian, Nat.mod_eq_of_lt h]

theorem value_lt (b : Bytes) : value b < 256 ^ b.length := by
  induction b with
  | nil => exact Nat.zero_lt_one
  | cons byte b ih =>
    have hbyte := byte.toNat_lt
    rw [value_cons, List.length_cons, Nat.pow_succ]
    omega

/-- **Writing back** a number that was read gives the same bytes. -/
theorem littleEndian_value (b : Bytes) : littleEndian b.length (value b) = b := by
  induction b with
  | nil => rfl
  | cons byte b ih =>
    have hbyte := byte.toNat_lt
    have hlow : (byte.toNat + 256 * value b) % 256 = byte.toNat := by omega
    have hhigh : (byte.toNat + 256 * value b) / 256 = value b := by omega
    rw [value_cons, List.length_cons, littleEndian, hlow, hhigh, ih, UInt8.ofNat_toNat]

/-- Cutting off a number that was put before other bytes. -/
theorem split?_littleEndian (w n : Nat) (rest : Bytes) :
    split? w (littleEndian w n ++ rest) = some (littleEndian w n, rest) := by
  have hcut := split?_append (littleEndian w n) rest
  rwa [length_littleEndian] at hcut

theorem split?_eq (n : Nat) (b : Bytes) :
    split? n b = if n ≤ b.length then some (b.take n, b.drop n) else none := by
  split
  · next h => exact split?_eq_some_iff.mpr ⟨(List.take_append_drop n b).symm, by simp [h]⟩
  · next h => exact split?_eq_none_iff.mpr (by omega)

end KeyServer.Bytes
