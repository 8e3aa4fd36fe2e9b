import KeyServer.Text.Integer
import Mathlib.Data.List.Forall2
import Mathlib.Data.List.Induction
import Mathlib.Data.Nat.Digits.Defs

/-! # Letters and numerals

Names match up to the case of their letters and integers are read digit by digit.  Both are said
here without the functions that do it.

* **`Ascii.sameLetters_iff`**: bytes match one by one, and two bytes that differ are the capital and
  the small form of a letter (`SameLetter`).
* **`Integer.ofBytes?_eq_some_iff`**: what is read are the numerals that denote an integer which
  fits into a signed 64-bit word (`Denotes`).
-/

namespace KeyServer

namespace Ascii

/-! ## Letters -/

/-- Whether a byte is a capital letter. -/
def IsCapital (b : UInt8) : Prop := 65 ≤ b.toNat ∧ b.toNat ≤ 90

/-- The same byte, or the capital and the small form of one letter. -/
def SameLetter (a b : UInt8) : Prop :=
  a = b ∨ IsCapital a ∧ b.toNat = a.toNat + 32 ∨ IsCapital b ∧ a.toNat = b.toNat + 32

theorem toNat_lower (b : UInt8) :
    (lower b).toNat = if 65 ≤ b.toNat ∧ b.toNat ≤ 90 then b.toNat + 32 else b.toNat := by
  have hcapital : (65 ≤ b ∧ b ≤ 90) ↔ 65 ≤ b.toNat ∧ b.toNat ≤ 90 := by
    rw [UInt8.le_iff_toNat_le, UInt8.le_iff_toNat_le]
    rfl
  unfold lower
  by_cases h : 65 ≤ b.toNat ∧ b.toNat ≤ 90
  · rw [if_pos (hcapital.mpr h), if_pos h, UInt8.toNat_add]
    show (b.toNat + 32) % 256 = _
    omega
  · rw [if_neg (hcapital.not.mpr h), if_neg h]

theorem lower_eq_lower_iff {a b : UInt8} : lower a = lower b ↔ SameLetter a b := by
  rw [← UInt8.toNat_inj, toNat_lower, toNat_lower, SameLetter, IsCapital, IsCapital,
    ← UInt8.toNat_inj]
  split <;> split <;> omega

/-- **Names match** if their bytes do, up to the case of letters. -/
theorem sameLetters_iff {a b : Bytes} : sameLetters a b = true ↔ List.Forall₂ SameLetter a b := by
  rw [sameLetters, beq_iff_eq, ← List.forall₂_eq_eq_eq, List.forall₂_map_left_iff,
    List.forall₂_map_right_iff]
  simp only [lower_eq_lower_iff]

/-! ## Digits -/

/-- What the digits of a number are worth, the last one once, the one before it tenfold. -/
def decimal (digits : Bytes) : Nat :=
  Nat.ofDigits 10 (digits.reverse.map fun d => d.toNat - 48)

theorem digitsValue_eq (digits : Bytes) : digitsValue digits = decimal digits := by
  rw [digitsValue, decimal]
  induction digits using List.reverseRecOn with
  | nil => rfl
  | append_singleton digits d ih =>
    rw [List.foldl_append, List.reverse_append, List.map_append]
    simp only [List.foldl_cons, List.foldl_nil, List.reverse_singleton, List.map_singleton,
      List.singleton_append, Nat.ofDigits_cons, ih]
    omega

end Ascii

namespace Integer

/-! ## Integers -/

/-- One or more ASCII digits. -/
def IsDigits (b : Bytes) : Prop := b ≠ [] ∧ ∀ d ∈ b, 48 ≤ d.toNat ∧ d.toNat ≤ 57

/-- A numeral of an integer: digits, perhaps with one sign before them. -/
inductive Denotes : Bytes → Int → Prop where
  | bare {digits : Bytes} (hdigits : IsDigits digits) : Denotes digits (Ascii.decimal digits)
  | plus {digits : Bytes} (hdigits : IsDigits digits) :
      Denotes (43 :: digits) (Ascii.decimal digits)
  | minus {digits : Bytes} (hdigits : IsDigits digits) :
      Denotes (45 :: digits) (-(Ascii.decimal digits : Int))

theorem isDigit_iff (d : UInt8) : Ascii.isDigit d = true ↔ 48 ≤ d.toNat ∧ d.toNat ≤ 57 := by
  rw [Ascii.isDigit, Bool.and_eq_true, decide_eq_true_iff, decide_eq_true_iff,
    UInt8.le_iff_toNat_le, UInt8.le_iff_toNat_le]
  rfl

theorem digits?_eq_some_iff {b : Bytes} {n : Nat} :
    digits? b = some n ↔ IsDigits b ∧ Ascii.decimal b = n := by
  have hall : (!b.isEmpty && b.all Ascii.isDigit) = true ↔ IsDigits b := by
    rw [Bool.and_eq_true, List.all_eq_true, IsDigits]
    simp only [isDigit_iff]
    cases b <;> simp
  rw [digits?, ← Ascii.digitsValue_eq]
  by_cases h : IsDigits b
  · rw [if_pos (hall.mpr h), Option.some_inj]
    exact ⟨fun heq => ⟨h, heq⟩, fun heq => heq.2⟩
  · rw [if_neg (hall.not.mpr h)]
    exact ⟨fun heq => (by cases heq), fun heq => absurd heq.1 h⟩

/-- A sign is no digit. -/
theorem not_isDigits_cons {b : UInt8} (hb : b = 43 ∨ b = 45) (bs : Bytes) :
    ¬IsDigits (b :: bs) := by
  intro h
  have hdigit := h.2 b List.mem_cons_self
  rcases hb with rfl | rfl <;> exact absurd hdigit (by decide)

/-- **A numeral** is read as the integer that it denotes. -/
theorem signed?_eq_some_iff {b : Bytes} {i : Int} : signed? b = some i ↔ Denotes b i := by
  constructor
  · intro h
    cases b with
    | nil => cases h
    | cons x b =>
      rw [signed?] at h
      split at h
      · next hplus =>
        obtain ⟨n, hn, rfl⟩ := Option.map_eq_some_iff.mp h
        obtain ⟨hdigits, rfl⟩ := digits?_eq_some_iff.mp hn
        exact hplus ▸ .plus hdigits
      · split at h
        · next hminus =>
          obtain ⟨n, hn, rfl⟩ := Option.map_eq_some_iff.mp h
          obtain ⟨hdigits, rfl⟩ := digits?_eq_some_iff.mp hn
          exact hminus ▸ .minus hdigits
        · obtain ⟨n, hn, rfl⟩ := Option.map_eq_some_iff.mp h
          obtain ⟨hdigits, rfl⟩ := digits?_eq_some_iff.mp hn
          exact .bare hdigits
  · intro h
    cases h with
    | bare hdigits =>
      obtain ⟨x, b, rfl⟩ := List.exists_cons_of_ne_nil hdigits.1
      have hsign : ¬(x = 43 ∨ x = 45) := fun hx => not_isDigits_cons hx b hdigits
      rw [signed?, if_neg fun hx => hsign (.inl hx), if_neg fun hx => hsign (.inr hx),
        digits?_eq_some_iff.mpr ⟨hdigits, rfl⟩]
      rfl
    | plus hdigits =>
      rw [signed?, if_pos rfl, digits?_eq_some_iff.mpr ⟨hdigits, rfl⟩]
      rfl
    | minus hdigits =>
      rw [signed?, if_neg (by decide), if_pos rfl, digits?_eq_some_iff.mpr ⟨hdigits, rfl⟩]
      rfl

/-- **What is read** are the numerals of the integers that fit into a signed 64-bit word. -/
theorem ofBytes?_eq_some_iff {b : Bytes} {i : Int} :
    ofBytes? b = some i ↔ Denotes b i ∧ -0x8000000000000000 ≤ i ∧ i < 0x8000000000000000 := by
  rw [ofBytes?, Option.filter_eq_some_iff, signed?_eq_some_iff, fitsWord, Bool.and_eq_true,
    decide_eq_true_iff, decide_eq_true_iff]

end Integer

end KeyServer
