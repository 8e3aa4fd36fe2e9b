import KeyServer.Text.Utf8
import Mathlib.Data.List.Basic

/-! # Text is read as it was written

The reader gets from the first byte of a character how many follow and which the second one
may be (`first_ascii` up to `first_four`), so it finishes exactly the character that was
written (`decodeFrom_char`).

* **`decodeLossy_encode`** for a whole text.
-/

namespace KeyServer.Utf8

variable {b : UInt8}

/-! ## First bytes -/

theorem first_ascii (h : b.toNat < 0x80) : first b = ([Char.ofNat b.toNat], none) := by
  rw [first, if_pos (UInt8.lt_iff_toNat_lt.mpr h)]

theorem first_two (h : 0xC2 ≤ b.toNat) (h' : b.toNat ≤ 0xDF) :
    first b = ([], some ⟨b.toNat - 0xC0, 0, 0x80, 0xBF⟩) := by
  simp only [first, UInt8.lt_iff_toNat_lt, UInt8.le_iff_toNat_le]
  rw [if_neg (by simp; omega), if_pos (by simp; omega)]

theorem first_three (h : 0xE0 ≤ b.toNat) (h' : b.toNat ≤ 0xEF) :
    first b = ([], some ⟨b.toNat - 0xE0, 1, if b.toNat = 0xE0 then 0xA0 else 0x80,
      if b.toNat = 0xED then 0x9F else 0xBF⟩) := by
  simp only [first, UInt8.lt_iff_toNat_lt, UInt8.le_iff_toNat_le, ← UInt8.toNat_inj]
  rw [if_neg (by simp; omega), if_neg (by simp; omega)]
  by_cases h₁ : b.toNat = 0xE0
  · simp [h₁]
  · by_cases h₂ : b.toNat = 0xED
    · simp [h₂]
    · rw [if_neg (by simpa), if_neg (by simpa), if_pos (by simp; omega), if_neg h₁, if_neg h₂]

theorem first_four (h : 0xF0 ≤ b.toNat) (h' : b.toNat ≤ 0xF4) :
    first b = ([], some ⟨b.toNat - 0xF0, 2, if b.toNat = 0xF0 then 0x90 else 0x80,
      if b.toNat = 0xF4 then 0x8F else 0xBF⟩) := by
  simp only [first, UInt8.lt_iff_toNat_lt, UInt8.le_iff_toNat_le, ← UInt8.toNat_inj]
  rw [if_neg (by simp; omega), if_neg (by simp; omega), if_neg (by simp; omega),
    if_neg (by simp; omega), if_neg (by simp; omega)]
  by_cases h₁ : b.toNat = 0xF0
  · simp [h₁]
  · by_cases h₂ : b.toNat = 0xF4
    · simp [h₂]
    · rw [if_neg (by simpa), if_pos (by simp; omega), if_neg h₁, if_neg h₂]

/-! ## Characters -/

variable {value more : Nat} {low high : UInt8}

theorem step_more (h : low.toNat ≤ b.toNat) (h' : b.toNat ≤ high.toNat) :
    step (some ⟨value, more + 1, low, high⟩) b
      = ([], some ⟨value * 64 + (b.toNat - 0x80), more, 0x80, 0xBF⟩) := by
  rw [step, if_pos ⟨UInt8.le_iff_toNat_le.mpr h, UInt8.le_iff_toNat_le.mpr h'⟩]

theorem step_last (h : low.toNat ≤ b.toNat) (h' : b.toNat ≤ high.toNat) :
    step (some ⟨value, 0, low, high⟩) b
      = ([Char.ofNat (value * 64 + (b.toNat - 0x80))], none) := by
  rw [step, if_pos ⟨UInt8.le_iff_toNat_le.mpr h, UInt8.le_iff_toNat_le.mpr h'⟩]

theorem toNat_ofNat_of_lt {n : Nat} (h : n < 256) : (UInt8.ofNat n).toNat = n := by
  rw [UInt8.toNat_ofNat', Nat.mod_eq_of_lt h]

/-- A character that was written is read. -/
theorem decodeFrom_char (done : List Char) (c : Char) (bs : Bytes) :
    decodeFrom done none (String.utf8EncodeChar c ++ bs) = decodeFrom (c :: done) none bs := by
  have hvalid : c.toNat < 0xD800 ∨ 0xDFFF < c.toNat ∧ c.toNat < 0x110000 := c.valid
  have hchar : Char.ofNat c.toNat = c := Char.ofNat_toNat c
  have hv : c.val.toNat = c.toNat := rfl
  unfold String.utf8EncodeChar
  dsimp only
  rw [hv]
  generalize c.toNat = v at *
  -- One case for each number of bytes; the values that no character has are the ones that the
  -- first byte rules out for the second.
  split
  · next h₁ =>
    have hb := toNat_ofNat_of_lt (n := v) (by omega)
    simp only [List.cons_append, List.nil_append, decodeFrom, step]
    rw [first_ascii (by omega), hb, hchar]
    rfl
  · split
    · have hb := toNat_ofNat_of_lt (n := v / 64 % 0x20 + 0xc0) (by omega)
      have hb' := toNat_ofNat_of_lt (n := v % 0x40 + 0x80) (by omega)
      simp only [List.cons_append, List.nil_append, decodeFrom]
      rw [step, first_two (by omega) (by omega)]
      simp only
      rw [step_last (by simp; omega) (by simp; omega), hb, hb']
      have hvalue : (v / 64 % 0x20 + 0xc0 - 0xC0) * 64 + (v % 0x40 + 0x80 - 0x80) = v := by omega
      rw [hvalue, hchar]
      rfl
    · split
      · have hb := toNat_ofNat_of_lt (n := v / 4096 % 0x10 + 0xe0) (by omega)
        have hb' := toNat_ofNat_of_lt (n := v / 64 % 0x40 + 0x80) (by omega)
        have hb'' := toNat_ofNat_of_lt (n := v % 0x40 + 0x80) (by omega)
        simp only [List.cons_append, List.nil_append, decodeFrom]
        rw [step, first_three (by omega) (by omega)]
        simp only
        rw [step_more (by split <;> simp <;> omega) (by split <;> simp <;> omega)]
        simp only
        rw [step_last (by simp; omega) (by simp; omega), hb, hb', hb'']
        have hvalue : ((v / 4096 % 0x10 + 0xe0 - 0xE0) * 64 + (v / 64 % 0x40 + 0x80 - 0x80)) * 64
            + (v % 0x40 + 0x80 - 0x80) = v := by omega
        rw [hvalue, hchar]
        rfl
      · have hb := toNat_ofNat_of_lt (n := v / 262144 % 0x08 + 0xf0) (by omega)
        have hb' := toNat_ofNat_of_lt (n := v / 4096 % 0x40 + 0x80) (by omega)
        have hb'' := toNat_ofNat_of_lt (n := v / 64 % 0x40 + 0x80) (by omega)
        have hb''' := toNat_ofNat_of_lt (n := v % 0x40 + 0x80) (by omega)
        simp only [List.cons_append, List.nil_append, decodeFrom]
        rw [step, first_four (by omega) (by omega)]
        simp only
        rw [step_more (by split <;> simp <;> omega) (by split <;> simp <;> omega)]
        simp only
        rw [step_more (by simp; omega) (by simp; omega)]
        simp only
        rw [step_last (by simp; omega) (by simp; omega), hb, hb', hb'', hb''']
        have hvalue : (((v / 262144 % 0x08 + 0xf0 - 0xF0) * 64
            + (v / 4096 % 0x40 + 0x80 - 0x80)) * 64
            + (v / 64 % 0x40 + 0x80 - 0x80)) * 64 + (v % 0x40 + 0x80 - 0x80) = v := by omega
        rw [hvalue, hchar]
        rfl

theorem decodeFrom_chars (done cs : List Char) :
    decodeFrom done none (cs.flatMap String.utf8EncodeChar) = done.reverse ++ cs := by
  induction cs generalizing done with
  | nil => simp [decodeFrom]
  | cons c cs ih =>
    rw [List.flatMap_cons, decodeFrom_char, ih]
    simp

/-- **A text that was written is read.** -/
theorem decodeLossy_encode (text : String) : decodeLossy (encode text) = text := by
  rw [decodeLossy, encode, decodeFrom_chars, List.reverse_nil, List.nil_append,
    String.ofList_toList]

/-- Whether bytes are a text that was written. -/
def Valid (b : Bytes) : Prop := ∃ text : String, encode text = b

theorem encode_decodeLossy {b : Bytes} (h : Valid b) : encode (decodeLossy b) = b := by
  obtain ⟨text, rfl⟩ := h
  rw [decodeLossy_encode]

end KeyServer.Utf8
