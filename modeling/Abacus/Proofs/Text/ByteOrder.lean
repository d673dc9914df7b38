import Mathlib

/-!
# The order of texts and the order of their bytes

Texts are ordered by their characters.  As UTF-8 writes a larger character with a larger leading
byte, or with the same one and larger bytes behind it, this is also the order of their bytes.

## Main definitions

* `utf8Bytes` — the bytes of a text.
* `leadMark`, `continuation` — the first byte of a character less its own bits, and the bytes
  behind, which hold six bits each.

## Main results

* `utf8EncodeChar_eq` — the bytes of a character in these terms.
* `utf8EncodeChar_append_lt` — larger characters have larger bytes, whatever follows.
* `utf8Bytes_le_of_le` — **the two orders agree**.
-/

namespace Abacus

/-- The bytes of a text. -/
def utf8Bytes (text : String) : List UInt8 := text.toByteArray.data.toList

theorem utf8Bytes_eq (text : String) :
    utf8Bytes text = text.toList.flatMap String.utf8EncodeChar := by
  have h : text.toList.utf8Encode = text.toByteArray := String.utf8Encode_toList
  rw [utf8Bytes, ← h, List.utf8Encode, List.data_toByteArray]

/-! ### The bytes of a character -/

/-- What the first byte of a character holds beside its own bits when `k` bytes follow. -/
def leadMark : (k : Nat) → Nat
  | 0 => 0
  | 1 => 0xC0
  | 2 => 0xE0
  | 3 => 0xF0
  | _ + 4 => 0xF8

/-- The `k` bytes behind the first one, with six bits each of the code point. -/
def continuation : (k codePoint : Nat) → List UInt8
  | 0, _ => []
  | k + 1, codePoint => UInt8.ofNat (codePoint / 64 ^ k % 64 + 0x80) :: continuation k codePoint

theorem leadMark_mono {k l : Nat} (h : k ≤ l) : leadMark k ≤ leadMark l := by
  induction h with
  | refl => exact Nat.le_refl _
  | @step l _ ih =>
    refine Nat.le_trans ih ?_
    match l with
    | 0 | 1 | 2 | 3 => decide
    | _ + 4 => exact Nat.le_refl _

theorem leadMark_le (k : Nat) : leadMark k ≤ 0xF8 :=
  leadMark_mono (Nat.le_add_right k 4)

theorem ofNat_lt_ofNat {m n : Nat} (h : m < n) (hn : n < 256) : UInt8.ofNat m < UInt8.ofNat n := by
  rw [UInt8.lt_iff_toNat_lt, UInt8.toNat_ofNat', UInt8.toNat_ofNat']
  omega

theorem continuation_append_lt {v w : Nat} (h : v < w) (as bs : List UInt8) {k : Nat}
    (hlead : v / 64 ^ k = w / 64 ^ k) : continuation k v ++ as < continuation k w ++ bs := by
  induction k with
  | zero => omega
  | succ k ih =>
    -- The next six bits decide, or they are equal and those behind them decide.
    have hle : v / 64 ^ k ≤ w / 64 ^ k := Nat.div_le_div_right (Nat.le_of_lt h)
    rw [Nat.pow_succ, ← Nat.div_div_eq_div_mul, ← Nat.div_div_eq_div_mul] at hlead
    rw [continuation, continuation, List.cons_append, List.cons_append, List.cons_lt_cons_iff]
    rcases Nat.lt_or_eq_of_le hle with hlt | heq
    · exact .inl (ofNat_lt_ofNat (by omega) (by omega))
    · exact .inr ⟨by rw [heq], ih heq⟩

/-- A character of `k + 1` bytes has what six bits of each of the last `k` leave over in its first
byte, and this does not reach the mark of a longer one. -/
theorem utf8EncodeChar_eq (c : Char) :
    ∃ k, c.utf8Size = k + 1 ∧
      String.utf8EncodeChar c
        = UInt8.ofNat (leadMark k + c.toNat / 64 ^ k) :: continuation k c.toNat ∧
      leadMark k + c.toNat / 64 ^ k < leadMark (k + 1) := by
  have hmax : c.toNat < 0x110000 := by
    rcases c.valid with h | ⟨-, h⟩ <;> simp only [Char.toNat, UInt32.toNat] at * <;> omega
  unfold Char.utf8Size String.utf8EncodeChar
  simp only [UInt32.le_iff_toNat_le]
  have hval : c.val.toNat = c.toNat := rfl
  rw [hval]
  generalize c.toNat = v at hmax
  -- One case for each length of an encoding; in each the lead byte has room for the bits that the
  -- continuation bytes leave over, so the masking of the standard library changes nothing.
  by_cases h₁ : v ≤ 0x7f
  · refine ⟨0, by simp [h₁], by simp [h₁, leadMark, continuation], ?_⟩
    simp only [leadMark]
    omega
  by_cases h₂ : v ≤ 0x7ff
  · have hlead : v / 64 % 32 = v / 64 := by omega
    refine ⟨1, by simp [h₁, h₂], ?_, ?_⟩
    · simp [h₁, h₂, hlead, leadMark, continuation, UInt8.add_comm]
    · simp only [leadMark]
      omega
  by_cases h₃ : v ≤ 0xffff
  · have hlead : v / 4096 % 16 = v / 4096 := by omega
    refine ⟨2, by simp [h₁, h₂, h₃], ?_, ?_⟩
    · simp [h₁, h₂, h₃, hlead, leadMark, continuation, UInt8.add_comm]
    · simp only [leadMark]
      omega
  · have hlead : v / 262144 % 8 = v / 262144 := by omega
    refine ⟨3, by simp [h₁, h₂, h₃], ?_, ?_⟩
    · simp [h₁, h₂, h₃, hlead, leadMark, continuation, UInt8.add_comm]
    · simp only [leadMark]
      omega

theorem utf8Size_le_of_lt {c d : Char} (h : c < d) : c.utf8Size ≤ d.utf8Size := by
  have hlt : c.val.toNat < d.val.toNat := h
  unfold Char.utf8Size
  simp only [UInt32.le_iff_toNat_le]
  repeat' split
  all_goals omega

/-- Larger characters have larger bytes, whatever follows. -/
theorem utf8EncodeChar_append_lt {c d : Char} (h : c < d) (as bs : List UInt8) :
    String.utf8EncodeChar c ++ as < String.utf8EncodeChar d ++ bs := by
  have hlt : c.toNat < d.toNat := h
  have hsize := utf8Size_le_of_lt h
  obtain ⟨k, hk, hc, hcle⟩ := utf8EncodeChar_eq c
  obtain ⟨l, hl, hd, hdle⟩ := utf8EncodeChar_eq d
  have hlast : leadMark (l + 1) ≤ 0xF8 := leadMark_le (l + 1)
  rw [hc, hd, List.cons_append, List.cons_append, List.cons_lt_cons_iff]
  rcases Nat.lt_or_eq_of_le (show k ≤ l by omega) with hkl | rfl
  · -- The character with fewer bytes has a first byte below the mark of the other.
    have hmark : leadMark (k + 1) ≤ leadMark l := leadMark_mono hkl
    refine .inl (ofNat_lt_ofNat ?_ (by omega))
    exact Nat.lt_of_lt_of_le hcle (Nat.le_trans hmark (Nat.le_add_right _ _))
  · have hle : c.toNat / 64 ^ k ≤ d.toNat / 64 ^ k := Nat.div_le_div_right (Nat.le_of_lt hlt)
    rcases Nat.lt_or_eq_of_le hle with hlead | hlead
    · exact .inl (ofNat_lt_ofNat (by omega) (by omega))
    · exact .inr ⟨by rw [hlead], continuation_append_lt hlt as bs hlead⟩

/-! ### Texts -/

theorem flatMap_utf8EncodeChar_lt {cs ds : List Char} (h : cs < ds) :
    cs.flatMap String.utf8EncodeChar < ds.flatMap String.utf8EncodeChar := by
  induction h with
  | @nil d ds =>
    obtain ⟨k, -, hd, -⟩ := utf8EncodeChar_eq d
    rw [List.flatMap_nil, List.flatMap_cons, hd]
    exact List.nil_lt_cons _ _
  | @cons c cs ds _ ih =>
    rw [List.flatMap_cons, List.flatMap_cons]
    exact List.append_left_lt ih
  | rel hcd =>
    rw [List.flatMap_cons, List.flatMap_cons]
    exact utf8EncodeChar_append_lt hcd _ _

/-- **The order of texts is that of their bytes.** -/
theorem utf8Bytes_le_of_le {s t : String} (h : s ≤ t) : utf8Bytes s ≤ utf8Bytes t := by
  rw [utf8Bytes_eq, utf8Bytes_eq]
  by_cases heq : s = t
  · rw [heq]
    exact List.le_refl _
  · have hlt : s < t := Std.lt_of_le_of_ne h heq
    exact List.le_of_lt (flatMap_utf8EncodeChar_lt hlt)

end Abacus
