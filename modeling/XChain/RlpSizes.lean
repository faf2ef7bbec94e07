import XChain.RlpFields

/-!
# Sizes of encodings

A header takes one byte, and the digits of a length that is not short. A number takes its
digits, with a byte in front of them unless it is small.
-/
namespace XChain

namespace Rlp

/-- Bytes that a number takes. -/
def uintSize (n : ℕ) : ℕ := if n < 0x80 then 1 else (Nat.digits 256 n).length + 1

theorem length_bigEndian (n : ℕ) : (bigEndian n).length = (Nat.digits 256 n).length := by
  simp [bigEndian]

theorem length_header (base : UInt8) {n : ℕ} (h : n < 256 ^ 8) :
    (header base n).length = if n < 56 then 1 else (Nat.digits 256 n).length + 1 := by
  have hle : (Nat.digits 256 n).length ≤ 8 := by
    rw [Nat.digits_length_le_iff (by omega)]
    exact h
  rw [header]
  split_ifs with hshort
  · simp
  · simp only [length_bigEndian]
    rw [if_pos (by omega)]
    simp [length_bigEndian]

theorem length_header_le (base : UInt8) {n k : ℕ} (h : n < 256 ^ k) (hk : k ≤ 8) :
    (header base n).length ≤ k + 1 := by
  have hle : (Nat.digits 256 n).length ≤ k := by
    rw [Nat.digits_length_le_iff (by omega)]
    exact h
  rw [length_header base (h.trans_le (Nat.pow_le_pow_right (by omega) hk))]
  split <;> omega

/-- A length that is not short takes its digits and a byte in front of them. -/
theorem length_header_eq (base : UInt8) {n k : ℕ} (hshort : 56 ≤ n) (hlong : 256 ^ k ≤ n)
    (h : n < 256 ^ (k + 1)) (hk : k < 8) : (header base n).length = k + 2 := by
  have hle : (Nat.digits 256 n).length ≤ k + 1 := by
    rw [Nat.digits_length_le_iff (by omega)]
    exact h
  have hlt : k < (Nat.digits 256 n).length := by
    rw [Nat.lt_digits_length_iff (by omega)]
    exact hlong
  rw [length_header base (h.trans_le (Nat.pow_le_pow_right (by omega) hk)), if_neg (by omega)]
  omega

theorem length_header_three (base : UInt8) {n : ℕ} (hlong : 256 ≤ n) (h : n < 2 ^ 16) :
    (header base n).length = 3 :=
  length_header_eq base (k := 1) (by omega) hlong h (by omega)

theorem length_header_two (base : UInt8) {n : ℕ} (hlong : 56 ≤ n) (h : n < 256) :
    (header base n).length = 2 :=
  length_header_eq base (k := 0) hlong (by omega) h (by omega)

theorem length_encode_data {b : Bytes} (h : b.length ≠ 1) :
    (encode (.data b)).length = (header 0x80 b.length).length + b.length := by
  cases b with
  | nil => simp [encode]
  | cons x b =>
    cases b with
    | nil => simp at h
    | cons y b => simp [encode]

theorem length_encode_ofNat {n : ℕ} (h : n < 2 ^ 32) : (encode (ofNat n)).length = uintSize n := by
  have hlen := length_bigEndian n
  have hfour : (Nat.digits 256 n).length ≤ 4 := by
    rw [Nat.digits_length_le_iff (by omega)]
    exact h
  rw [ofNat, uintSize]
  by_cases hone : (bigEndian n).length = 1
  · -- a number of one byte is that byte, or has one byte in front of it
    obtain ⟨x, hx⟩ := List.length_eq_one_iff.mp hone
    have hn : n = x.toNat := by
      have hread := ofBigEndian_bigEndian n
      rw [hx] at hread
      simpa [ofBigEndian] using hread.symm
    have hlt : x < 0x80 ↔ n < 0x80 := by
      rw [hn, UInt8.lt_iff_toNat_lt]
      rfl
    rw [hx, encode]
    simp only [hlt]
    split
    · simp
    · simp [header]
      omega
  · rw [length_encode_data hone, length_header _ (by omega), if_pos (by omega)]
    split
    · have hnone : (Nat.digits 256 n).length ≤ 1 := by
        rw [Nat.digits_length_le_iff (by omega)]
        omega
      omega
    · omega

end Rlp

end XChain
