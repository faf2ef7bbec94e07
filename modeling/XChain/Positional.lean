import Mathlib.Data.Nat.Digits.Lemmas

/-!
# Positional numerals

The digits of a number with the highest one first, and the number that digits stand for. Zeros
in front of them do not change it.
-/
namespace XChain

namespace Positional

/-- The digits of a number; zero has none. -/
def numeral (b n : ℕ) : List ℕ := (Nat.digits b n).reverse

def value (b : ℕ) (l : List ℕ) : ℕ := l.foldl (fun n d => n * b + d) 0

variable {b n : ℕ}

theorem value_eq (b : ℕ) (l : List ℕ) : value b l = Nat.ofDigits b l.reverse := by
  induction l using List.reverseRecOn with
  | nil => rfl
  | append_singleton l d ih =>
    rw [value, List.foldl_concat, ← value, ih, List.reverse_concat, Nat.ofDigits_cons,
      Nat.mul_comm, Nat.add_comm]

@[simp] theorem value_nil (b : ℕ) : value b [] = 0 := rfl

theorem value_concat (b : ℕ) (l : List ℕ) (d : ℕ) : value b (l ++ [d]) = value b l * b + d := by
  rw [value, List.foldl_concat, ← value]

@[simp] theorem value_numeral (b n : ℕ) : value b (numeral b n) = n := by
  rw [value_eq, numeral, List.reverse_reverse, Nat.ofDigits_digits]

/-- Zeros in front do not count. -/
@[simp] theorem value_zeros (b k : ℕ) (l : List ℕ) :
    value b (List.replicate k 0 ++ l) = value b l := by
  rw [value_eq, value_eq, List.reverse_append, List.reverse_replicate,
    Nat.ofDigits_append_replicate_zero]

theorem numeral_lt (hb : 1 < b) {d : ℕ} (hd : d ∈ numeral b n) : d < b := by
  rw [numeral, List.mem_reverse] at hd
  exact Nat.digits_lt_base hb hd

theorem length_numeral_le_iff (hb : 1 < b) {k : ℕ} : (numeral b n).length ≤ k ↔ n < b ^ k := by
  rw [numeral, List.length_reverse]
  exact Nat.digits_length_le_iff hb n

theorem numeral_ne_nil (hn : n ≠ 0) : numeral b n ≠ [] := by
  rw [numeral, ne_eq, List.reverse_eq_nil_iff]
  exact Nat.digits_ne_nil_iff_ne_zero.mpr hn

end Positional

end XChain
