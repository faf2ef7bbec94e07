import XChain.FixedHash

/-!
# The modular exponentiation precompile

The input begins with three lengths of 32 bytes, and three operands of these lengths follow.
Zeros stand behind its end. The price is computed with the lengths as numbers, the result with
what a `size_t` holds of them.
-/
namespace XChain
namespace Precompiled

open Rlp

/-- What a `size_t` holds of a number. -/
def sizeT (n : ℕ) : ℕ := n % 2 ^ 64

/-- Some bytes of the input from a place on. The part that is there is read, and shifted for the
zeros behind it. -/
def parseBigEndianRightPadded (inp : Bytes) (start count : ℕ) : ℕ :=
  if start > inp.length then 0
  else
    let part := cropped inp start (min count (inp.length - start))
    ofBigEndian part <<< sizeT (8 * (count - part.length))

def powm (base exp mod : ℕ) : ℕ := base ^ exp % mod

def modexp (inp : Bytes) : Bytes :=
  let baseLength := sizeT (parseBigEndianRightPadded inp 0 32)
  let expLength := sizeT (parseBigEndianRightPadded inp 32 32)
  let modLength := sizeT (parseBigEndianRightPadded inp 64 32)
  let base := parseBigEndianRightPadded inp 96 baseLength
  let exp := parseBigEndianRightPadded inp (sizeT (96 + baseLength)) expLength
  let mod := parseBigEndianRightPadded inp (sizeT (96 + baseLength + expLength)) modLength
  let result := if mod ≠ 0 then powm base exp mod else 0
  fixedBytes modLength result

def modexpPricer (inp : Bytes) : ℕ :=
  let baseLength := parseBigEndianRightPadded inp 0 32
  let expLength := parseBigEndianRightPadded inp 32 32
  let modLength := parseBigEndianRightPadded inp 64 32
  let maxLength := max modLength baseLength
  maxLength * maxLength * max expLength 1 / 20

/-- The number in some bytes of the input, with zeros behind its end. -/
def operand (inp : Bytes) (start count : ℕ) : ℕ :=
  ofBigEndian ((List.range count).map fun i => inp.getD (start + i) 0)

def baseLength (inp : Bytes) : ℕ := operand inp 0 32

def expLength (inp : Bytes) : ℕ := operand inp 32 32

def modLength (inp : Bytes) : ℕ := operand inp 64 32

/-- The amount by which an operand is shifted fits. There is no shift behind the end of the
input. -/
def ShiftFits (inp : Bytes) (start count : ℕ) : Prop :=
  start ≤ inp.length → 8 * (count - min count (inp.length - start)) < 2 ^ 64

/-- The power of the operands, zero for a zero modulus. -/
def power (inp : Bytes) : ℕ :=
  let b := baseLength inp
  let e := expLength inp
  let m := modLength inp
  let mod := operand inp (96 + b + e) m
  if mod = 0 then 0 else operand inp 96 b ^ operand inp (96 + b) e % mod

/-- No length, offset or shift is cut off, and the result has the length of the modulus. -/
structure Exact (inp : Bytes) : Prop where
  lengths : baseLength inp < 2 ^ 64 ∧ expLength inp < 2 ^ 64 ∧ modLength inp < 2 ^ 64
  offsets : 96 + baseLength inp + expLength inp < 2 ^ 64
  shift_lengths : ShiftFits inp 0 32 ∧ ShiftFits inp 32 32 ∧ ShiftFits inp 64 32
  shift_base : ShiftFits inp 96 (baseLength inp)
  shift_exp : ShiftFits inp (96 + baseLength inp) (expLength inp)
  shift_mod : ShiftFits inp (96 + baseLength inp + expLength inp) (modLength inp)
  length : (modexp inp).length = modLength inp
  value : ofBigEndian (modexp inp) = power inp

section Operands

variable {inp : Bytes} {start count : ℕ}

theorem ofBigEndian_zeros_behind (b : Bytes) (k : ℕ) :
    ofBigEndian (b ++ List.replicate k 0) = ofBigEndian b * 2 ^ (8 * k) := by
  have hpow : (2 : ℕ) ^ (8 * k) = 256 ^ k := pow_mul 2 8 k
  rw [hpow]
  unfold ofBigEndian
  rw [List.reverse_append, List.map_append, Nat.ofDigits_append]
  simp [Nat.mul_comm]

/-- An operand is the part that is there with zeros behind it. -/
theorem operand_eq (inp : Bytes) (start count : ℕ) : operand inp start count =
    ofBigEndian ((inp.drop start).take count) *
      2 ^ (8 * (count - min count (inp.length - start))) := by
  have hsplit : (List.range count).map (fun i => inp.getD (start + i) 0) =
      (inp.drop start).take count ++
        List.replicate (count - min count (inp.length - start)) 0 := by
    apply List.ext_getElem
    · simp
    · intro i hi _
      simp only [List.length_map, List.length_range] at hi
      by_cases hin : start + i < inp.length
      · rw [List.getElem_append_left (by simp; omega)]
        simp [hin]
      · rw [List.getElem_append_right (by simp; omega)]
        simp [hin]
  rw [operand, hsplit, ofBigEndian_zeros_behind]

/-- What is parsed is the operand if its shift fits. -/
theorem parse_eq (h : ShiftFits inp start count) :
    parseBigEndianRightPadded inp start count = operand inp start count := by
  rw [operand_eq]
  by_cases hstart : start ≤ inp.length
  · have hshift := h hstart
    have hpart : cropped inp start (min count (inp.length - start)) =
        (inp.drop start).take count := by
      rw [cropped, if_pos (by omega)]
      by_cases hle : count ≤ inp.length - start
      · rw [Nat.min_eq_left hle]
      · rw [Nat.min_eq_right (by omega), List.take_of_length_le (by simp),
          List.take_of_length_le (by simp; omega)]
    have hlen : ((inp.drop start).take count).length = min count (inp.length - start) := by simp
    simp only [parseBigEndianRightPadded, if_neg (not_lt.mpr hstart), hpart, hlen, sizeT,
      Nat.mod_eq_of_lt hshift, Nat.shiftLeft_eq]
  · have hnil : inp.drop start = [] := List.drop_of_length_le (by omega)
    simp [parseBigEndianRightPadded, hstart, hnil, ofBigEndian]

/-- Short operands are always shifted right. -/
theorem shiftFits_of_lt (h : count < 2 ^ 61) : ShiftFits inp start count := by
  intro _
  omega

theorem parse_length (inp : Bytes) (start : ℕ) :
    parseBigEndianRightPadded inp start 32 = operand inp start 32 :=
  parse_eq (shiftFits_of_lt (by norm_num))

end Operands

section Cost

variable {inp : Bytes}

theorem modexpPricer_eq (inp : Bytes) : modexpPricer inp =
    max (modLength inp) (baseLength inp) * max (modLength inp) (baseLength inp) *
      max (expLength inp) 1 / 20 := by
  simp only [modexpPricer, parse_length]
  rfl

/-- The price bounds two of the lengths. -/
theorem lengths_lt (h : modexpPricer inp ≤ 2 ^ 63 - 1) :
    baseLength inp < 2 ^ 35 ∧ modLength inp < 2 ^ 35 := by
  rw [modexpPricer_eq] at h
  set l := max (modLength inp) (baseLength inp) with hl
  have hlt : l < 2 ^ 35 := by
    by_contra hlarge
    have hsq : 2 ^ 35 * 2 ^ 35 ≤ l * l := Nat.mul_le_mul (by omega) (by omega)
    have hall : l * l * 1 ≤ l * l * max (expLength inp) 1 :=
      Nat.mul_le_mul_left _ (le_max_right _ _)
    omega
  omega

/-- The result has as many bytes as the modulus. -/
theorem fixedBytes_power (inp : Bytes) :
    ofBigEndian (fixedBytes (modLength inp) (power inp)) = power inp := by
  rw [ofBigEndian_fixedBytes]
  apply Nat.mod_eq_of_lt
  unfold power
  dsimp only
  split_ifs with hmod
  · positivity
  · calc operand inp 96 (baseLength inp) ^ operand inp (96 + baseLength inp) (expLength inp) %
          operand inp (96 + baseLength inp + expLength inp) (modLength inp)
        < operand inp (96 + baseLength inp + expLength inp) (modLength inp) :=
          Nat.mod_lt _ (Nat.pos_of_ne_zero hmod)
      _ < 256 ^ modLength inp := by
          have hlt := ofBigEndian_lt ((List.range (modLength inp)).map fun i =>
            inp.getD (96 + baseLength inp + expLength inp + i) 0)
          rw [List.length_map, List.length_range, pow_mul] at hlt
          exact hlt

/-- Where nothing is cut off, the result is the power. -/
theorem modexp_eq (hlen : baseLength inp < 2 ^ 64 ∧ expLength inp < 2 ^ 64 ∧ modLength inp < 2 ^ 64)
    (hoff : 96 + baseLength inp + expLength inp < 2 ^ 64)
    (hbase : ShiftFits inp 96 (baseLength inp))
    (hexp : ShiftFits inp (96 + baseLength inp) (expLength inp))
    (hmod : ShiftFits inp (96 + baseLength inp + expLength inp) (modLength inp)) :
    modexp inp = fixedBytes (modLength inp) (power inp) := by
  have hb : sizeT (operand inp 0 32) = baseLength inp := Nat.mod_eq_of_lt hlen.1
  have he : sizeT (operand inp 32 32) = expLength inp := Nat.mod_eq_of_lt hlen.2.1
  have hm : sizeT (operand inp 64 32) = modLength inp := Nat.mod_eq_of_lt hlen.2.2
  have hoff₁ : sizeT (96 + baseLength inp) = 96 + baseLength inp := Nat.mod_eq_of_lt (by omega)
  have hoff₂ : sizeT (96 + baseLength inp + expLength inp) =
      96 + baseLength inp + expLength inp := Nat.mod_eq_of_lt hoff
  simp only [modexp, parse_length, hb, he, hm, hoff₁, hoff₂, parse_eq hbase, parse_eq hexp,
    parse_eq hmod, powm, power, ite_not]

/-- The exponent ends inside of what a `size_t` holds, and not by 2 ^ 61 bytes behind the input if
it begins in there. -/
def ExponentFits (inp : Bytes) : Prop :=
  96 + baseLength inp + expLength inp < 2 ^ 64 ∧
    (96 + baseLength inp ≤ inp.length →
      96 + baseLength inp + expLength inp < inp.length + 2 ^ 61)

theorem shiftFits_iff {start count : ℕ} : ShiftFits inp start count ↔
    (start ≤ inp.length → start + count < inp.length + 2 ^ 61) := by
  unfold ShiftFits
  constructor
  · intro h hstart
    have hshift := h hstart
    omega
  · intro h hstart
    have hend := h hstart
    omega

theorem exact_iff (hcost : modexpPricer inp ≤ 2 ^ 63 - 1) : Exact inp ↔ ExponentFits inp := by
  obtain ⟨hb, hm⟩ := lengths_lt hcost
  constructor
  · intro h
    exact ⟨h.offsets, shiftFits_iff.mp h.shift_exp⟩
  · rintro ⟨hoff, hend⟩
    have hlen : baseLength inp < 2 ^ 64 ∧ expLength inp < 2 ^ 64 ∧ modLength inp < 2 ^ 64 := by
      omega
    have hbase : ShiftFits inp 96 (baseLength inp) := shiftFits_of_lt (by omega)
    have hexp : ShiftFits inp (96 + baseLength inp) (expLength inp) := shiftFits_iff.mpr hend
    have hmod : ShiftFits inp (96 + baseLength inp + expLength inp) (modLength inp) :=
      shiftFits_of_lt (by omega)
    have heq := modexp_eq hlen hoff hbase hexp hmod
    constructor
    case lengths => exact hlen
    case offsets => exact hoff
    case shift_lengths =>
      exact ⟨shiftFits_of_lt (by norm_num), shiftFits_of_lt (by norm_num),
        shiftFits_of_lt (by norm_num)⟩
    case shift_base => exact hbase
    case shift_exp => exact hexp
    case shift_mod => exact hmod
    case length => rw [heq, length_fixedBytes]
    case value => rw [heq, fixedBytes_power]

/-- With a base or a modulus of nine bytes the price bounds the exponent as well. -/
theorem exponentFits_of_le (hcost : modexpPricer inp ≤ 2 ^ 63 - 1)
    (hlen : 9 ≤ max (modLength inp) (baseLength inp)) : ExponentFits inp := by
  have hb := (lengths_lt hcost).1
  rw [modexpPricer_eq] at hcost
  have hexp : expLength inp < 2 ^ 61 := by
    have hsq : 9 * 9 ≤ max (modLength inp) (baseLength inp) * max (modLength inp) (baseLength inp) :=
      Nat.mul_le_mul hlen hlen
    have hall := Nat.mul_le_mul hsq (le_max_left (expLength inp) 1)
    omega
  refine ⟨by omega, fun hin => by omega⟩

/-- An input: its three lengths and what follows them. -/
def input (b e m : ℕ) (operands : Bytes) : Bytes :=
  fixedBytes 32 b ++ fixedBytes 32 e ++ fixedBytes 32 m ++ operands

/-- Three to the power of two modulo five, each in one byte. -/
theorem exact_nine : Exact (input 1 1 1 [3, 2, 5]) := by
  apply (exact_iff (by decide)).mpr
  exact ⟨by decide, fun _ => by decide⟩

/-- An exponent of 2 ^ 64 bytes is read as one of none, and the modulus from its place. -/
theorem not_exact_long : ¬ ∀ inp, modexpPricer inp ≤ 2 ^ 63 - 1 → Exact inp := by
  intro h
  have hvalue := (h (input 0 (2 ^ 64) 1 [5]) (by decide)).value
  have hresult : modexp (input 0 (2 ^ 64) 1 [5]) = [1] := by decide
  have hmod : operand (input 0 (2 ^ 64) 1 [5]) (96 + 0 + 2 ^ 64) 1 = 0 := by decide
  have hpower : power (input 0 (2 ^ 64) 1 [5]) = 0 := by
    have hb : baseLength (input 0 (2 ^ 64) 1 [5]) = 0 := by decide
    have he : expLength (input 0 (2 ^ 64) 1 [5]) = 2 ^ 64 := by decide
    have hm : modLength (input 0 (2 ^ 64) 1 [5]) = 1 := by decide
    simp only [power, hb, he, hm, hmod, if_true]
  rw [hresult, hpower] at hvalue
  exact absurd hvalue (by decide)

end Cost

end Precompiled
end XChain
