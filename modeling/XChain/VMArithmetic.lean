import XChain.VMGas

/-!
# Arithmetic

What the arithmetic instructions compute, in terms of the numbers that the words stand for: the
unsigned number of a word and its number in two's complement.
-/
namespace XChain
namespace VM

open Machine

variable {W : Type} {sha3 : Bytes → H256} {face : ExtVMFace W} {stray : UInt32} {s t : VM W}
variable {op : Instruction}

section Specification

/-- The result that the Yellow Paper has for an arithmetic instruction. -/
def Yields (op : Instruction) (l : List Word) (r : Word) : Prop :=
  let a := operand l 0
  let b := operand l 1
  let c := operand l 2
  match op with
  | .DIV => r.toNat = if b.toNat = 0 then 0 else a.toNat / b.toNat
  | .SDIV => r.toInt =
      if b.toInt = 0 then 0
      else if a.toInt = -2 ^ 255 ∧ b.toInt = -1 then -2 ^ 255
      else a.toInt.sign * b.toInt.sign * (a.toInt.natAbs / b.toInt.natAbs : ℕ)
  | .MOD => r.toNat = if b.toNat = 0 then 0 else a.toNat % b.toNat
  | .SMOD => r.toInt =
      if b.toInt = 0 then 0 else a.toInt.sign * (a.toInt.natAbs % b.toInt.natAbs : ℕ)
  | .ADDMOD => r.toNat = if c.toNat = 0 then 0 else (a.toNat + b.toNat) % c.toNat
  | .MULMOD => r.toNat = if c.toNat = 0 then 0 else a.toNat * b.toNat % c.toNat
  | .EXP => r.toNat = a.toNat ^ b.toNat % 2 ^ 256
  | .SIGNEXTEND => ∀ j < 256, r.getLsbD j =
      if j ≤ 8 * a.toNat + 7 then b.getLsbD j else b.getLsbD (8 * a.toNat + 7)
  | .BYTE => r.toNat = if a.toNat < 32 then b.toNat / 256 ^ (31 - a.toNat) % 256 else 0
  | .SLT => r.toNat = if a.toInt < b.toInt then 1 else 0
  | .SGT => r.toNat = if b.toInt < a.toInt then 1 else 0
  | _ => False

example (l : List Word) (r : Word) : ¬ Yields .STOP l r := by simp only [Yields, not_false_eq_true]

/-- The arithmetic instructions. -/
def arithmetic : Instruction → Bool
  | .DIV => true
  | .SDIV => true
  | .MOD => true
  | .SMOD => true
  | .ADDMOD => true
  | .MULMOD => true
  | .EXP => true
  | .SIGNEXTEND => true
  | .BYTE => true
  | .SLT => true
  | .SGT => true
  | _ => false

/-- The result is determined. -/
theorem Yields.unique {l : List Word} {r r' : Word} (h : Yields op l r) (h' : Yields op l r') :
    r = r' := by
  cases op with
  | DIV | MOD | ADDMOD | MULMOD | EXP | BYTE | SLT | SGT =>
    exact BitVec.eq_of_toNat_eq (Eq.trans h (Eq.symm h'))
  | SDIV | SMOD => exact BitVec.eq_of_toInt_eq (Eq.trans h (Eq.symm h'))
  | SIGNEXTEND => exact BitVec.eq_of_getLsbD_eq fun j hj => (h j hj).trans (h' j hj).symm
  | _ => exact absurd h id

end Specification

section Conversions

theorem signedMagnitude_of_lt {bits : ℕ} {n : ℤ} (h : n.natAbs < 2 ^ bits) :
    signedMagnitude bits n = n := by
  rw [signedMagnitude, Nat.mod_eq_of_lt h, Int.sign_mul_natAbs]

theorem natAbs_toInt_le (w : Word) : w.toInt.natAbs ≤ 2 ^ 255 := by
  have hlow := BitVec.le_toInt w
  have hhigh := BitVec.toInt_lt (x := w)
  omega

/-- The conversion to a signed number reads a word in two's complement. -/
theorem u2s_eq (u : Word) : u2s u = u.toInt := by
  have hsmall : u.toInt.natAbs < 2 ^ 256 := (natAbs_toInt_le u).trans_lt (by norm_num)
  have hmsb : u.getLsbD 255 = u.msb := (BitVec.msb_eq_getLsbD_last u).symm
  have hint := BitVec.toInt_eq_msb_cond u
  rw [u2s, hmsb]
  split_ifs with h
  · rw [if_pos h] at hint
    have hneg : -(2 ^ 256 - (u.toNat : ℤ)) = u.toInt := by
      rw [hint]
      norm_num
    rw [hneg, s256, signedMagnitude_of_lt hsmall]
  · rw [if_neg h] at hint
    rw [← hint, s256, signedMagnitude_of_lt hsmall]

theorem s2u_eq (n : ℤ) : s2u n = BitVec.ofInt 256 n := by
  unfold s2u u256
  split_ifs
  · rfl
  · apply BitVec.eq_of_toInt_eq
    rw [BitVec.toInt_ofInt, BitVec.toInt_ofInt]
    exact Int.add_bmod_left (2 ^ 256) n

theorem toInt_s2u {n : ℤ} (hlow : -2 ^ 255 ≤ n) (hhigh : n < 2 ^ 255) : (s2u n).toInt = n := by
  rw [s2u_eq]
  exact BitVec.toInt_ofInt_eq_self (by norm_num) hlow hhigh

theorem toNat_u256 {n : ℕ} (hn : n < 2 ^ 256) : (u256 n).toNat = n := by
  have hcast : (u256 (n : ℤ)).toNat = ((n : ℤ) % 2 ^ 256).toNat := by
    rw [u256, BitVec.toNat_ofInt]
    rfl
  rw [hcast]
  omega

/-- A number that is no greater than a word is kept. -/
theorem toNat_u256_le {n : ℕ} {w : Word} (hle : n ≤ w.toNat) : (u256 n).toNat = n :=
  toNat_u256 (hle.trans_lt w.isLt)

end Conversions

section Division

theorem word_lt_wide {k : ℕ} (hk : 256 < k) : 2 ^ 256 < 2 ^ k :=
  Nat.pow_lt_pow_right (by norm_num) hk

theorem s512_of_le {n : ℤ} (h : n.natAbs ≤ 2 ^ 256) : s512 n = n :=
  signedMagnitude_of_lt (h.trans_lt (word_lt_wide (by norm_num)))

theorem natAbs_tmod_le (a b : ℤ) : (a.tmod b).natAbs ≤ a.natAbs := by
  rw [Int.natAbs_tmod]
  exact Nat.mod_le _ _

theorem divWorkaround_eq {S : Type} (conv : ℤ → S) {a b : ℤ} (ha : a.natAbs ≤ 2 ^ 256)
    (hb : b.natAbs ≤ 2 ^ 256) : divWorkaround conv a b = conv (a.tdiv b) := by
  rw [divWorkaround, s512_of_le ha, s512_of_le hb, s512_of_le ((Int.natAbs_tdiv_le_natAbs a b).trans ha)]

theorem modWorkaround_eq {S : Type} (conv : ℤ → S) {a b : ℤ} (ha : a.natAbs ≤ 2 ^ 256)
    (hb : b.natAbs ≤ 2 ^ 256) : modWorkaround conv a b = conv (a.tmod b) := by
  rw [modWorkaround, s512_of_le ha, s512_of_le hb, s512_of_le ((natAbs_tmod_le a b).trans ha)]

theorem natAbs_toNat_le (w : Word) : (w.toNat : ℤ).natAbs ≤ 2 ^ 256 := by
  have hw := w.isLt
  omega

theorem toNat_ne_zero {w : Word} (h : w ≠ 0) : w.toNat ≠ 0 :=
  fun hw => h (BitVec.eq_of_toNat_eq hw)

theorem toInt_ne_zero {w : Word} (h : w ≠ 0) : w.toInt ≠ 0 :=
  fun hw => h (BitVec.eq_of_toInt_eq (hw.trans BitVec.toInt_zero.symm))

theorem yields_div (l : List Word) : Yields .DIV l (div (operand l 0) (operand l 1)) := by
  generalize ha : operand l 0 = a
  generalize hb : operand l 1 = b
  simp only [Yields, ha, hb]
  by_cases hzero : b = 0
  · subst hzero
    rfl
  · rw [div, if_pos hzero, if_neg (toNat_ne_zero hzero),
      divWorkaround_eq _ (natAbs_toNat_le a) (natAbs_toNat_le b)]
    exact toNat_u256_le (Nat.div_le_self a.toNat b.toNat)

theorem yields_mod (l : List Word) : Yields .MOD l (mod (operand l 0) (operand l 1)) := by
  generalize ha : operand l 0 = a
  generalize hb : operand l 1 = b
  simp only [Yields, ha, hb]
  by_cases hzero : b = 0
  · subst hzero
    rfl
  · rw [mod, if_pos hzero, if_neg (toNat_ne_zero hzero),
      modWorkaround_eq _ (natAbs_toNat_le a) (natAbs_toNat_le b)]
    exact toNat_u256_le (Nat.mod_le a.toNat b.toNat)

/-- The quotient of the numbers in two's complement; only one of them is out of range. -/
theorem sdiv_eq {a b : Word} (hb : b ≠ 0) : sdiv a b = s2u (a.toInt.tdiv b.toInt) := by
  have hsmall := natAbs_toInt_le a
  have hquot := Int.natAbs_tdiv_le_natAbs a.toInt b.toInt
  have hsmall' := natAbs_toInt_le b
  rw [sdiv, if_pos hb, u2s_eq, u2s_eq, divWorkaround_eq _ (by omega) (by omega), s256,
    signedMagnitude_of_lt (by omega)]

theorem smod_eq {a b : Word} (hb : b ≠ 0) : smod a b = s2u (a.toInt.tmod b.toInt) := by
  have hsmall := natAbs_toInt_le a
  have hrem := natAbs_tmod_le a.toInt b.toInt
  have hsmall' := natAbs_toInt_le b
  rw [smod, if_pos hb, u2s_eq, u2s_eq, modWorkaround_eq _ (by omega) (by omega), s256,
    signedMagnitude_of_lt (by omega)]

theorem tdiv_eq_sign (a b : ℤ) :
    a.tdiv b = a.sign * b.sign * (a.natAbs / b.natAbs : ℕ) := by
  rw [← Int.sign_mul_natAbs (a.tdiv b), Int.sign_tdiv, Int.natAbs_tdiv]
  split_ifs with hlt
  · rw [Nat.div_eq_of_lt hlt]
    simp
  · rfl

theorem tmod_eq_sign (a b : ℤ) : a.tmod b = a.sign * (a.natAbs % b.natAbs : ℕ) := by
  rw [← Int.sign_mul_natAbs (a.tmod b), Int.sign_tmod, Int.natAbs_tmod]
  split_ifs with hdvd
  · rw [Nat.mod_eq_zero_of_dvd (Int.natAbs_dvd_natAbs.mpr hdvd)]
    simp
  · rfl

/-- A quotient leaves the range only if the least number is divided by -1. -/
theorem tdiv_lt {a b : ℤ} (hlow : -2 ^ 255 ≤ a) (hhigh : a < 2 ^ 255) (hb : b ≠ 0)
    (h : ¬ (a = -2 ^ 255 ∧ b = -1)) : a.tdiv b < 2 ^ 255 := by
  have hquot : (a.tdiv b).natAbs = a.natAbs / b.natAbs := Int.natAbs_tdiv a b
  by_cases hone : b = 1
  · rw [hone, Int.tdiv_one]
    exact hhigh
  · by_cases hneg : b = -1
    · have hle := Nat.div_le_self a.natAbs b.natAbs
      omega
    · have hhalf : a.natAbs / b.natAbs ≤ a.natAbs / 2 := Nat.div_le_div_left (by omega) (by norm_num)
      omega

theorem yields_sdiv (l : List Word) : Yields .SDIV l (sdiv (operand l 0) (operand l 1)) := by
  generalize ha : operand l 0 = a
  generalize hb : operand l 1 = b
  simp only [Yields, ha, hb]
  have hlow := BitVec.le_toInt a
  have hhigh := BitVec.toInt_lt (x := a)
  by_cases hzero : b = 0
  · subst hzero
    rfl
  · rw [if_neg (toInt_ne_zero hzero), sdiv_eq hzero, ← tdiv_eq_sign]
    split_ifs with hmin
    · -- The only quotient out of range.
      rw [hmin.1, hmin.2]
      decide
    · refine toInt_s2u ?_ ?_
      · have hquot := Int.natAbs_tdiv_le_natAbs a.toInt b.toInt
        omega
      · exact tdiv_lt hlow hhigh (toInt_ne_zero hzero) hmin

theorem yields_smod (l : List Word) : Yields .SMOD l (smod (operand l 0) (operand l 1)) := by
  generalize ha : operand l 0 = a
  generalize hb : operand l 1 = b
  simp only [Yields, ha, hb]
  have hlow := BitVec.le_toInt a
  have hhigh := BitVec.toInt_lt (x := a)
  by_cases hzero : b = 0
  · subst hzero
    rfl
  · rw [if_neg (toInt_ne_zero hzero), smod_eq hzero, ← tmod_eq_sign]
    have hb0 := toInt_ne_zero hzero
    have hrem : (a.toInt.tmod b.toInt).natAbs < b.toInt.natAbs := by
      rw [Int.natAbs_tmod]
      exact Nat.mod_lt _ (Int.natAbs_pos.mpr hb0)
    have hsmall := natAbs_toInt_le b
    exact toInt_s2u (by omega) (by omega)

end Division

section Modular

theorem toNat_setWidth_of_lt {n : ℕ} (x : BitVec 512) (h : x.toNat < 2 ^ 256) (hn : n = x.toNat) :
    (x.setWidth 256).toNat = n := by
  rw [BitVec.toNat_setWidth, Nat.mod_eq_of_lt h, hn]

theorem toNat_wide (w : Word) : (w.setWidth 512).toNat = w.toNat := by
  rw [BitVec.toNat_setWidth, Nat.mod_eq_of_lt]
  exact w.isLt.trans (word_lt_wide (by norm_num))

theorem mul_lt_wide {k : ℕ} (a b : Word) (hk : k = 256 + 256) : a.toNat * b.toNat < 2 ^ k := by
  rw [hk, pow_add]
  exact Nat.mul_lt_mul'' a.isLt b.isLt

theorem add_lt_wide {k : ℕ} (a b : Word) (hk : k = 256 + 256) : a.toNat + b.toNat < 2 ^ k := by
  have hlt := Nat.add_lt_add a.isLt b.isLt
  rw [hk, pow_add]
  exact hlt.trans_le (Nat.add_le_mul (by norm_num) (by norm_num))

/-- What the wide sum or product of words leaves over is a word again. -/
theorem toNat_umod_wide {x : BitVec 512} {n : ℕ} {c : Word} (hx : x.toNat = n) (hc : c ≠ 0) :
    ((x % c.setWidth 512).setWidth 256).toNat = n % c.toNat := by
  have hwide : (x % c.setWidth 512).toNat = n % c.toNat := by
    rw [BitVec.toNat_umod, toNat_wide, hx]
  have hlt := (Nat.mod_lt n (Nat.pos_of_ne_zero (toNat_ne_zero hc))).trans c.isLt
  exact toNat_setWidth_of_lt _ (hwide ▸ hlt) hwide.symm

/-- The sum of two words is not cut in 512 bits. -/
theorem yields_addmod (l : List Word) :
    Yields .ADDMOD l (addmod (operand l 0) (operand l 1) (operand l 2)) := by
  generalize ha : operand l 0 = a
  generalize hb : operand l 1 = b
  generalize hc : operand l 2 = c
  simp only [Yields, ha, hb, hc]
  by_cases hzero : c = 0
  · subst hzero
    rfl
  · rw [addmod, if_pos hzero, if_neg (toNat_ne_zero hzero)]
    apply toNat_umod_wide _ hzero
    rw [BitVec.toNat_add, toNat_wide, toNat_wide, Nat.mod_eq_of_lt (add_lt_wide a b rfl)]

theorem yields_mulmod (l : List Word) :
    Yields .MULMOD l (mulmod (operand l 0) (operand l 1) (operand l 2)) := by
  generalize ha : operand l 0 = a
  generalize hb : operand l 1 = b
  generalize hc : operand l 2 = c
  simp only [Yields, ha, hb, hc]
  by_cases hzero : c = 0
  · subst hzero
    rfl
  · rw [mulmod, if_pos hzero, if_neg (toNat_ne_zero hzero)]
    apply toNat_umod_wide _ hzero
    rw [BitVec.toNat_mul, toNat_wide, toNat_wide, Nat.mod_eq_of_lt (mul_lt_wide a b rfl)]

/-- The loop multiplies the result by what is left of the power. -/
theorem toNat_exp256Loop {fuel : ℕ} (result base exponent : Word) (hfuel : exponent.toNat < 2 ^ fuel) :
    (exp256Loop fuel result base exponent).toNat =
      result.toNat * base.toNat ^ exponent.toNat % 2 ^ 256 := by
  induction fuel generalizing result base exponent with
  | zero =>
    have hzero : exponent.toNat = 0 := by simpa using hfuel
    rw [exp256Loop, hzero, pow_zero, mul_one, Nat.mod_eq_of_lt result.isLt]
  | succ fuel ih =>
    rw [exp256Loop]
    by_cases hexp : exponent = 0
    · rw [if_pos hexp, hexp]
      simp [Nat.mod_eq_of_lt result.isLt]
    · have hshift : (exponent >>> 1).toNat = exponent.toNat / 2 := by
        rw [BitVec.toNat_ushiftRight, Nat.shiftRight_one]
      have hhalf : (exponent >>> 1).toNat < 2 ^ fuel := by
        rw [hshift, pow_succ] at *
        omega
      have hbit : exponent.getLsbD 0 = decide (exponent.toNat % 2 = 1) := by
        rw [BitVec.getLsbD, Nat.testBit_zero]
      rw [if_neg hexp, ih _ _ _ hhalf, hshift, hbit]
      have hsquare : (base * base).toNat ≡ base.toNat ^ 2 [MOD 2 ^ 256] := by
        rw [BitVec.toNat_mul, pow_two]
        exact Nat.mod_modEq _ _
      have hpow : (base * base).toNat ^ (exponent.toNat / 2) ≡
          base.toNat ^ (2 * (exponent.toNat / 2)) [MOD 2 ^ 256] := by
        rw [pow_mul]
        exact hsquare.pow _
      split_ifs with hodd
      · -- An odd exponent: one factor goes to the result.
        have hodd' : exponent.toNat = 2 * (exponent.toNat / 2) + 1 := by
          have hone := of_decide_eq_true hodd
          omega
        have hfactor : (result * base).toNat ≡ result.toNat * base.toNat [MOD 2 ^ 256] := by
          rw [BitVec.toNat_mul]
          exact Nat.mod_modEq _ _
        have hall := hfactor.mul hpow
        rw [mul_assoc, ← pow_succ', ← hodd'] at hall
        exact hall
      · have heven : exponent.toNat = 2 * (exponent.toNat / 2) := by
          have hone : ¬ exponent.toNat % 2 = 1 := fun h => hodd (decide_eq_true h)
          omega
        have hall := (Nat.ModEq.refl result.toNat).mul hpow
        rw [← heven] at hall
        exact hall

theorem yields_exp (l : List Word) : Yields .EXP l (exp256 (operand l 0) (operand l 1)) := by
  show (exp256 (operand l 0) (operand l 1)).toNat = _
  rw [exp256, toNat_exp256Loop _ _ _ (operand l 1).isLt]
  simp

end Modular

section Bits

theorem getLsbD_mask {n : ℕ} (hn : n < 256) (j : ℕ) :
    (((1 <<< n : ℕ) : Word) - 1).getLsbD j = decide (j < n) := by
  have hpow : 2 ^ n < 2 ^ 256 := Nat.pow_lt_pow_right (by norm_num) hn
  have hone : ((1 <<< n : ℕ) : Word).toNat = 2 ^ n := by
    rw [Nat.one_shiftLeft, BitVec.natCast_eq_ofNat, BitVec.toNat_ofNat, Nat.mod_eq_of_lt hpow]
  have hmask : (((1 <<< n : ℕ) : Word) - 1).toNat = 2 ^ n - 1 := by
    rw [BitVec.toNat_sub_of_le, hone]
    · rfl
    · rw [BitVec.le_def, hone]
      exact Nat.one_le_two_pow
  rw [BitVec.getLsbD, hmask, Nat.testBit_two_pow_sub_one]

theorem signextend_of_lt {i number mask : Word} {sign : ℕ} (hi : i < 31)
    (hsign : i.toNat * 8 + 7 = sign) (hmask : ((1 <<< sign : ℕ) : Word) - 1 = mask) :
    signextend i number =
      if number.getLsbD sign then number ||| ~~~mask else number &&& mask := by
  subst hsign hmask
  exact if_pos hi

/-- The sign bit is repeated above it; from byte 31 on there is nothing above. -/
theorem yields_signextend (l : List Word) :
    Yields .SIGNEXTEND l (signextend (operand l 0) (operand l 1)) := by
  generalize ha : operand l 0 = i
  generalize hb : operand l 1 = number
  simp only [Yields, ha, hb]
  intro j hj
  have h31 : (31 : Word).toNat = 31 := rfl
  by_cases hi : i < 31
  · have hbyte := BitVec.lt_def.mp hi
    have hmask := getLsbD_mask (show i.toNat * 8 + 7 < 256 by omega) j
    rw [Nat.mul_comm 8]
    generalize hsign : i.toNat * 8 + 7 = sign at hmask ⊢
    generalize hbits : ((1 <<< sign : ℕ) : Word) - 1 = mask at hmask ⊢
    rw [signextend_of_lt hi hsign hbits]
    have hext : (if number.getLsbD sign then number ||| ~~~mask else number &&& mask).getLsbD j =
        if number.getLsbD sign then number.getLsbD j || !decide (j < sign)
        else number.getLsbD j && decide (j < sign) := by
      split_ifs <;> simp only [BitVec.getLsbD_or, BitVec.getLsbD_and, BitVec.getLsbD_not, hmask, hj,
        decide_true, Bool.true_and]
    refine hext.trans ?_
    -- The sign bit itself is set or cleared to what it is.
    obtain hlow | rfl | hhigh := Nat.lt_trichotomy j sign
    · simp only [hlow, hlow.le, decide_true, Bool.not_true, Bool.or_false, Bool.and_true, ite_self,
        if_true]
    · cases number.getLsbD j <;> simp
    · simp only [Nat.not_lt.mpr hhigh.le, Nat.not_le.mpr hhigh, decide_false, Bool.not_false,
        Bool.or_true, Bool.and_false, if_false]
      cases number.getLsbD sign <;> rfl
  · have hbyte : ¬ i.toNat < (31 : Word).toNat := fun h => hi (BitVec.lt_def.mpr h)
    rw [signextend, if_neg hi, if_pos (by omega)]

theorem yields_byte (l : List Word) : Yields .BYTE l (byteAt (operand l 0) (operand l 1)) := by
  generalize ha : operand l 0 = i
  generalize hb : operand l 1 = w
  simp only [Yields, ha, hb]
  have h32 : (32 : Word).toNat = 32 := rfl
  rw [byteAt]
  by_cases hi : i < 32
  · have hbyte := BitVec.lt_def.mp hi
    have hmask : (0xff : Word).toNat = 2 ^ 8 - 1 := rfl
    rw [if_pos hi, if_pos (by omega), BitVec.toNat_and, hmask, Nat.and_two_pow_sub_one_eq_mod,
      BitVec.toNat_ushiftRight, Nat.shiftRight_eq_div_pow, pow_mul]
    norm_num
  · have hbyte : ¬ i.toNat < (32 : Word).toNat := fun h => hi (BitVec.lt_def.mpr h)
    rw [if_neg hi, if_neg (by omega)]
    rfl

theorem toNat_ofBool (b : Bool) : (ofBool b).toNat = if b then 1 else 0 := by
  cases b <;> rfl

theorem yields_slt (l : List Word) :
    Yields .SLT l (ofBool (decide (u2s (operand l 0) < u2s (operand l 1)))) := by
  show (ofBool _).toNat = _
  rw [toNat_ofBool, u2s_eq, u2s_eq]
  simp only [decide_eq_true_eq]

theorem yields_sgt (l : List Word) :
    Yields .SGT l (ofBool (decide (u2s (operand l 1) < u2s (operand l 0)))) := by
  show (ofBool _).toNat = _
  rw [toNat_ofBool, u2s_eq, u2s_eq]
  simp only [decide_eq_true_eq]

end Bits

section Steps

theorem item_operand {i : ℕ} (hi : i < s.sp.length) :
    (item i : Exec W Word) s = .ok (operand s.sp i) s := by
  apply item_ok
  rw [operand, List.getD_eq_getElem?_getD, List.getElem?_eq_getElem hi]
  rfl

theorem binary_ok {f : Word → Word → Word} (hargs : 2 ≤ s.sp.length) :
    binary f s = .ok (f (operand s.sp 0) (operand s.sp 1)) s := by
  unfold binary
  rw [bind_ok (item_operand (show 0 < s.sp.length by omega)), bind_ok (item_operand hargs)]
  rfl

theorem ternary_ok {f : Word → Word → Word → Word} (hargs : 3 ≤ s.sp.length) :
    ternary f s = .ok (f (operand s.sp 0) (operand s.sp 1) (operand s.sp 2)) s := by
  unfold ternary
  rw [bind_ok (item_operand (show 0 < s.sp.length by omega)),
    bind_ok (item_operand (show 1 < s.sp.length by omega)), bind_ok (item_operand hargs)]
  rfl

/-- The machine that has fetched an instruction whose operands are `args`. -/
theorem fetchInstruction_ok {args rest : List Word} (hes : face.evmSchedule.Priced)
    (hop : opAt s = some op) (hvalid : isValidInstruction (some op) = true) (hstop : op ≠ .STOP)
    (hspp : s.spp = args ++ rest) (hargs : args.length = (instructionInfo (some op)).args)
    (hroom : rest.length + (instructionInfo (some op)).ret ≤ 1024) :
    fetchInstruction face stray s = .ok (some op) (charged face stray
      (instructionInfo (some op)).args (instructionInfo (some op)).ret
      (instructionInfo (some op)).gasPriceTier s) := by
  have hpc : s.pc < s.code.length := by
    by_contra hpast
    rw [opAt, List.getD_eq_default _ _ (Nat.not_lt.mp hpast)] at hop
    exact hstop (Option.some.inj hop).symm
  have hbyte := List.getElem?_eq_getElem hpc
  have hlength : s.spp.length = args.length + rest.length := by rw [hspp, List.length_append]
  have hsmall := tierGas_small hes stray hvalid
  rw [fetchInstruction_eq hbyte]
  rw [opAt, List.getD_eq_getElem _ _ hpc] at hop
  rw [hop]
  exact charge_ok (by omega) (by omega) (hsmall.trans (by unfold maxInt63; norm_num))

/-- What is left of the machine by an instruction that has put a word for its operands. -/
structure Replaces (face : ExtVMFace W) (stray : UInt32) (op : Instruction) (w : Word)
    (rest : List Word) (s t : VM W) : Prop where
  spp : t.spp = w :: rest
  pc : t.pc = s.pc + 1
  afford : stepCost face stray op s ≤ s.ioGas
  ioGas : t.ioGas = s.ioGas - stepCost face stray op s
  mem : t.mem = s.mem
  ext : t.ext = s.ext

theorem runs_step_of_case {u : VM W} {P : VM W → Prop} {E : VMException → VM W → Prop}
    (hfetch : fetchInstruction face stray s = .ok (some op) u)
    (hcase : Runs (interpretCase sha3 face (some op)) u (fun bounce t => bounce = .interpretCases ∧ P t)
      E) : Runs (step sha3 face stray) s (fun b t => b = true ∧ P t) E := by
  refine runs_bind (runs_of_ok hfetch (runs_bind (hcase.imp fun bounce t ht => ?_)))
  obtain ⟨rfl, hP⟩ := ht
  exact runs_pure ⟨rfl, hP⟩

/-- The price of an instruction that has nothing to do with the memory. -/
theorem stepCost_plain (hover : handsOver op = false) (hneed : memoryNeed op s.spp = 0)
    (hcopied : copied op s.spp = 0) :
    stepCost face stray op s = fee face stray op s.ext s.spp := by
  rw [stepCost, cost_of_not_handsOver hover, baseCost, hneed, hcopied, expansion_zero, copyPrice_zero,
    Nat.add_zero]

/-- The instruction `op` is next, with the operands `args` on top of the stack, which is not too
high. -/
structure Applies (face : ExtVMFace W) (op : Instruction) (args rest : List Word) (s : VM W) :
    Prop where
  priced : face.evmSchedule.Priced
  opAt : opAt s = some op
  valid : isValidInstruction (some op) = true
  stop : op ≠ .STOP
  spp : s.spp = args ++ rest
  args : args.length = (instructionInfo (some op)).args
  room : rest.length + (instructionInfo (some op)).args ≤ 1024

theorem operand_append {args rest : List Word} {i : ℕ} (hi : i < args.length) :
    operand (args ++ rest) i = operand args i := by
  rw [operand, operand, List.getD_append _ _ _ _ hi]

/-- An instruction at the price of its tier, which puts `w` for its operands. -/
theorem Applies.ordinary {e : Exec W Word} {args rest : List Word} {w : Word}
    (h : Applies face op args rest s) (hpos : 0 < args.length)
    (hret : (instructionInfo (some op)).ret = 1)
    (hcase : interpretCase sha3 face (some op) = ordinary e)
    (hcost : stepCost face stray op s = tierGas face stray (instructionInfo (some op)).gasPriceTier)
    (he : ∀ u : VM W, u.sp = args ++ rest → e u = .ok w u) :
    Runs (step sha3 face stray) s (fun b t => b = true ∧ Replaces face stray op w rest s t)
      (fun e _ => e = .OutOfGas ∧ s.ioGas < stepCost face stray op s) := by
  have hroom := h.room
  have hargs := h.args
  refine runs_step_of_case (fetchInstruction_ok h.priced h.opAt h.valid h.stop h.spp hargs
    (by omega)) ?_
  obtain ⟨x, hlast⟩ : ∃ x, args.drop (args.length - 1) = [x] :=
    List.length_eq_one_iff.mp (by rw [List.length_drop]; omega)
  have htop : (charged face stray (instructionInfo (some op)).args (instructionInfo (some op)).ret
      (instructionInfo (some op)).gasPriceTier s).spp = x :: rest := by
    show List.replicate _ _ ++ s.spp.drop _ = _
    rw [hret, ← hargs, h.spp, List.drop_append_of_le_length (by omega), hlast,
      show 1 - args.length = 0 by omega]
    rfl
  rw [hcase]
  refine runs_ordinary htop (he _ h.spp) (fun hle => ⟨rfl, ?_⟩) fun hlt => ⟨rfl, hcost ▸ hlt⟩
  exact ⟨rfl, rfl, hcost ▸ hle, by rw [hcost]; rfl, rfl, rfl⟩

theorem Applies.binary {f : Word → Word → Word} {args rest : List Word}
    (h : Applies face op args rest s) (htwo : (instructionInfo (some op)).args = 2)
    (hret : (instructionInfo (some op)).ret = 1)
    (hcase : interpretCase sha3 face (some op) = VM.ordinary (VM.binary f))
    (hcost : stepCost face stray op s = tierGas face stray (instructionInfo (some op)).gasPriceTier)
    (hyields : ∀ l, Yields op l (f (operand l 0) (operand l 1))) :
    Runs (step sha3 face stray) s
      (fun b t => b = true ∧ ∃ w, Yields op args w ∧ Replaces face stray op w rest s t)
      (fun e _ => e = .OutOfGas ∧ s.ioGas < stepCost face stray op s) := by
  have hlength := h.args.trans htwo
  refine (h.ordinary (by omega) hret hcase hcost fun u hu => ?_).imp fun b t ht =>
    ⟨ht.1, _, hyields args, ht.2⟩
  have hsp : 2 ≤ u.sp.length := by
    rw [hu, List.length_append]
    omega
  rw [binary_ok hsp, hu, operand_append (by omega), operand_append (by omega)]

theorem Applies.ternary {f : Word → Word → Word → Word} {args rest : List Word}
    (h : Applies face op args rest s) (hthree : (instructionInfo (some op)).args = 3)
    (hret : (instructionInfo (some op)).ret = 1)
    (hcase : interpretCase sha3 face (some op) = VM.ordinary (VM.ternary f))
    (hcost : stepCost face stray op s = tierGas face stray (instructionInfo (some op)).gasPriceTier)
    (hyields : ∀ l, Yields op l (f (operand l 0) (operand l 1) (operand l 2))) :
    Runs (step sha3 face stray) s
      (fun b t => b = true ∧ ∃ w, Yields op args w ∧ Replaces face stray op w rest s t)
      (fun e _ => e = .OutOfGas ∧ s.ioGas < stepCost face stray op s) := by
  have hlength := h.args.trans hthree
  refine (h.ordinary (by omega) hret hcase hcost fun u hu => ?_).imp fun b t ht =>
    ⟨ht.1, _, hyields args, ht.2⟩
  have hsp : 3 ≤ u.sp.length := by
    rw [hu, List.length_append]
    omega
  rw [ternary_ok hsp, hu, operand_append (by omega), operand_append (by omega),
    operand_append (by omega)]

theorem Applies.exp {args rest : List Word} (h : Applies face .EXP args rest s) :
    Runs (step sha3 face stray) s
      (fun b t => b = true ∧ ∃ w, Yields .EXP args w ∧ Replaces face stray .EXP w rest s t)
      (fun e _ => e = .OutOfGas ∧ s.ioGas < stepCost face stray .EXP s) := by
  have hlength : args.length = 2 := h.args
  have hroom : rest.length + 2 ≤ 1024 := h.room
  obtain ⟨base, expon, rfl⟩ := List.length_eq_two.mp hlength
  have hspp := h.spp
  refine runs_step_of_case (fetchInstruction_ok h.priced h.opAt h.valid h.stop hspp hlength
    (show rest.length + 1 ≤ 1024 by omega)) ?_
  have hcost : stepCost face stray .EXP s =
      face.evmSchedule.expGas + face.evmSchedule.expByteGas * byteCount expon.toNat := by
    rw [stepCost_plain rfl rfl rfl, fee, hspp]
    rfl
  have htop : ∀ args ret tier, args = 2 → ret = 1 →
      (charged face stray args ret tier s).spp = expon :: rest := by
    rintro args ret tier rfl rfl
    show [] ++ s.spp.drop 1 = _
    rw [hspp]
    rfl
  generalize hu : charged face stray _ _ _ s = u
  have husp : u.sp = base :: expon :: rest := hu ▸ hspp
  have huspp : u.spp = expon :: rest := hu ▸ htop _ _ _ rfl rfl
  have hsame : u.ioGas = s.ioGas ∧ u.pc = s.pc ∧ u.mem = s.mem ∧ u.ext = s.ext := by
    rw [← hu]
    exact ⟨rfl, rfl, rfl, rfl⟩
  obtain ⟨hgas, hpc, hmem, hext⟩ := hsame
  refine runs_bind (runs_item_exact (show 1 < u.sp.length by rw [husp]; simp) ?_)
  have hexpon : operand u.sp 1 = expon := by rw [husp]; rfl
  have hsmall := h.priced.small face.evmSchedule.expGas (by simp)
  have hbyte := Nat.mul_le_mul (h.priced.small face.evmSchedule.expByteGas (by simp))
    (byteCount_le expon)
  rw [hexpon, exponent_bytes, exp_price h.priced (byteCount_le expon), ← hcost]
  refine runs_bind (runs_toInt63_exact (fun _ => runs_bind (runs_setRunGas ?_)) fun hlarge => ?_)
  · refine runs_ordinary huspp (binary_ok (show 2 ≤ u.sp.length by rw [husp]; simp)) (fun hle => ?_)
      fun hlt => ⟨rfl, hgas ▸ hlt⟩
    refine ⟨rfl, _, ?_, rfl, by rw [← hpc], hgas ▸ hle, by rw [← hgas], hmem, hext⟩
    rw [husp]
    exact yields_exp [base, expon]
  · unfold maxInt63 at hlarge
    omega

/-- Whatever the operands are, the arithmetic instructions put the result of the Yellow Paper for
them, for their price, and change nothing else; without the gas for the price they run out of it. -/
theorem arithmetic_exact (sha3 : Bytes → H256) (face : ExtVMFace W)
    (hschedule : face.evmSchedule ∈ schedules) (stray : UInt32) (s : VM W) (op : Instruction)
    (hop : opAt s = some op) (harithmetic : arithmetic op = true) (args rest : List Word)
    (hargs : args.length = (instructionInfo (some op)).args) (hspp : s.spp = args ++ rest)
    (hroom : s.spp.length ≤ 1024) :
    Runs (step sha3 face stray) s
      (fun b t => b = true ∧ ∃ w, Yields op args w ∧ Replaces face stray op w rest s t)
      (fun e _ => e = .OutOfGas ∧ s.ioGas < stepCost face stray op s) := by
  have hlength : s.spp.length = args.length + rest.length := by rw [hspp, List.length_append]
  have happlies : isValidInstruction (some op) = true → op ≠ .STOP → Applies face op args rest s :=
    fun hvalid hstop => ⟨priced_of_mem hschedule, hop, hvalid, hstop, hspp, hargs, by omega⟩
  cases op with
  | EXP => exact (happlies rfl (by decide)).exp
  | DIV => exact (happlies rfl (by decide)).binary rfl rfl rfl (stepCost_plain rfl rfl rfl) yields_div
  | SDIV => exact (happlies rfl (by decide)).binary rfl rfl rfl (stepCost_plain rfl rfl rfl) yields_sdiv
  | MOD => exact (happlies rfl (by decide)).binary rfl rfl rfl (stepCost_plain rfl rfl rfl) yields_mod
  | SMOD => exact (happlies rfl (by decide)).binary rfl rfl rfl (stepCost_plain rfl rfl rfl) yields_smod
  | BYTE => exact (happlies rfl (by decide)).binary rfl rfl rfl (stepCost_plain rfl rfl rfl) yields_byte
  | SLT => exact (happlies rfl (by decide)).binary rfl rfl rfl (stepCost_plain rfl rfl rfl) yields_slt
  | SGT => exact (happlies rfl (by decide)).binary rfl rfl rfl (stepCost_plain rfl rfl rfl) yields_sgt
  | SIGNEXTEND =>
    exact (happlies rfl (by decide)).binary rfl rfl rfl (stepCost_plain rfl rfl rfl) yields_signextend
  | ADDMOD =>
    exact (happlies rfl (by decide)).ternary rfl rfl rfl (stepCost_plain rfl rfl rfl) yields_addmod
  | MULMOD =>
    exact (happlies rfl (by decide)).ternary rfl rfl rfl (stepCost_plain rfl rfl rfl) yields_mulmod
  | _ => cases harithmetic

/-- The least number divided by -1. -/
def dividing : VM Unit :=
  { initEntry (stillFace [0x05] (by decide)) 1000 () with
    spp := [BitVec.intMin 256, BitVec.allOnes 256] }

theorem arithmetic_exact_dividing :
    Runs (step (fun _ => H256.ofNat 0) (stillFace [0x05] (by decide)) 0) dividing
      (fun b t => b = true ∧ ∃ w, Yields .SDIV [BitVec.intMin 256, BitVec.allOnes 256] w ∧
        Replaces (stillFace [0x05] (by decide)) 0 .SDIV w [] dividing t)
      (fun e _ => e = .OutOfGas ∧
        dividing.ioGas < stepCost (stillFace [0x05] (by decide)) 0 .SDIV dividing) :=
  arithmetic_exact (fun _ => H256.ofNat 0) (stillFace [0x05] (by decide))
    (by simp [schedules, stillFace]) 0 dividing .SDIV rfl rfl _ [] rfl rfl (by decide)

end Steps

end VM
end XChain
