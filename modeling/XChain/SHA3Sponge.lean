import XChain.FixedHash
import XChain.SHA3
import XChain.Sponge
import Mathlib.Data.List.GetD
import Mathlib.Data.Nat.Digits.Lemmas

/-!
# Hashing a text

The state is a string of bytes, which the rounds see as lanes with the lowest byte first.
Whole blocks are taken in from the text as it is; the filling of the last one is never
written out, but combined with the state byte by byte.
-/
namespace XChain
namespace SHA3

/-- The lanes that the bytes are in memory. -/
def loadLanes (a : Bytes) : Lanes :=
  Vector.ofFn fun i => BitVec.ofNat 64 (Nat.ofDigits 256 (((a.drop (8 * i.val)).take 8).map UInt8.toNat))

/-- The bytes that the lanes are in memory. -/
def storeLanes (a : Lanes) : Bytes :=
  List.ofFn fun k : Fin 200 =>
    UInt8.ofNat ((a.get ⟨k.val / 8, by omega⟩).toNat / 256 ^ (k.val % 8))

def Plen : ℕ := 200

/-- The permutation of the state's bytes. -/
def P (a : Bytes) : Bytes := storeLanes (keccakf (loadLanes a))

/-- Combines the first `len` bytes of the state with those of the text. -/
def xorin (a src : Bytes) (len : ℕ) : Bytes :=
  a.mapIdx fun i b => if i < len then b ^^^ src.getD i 0 else b

/-- Combines the whole blocks of the text with the state. What is left of it comes back too. -/
def foldIn (rate : ℕ) : ℕ → Bytes → Bytes → Bytes × Bytes
  | 0, a, m => (a, m)
  | fuel + 1, a, m =>
    if rate ≤ m.length then foldIn rate fuel (P (xorin a m rate)) (m.drop rate) else (a, m)

/-- Sets the output from the state, whole blocks first. -/
def foldOut (rate : ℕ) : ℕ → Bytes → ℕ → Bytes
  | 0, a, outlen => a.take outlen
  | fuel + 1, a, outlen =>
    if rate ≤ outlen then a.take rate ++ foldOut rate fuel (P a) (outlen - rate)
    else a.take outlen

/-- The output, or nothing if a pointer is missing where one is needed or the rate is too large. -/
def hash (out : Bool) (outlen : ℕ) (inp : Bool) (m : Bytes) (rate : ℕ) (delim : UInt8) :
    Option Bytes :=
  if out = false ∨ (inp = false ∧ m.length ≠ 0) ∨ Plen ≤ rate then none
  else
    let (a, m) := foldIn rate m.length (List.replicate Plen 0) m
    let a := a.modify m.length (· ^^^ delim)
    let a := a.modify (rate - 1) (· ^^^ 0x80)
    let a := P (xorin a m m.length)
    some (foldOut rate outlen a outlen)

def defshake (bits : ℕ) (out : Bool) (outlen : ℕ) (inp : Bool) (m : Bytes) : Option Bytes :=
  hash out outlen inp m (200 - bits / 4) 0x1f

def defsha3 (bits : ℕ) (out : Bool) (outlen : ℕ) (inp : Bool) (m : Bytes) : Option Bytes :=
  if outlen > bits / 8 then none else hash out outlen inp m (200 - bits / 4) 0x01

def shake128 := defshake 128
def shake256 := defshake 256
def sha3_224 := defsha3 224
def sha3_256 := defsha3 256
def sha3_384 := defsha3 384
def sha3_512 := defsha3 512

/-- Loads the hash into an output of the right size. -/
def sha3Into (input o_output : Bytes) : Bool × Bytes :=
  if o_output.length ≠ 32 then (false, o_output)
  else (true, (sha3_256 true 32 true input).getD o_output)

def sha3 (input : Bytes) : FixedHash 32 :=
  .ofRef 32 (sha3Into input (FixedHash.zero 32).bytes).2

/-! ### Bytes and bits -/

theorem testBit_ofDigits (l : List ℕ) (hl : ∀ d ∈ l, d < 2 ^ 8) (k : ℕ) :
    (Nat.ofDigits 256 l).testBit k = (l.getD (k / 8) 0).testBit (k % 8) := by
  induction l generalizing k with
  | nil => simp [Nat.ofDigits]
  | cons d l ih =>
    obtain ⟨hd, hl⟩ := List.forall_mem_cons.mp hl
    have hsum : Nat.ofDigits 256 (d :: l) = 2 ^ 8 * Nat.ofDigits 256 l + d := by
      rw [Nat.ofDigits_cons, Nat.add_comm]
      rfl
    rw [hsum, Nat.testBit_two_pow_mul_add _ hd]
    by_cases hk : k < 8
    · rw [if_pos hk, Nat.div_eq_of_lt hk, Nat.mod_eq_of_lt hk, List.getD_cons_zero]
    · have hdiv : k / 8 = (k - 8) / 8 + 1 := by omega
      have hmod : k % 8 = (k - 8) % 8 := by omega
      rw [if_neg hk, ih hl, hdiv, hmod, List.getD_cons_succ]

theorem bits_loadLanes (a : Bytes) : bits (loadLanes a) = Keccak.ofBytes a := by
  funext x y z
  have hz : z.val / 8 < 8 := by omega
  have hlt : ∀ d ∈ ((a.drop (8 * (lane x y).val)).take 8).map UInt8.toNat, d < 2 ^ 8 := by
    intro d hd
    obtain ⟨b, -, rfl⟩ := List.mem_map.mp hd
    exact b.toNat_lt
  unfold bits loadLanes Keccak.ofBytes
  rw [show (Vector.ofFn _).get (lane x y) = _ from Vector.getElem_ofFn (lane x y).isLt, BitVec.getLsbD_ofNat, decide_eq_true z.isLt, Bool.true_and, testBit_ofDigits _ hlt]
  congr 1
  rw [List.getD_eq_getElem?_getD, List.getElem?_map, List.getElem?_take_of_lt hz,
    List.getElem?_drop, List.getD_eq_getElem?_getD]
  show _ = UInt8.toNat ((a[8 * (lane x y).val + z.val / 8]?).getD 0)
  cases a[8 * (lane x y).val + z.val / 8]? <;> rfl

theorem storeLanes_eq (a : Lanes) : storeLanes a = Keccak.toBytes (bits a) := by
  unfold storeLanes Keccak.toBytes
  congr 1
  funext k
  apply UInt8.toNat_inj.mp
  rw [UInt8.toNat_ofNat', UInt8.toNat_ofNat']
  apply Nat.eq_of_testBit_eq
  intro j
  rw [Nat.testBit_mod_two_pow, Nat.testBit_mod_two_pow]
  by_cases hj : j < 8
  · have hlane : lane ⟨k.val / 8 % 5, by omega⟩ ⟨k.val / 40, by omega⟩ = ⟨k.val / 8, by omega⟩ :=
      Fin.ext (by simp only [lane]; omega)
    have hpow : 256 ^ (k.val % 8) = 2 ^ (8 * (k.val % 8)) := by
      rw [Nat.pow_mul]
    rw [Nat.testBit_ofBits_lt _ _ hj, hpow, Nat.testBit_div_two_pow]
    unfold bits
    rw [hlane, Nat.add_comm j]
    rfl
  · rw [decide_eq_false hj, Bool.false_and, Bool.false_and]

/-- The permutation of the bytes is that of the bits. -/
theorem P_eq : P = Keccak.onBytes Keccak.permutation := by
  funext a
  rw [P, storeLanes_eq, bits_keccakf, bits_loadLanes]
  rfl

@[simp] theorem length_P (a : Bytes) : (P a).length = 200 := List.length_ofFn

/-! ### The loops -/

variable {rate fuel : ℕ} {a m : Bytes}

theorem xorin_eq : xorin a m rate = Sponge.overlay a (m.take rate) := by
  unfold xorin Sponge.overlay
  congr 1
  funext i b
  rw [List.getD_eq_getElem?_getD, List.getD_eq_getElem?_getD, List.getElem?_take]
  split_ifs with hi
  · rfl
  · simp

theorem foldIn_eq (hrate : 0 < rate) (hfuel : m.length / rate ≤ fuel) :
    foldIn rate fuel a m = (Sponge.absorb P rate a m, m.drop (m.length / rate * rate)) := by
  induction fuel generalizing a m with
  | zero =>
    have hlt : m.length < rate := by
      by_contra hle
      have := Nat.div_pos (Nat.not_lt.mp hle) hrate
      omega
    rw [foldIn, Sponge.absorb_of_lt hlt, Nat.div_eq_of_lt hlt, Nat.zero_mul, List.drop_zero]
  | succ fuel ih =>
    rw [foldIn]
    split_ifs with hle
    · have hdiv : m.length / rate = (m.drop rate).length / rate + 1 := by
        rw [List.length_drop, Nat.div_eq_sub_div hrate hle]
      rw [ih (by omega), Sponge.absorb_of_le hrate hle, xorin_eq, List.drop_drop, hdiv,
        Nat.succ_mul, Nat.add_comm]
    · have hlt : m.length < rate := Nat.not_le.mp hle
      rw [Sponge.absorb_of_lt hlt, Nat.div_eq_of_lt hlt, Nat.zero_mul, List.drop_zero]

theorem foldOut_eq (hrate : 0 < rate) (hle : rate ≤ Plen) {outlen : ℕ}
    (hfuel : outlen / rate ≤ fuel) (ha : a.length = Plen) :
    foldOut rate fuel a outlen = Sponge.squeeze P rate a outlen := by
  induction fuel generalizing a outlen with
  | zero =>
    have hlt : outlen < rate := by
      by_contra h
      have := Nat.div_pos (Nat.not_lt.mp h) hrate
      omega
    rw [foldOut, Sponge.squeeze_of_le (Nat.le_of_lt hlt) (ha ▸ hle)]
  | succ fuel ih =>
    rw [foldOut]
    split_ifs with hout
    · obtain ⟨n, rfl⟩ := Nat.exists_eq_add_of_le hout
      rw [Nat.add_div_left _ hrate] at hfuel
      rw [Nat.add_sub_cancel_left, ih (by omega) (length_P a), Sponge.squeeze_add hrate (ha ▸ hle)]
    · rw [Sponge.squeeze_of_le (Nat.le_of_not_le hout) (ha ▸ hle)]

/-- The filling that is combined byte by byte is the one that would be appended. -/
theorem xorin_filling (hlt : m.length < rate) (delim : UInt8) :
    xorin ((a.modify m.length (· ^^^ delim)).modify (rate - 1) (· ^^^ 0x80)) m m.length =
      Sponge.overlay a (m ++ Sponge.filling rate delim m.length) := by
  refine List.ext_getElem (by simp [xorin]) fun i _ _ => ?_
  simp only [xorin, Sponge.overlay, List.getElem_mapIdx, List.getElem_modify]
  by_cases hi : i < m.length
  · rw [if_pos hi, if_neg (by omega), if_neg (by omega), List.getD_append _ _ _ _ hi]
  · obtain ⟨j, rfl⟩ := Nat.exists_eq_add_of_le (Nat.not_lt.mp hi)
    rw [if_neg hi, List.getD_append_right _ _ _ _ (Nat.not_lt.mp hi), Nat.add_sub_cancel_left,
      Sponge.getD_filling hlt]
    have hmark : m.length = m.length + j ↔ j = 0 := by omega
    have hbit : rate - 1 = m.length + j ↔ m.length + j + 1 = rate := by omega
    simp only [hmark, hbit]
    split_ifs <;> simp [UInt8.xor_assoc]

/-- The code's loops are the sponge over the permutation of the bits. -/
theorem hash_eq {out inp : Bool} {outlen : ℕ} {delim : UInt8} (hrate : 0 < rate)
    (hlt : rate < Plen) (hout : out = true) (hinp : inp = true ∨ m = []) :
    hash out outlen inp m rate delim =
      some (Sponge.sponge (Keccak.onBytes Keccak.permutation) rate Plen outlen delim m) := by
  have hok : ¬ (out = false ∨ (inp = false ∧ m.length ≠ 0) ∨ Plen ≤ rate) := by
    rintro (h | ⟨hnull, hne⟩ | h)
    · rw [hout] at h
      cases h
    · rcases hinp with hinp | hinp
      · rw [hinp] at hnull
        cases hnull
      · exact hne (by rw [hinp]; rfl)
    · omega
  rw [hash, if_neg hok, foldIn_eq hrate (Nat.div_le_self ..)]
  dsimp only
  have hrest : (m.drop (m.length / rate * rate)).length = m.length % rate := by
    rw [List.length_drop, Nat.mul_comm]
    have := Nat.div_add_mod m.length rate
    omega
  have hmod : m.length % rate < rate := Nat.mod_lt _ hrate
  rw [xorin_filling (by rw [hrest]; exact hmod), hrest, ← P_eq, Sponge.sponge,
    Sponge.absorb_padded hrate,
    foldOut_eq hrate (Nat.le_of_lt hlt) (Nat.div_le_self ..) (length_P _)]

/-- The hash of a text is 32 bytes of the sponge that takes in 136 bytes at a time. -/
theorem bytes_sha3 (m : Bytes) : (sha3 m).bytes =
    Sponge.sponge (Keccak.onBytes Keccak.permutation) 136 Plen 32 0x01 m := by
  have hhash : sha3_256 true 32 true m =
      some (Sponge.sponge (Keccak.onBytes Keccak.permutation) 136 Plen 32 0x01 m) := by
    rw [sha3_256, defsha3, if_neg (by decide)]
    exact hash_eq (by decide) (by decide) rfl (Or.inl rfl)
  have hzero : (FixedHash.zero 32).bytes.length = 32 := FixedHash.size _
  rw [sha3, sha3Into, if_neg (by rw [hzero]; exact fun h => h rfl), hhash, Option.getD_some]
  exact FixedHash.ofRef_bytes (by rw [Sponge.length_sponge])

end SHA3

end XChain
