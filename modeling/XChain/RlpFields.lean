import XChain.Rlp

/-!
# Numbers and hashes as items

How the fields of a record are written as items and read back. A number is its digits
without leading zeros, and a strict reader takes nothing else; a value of fixed size is
all of its bytes. What a reader takes is what the writer wrote, so a field that is read
and written again is the same item.
-/
namespace XChain
namespace Rlp

/-- A number as an item. -/
def ofNat (n : ℕ) : Item := .data (bigEndian n)

/-- The last `n` big-endian digits of a number. -/
def fixedBytes (n v : ℕ) : Bytes := List.ofFn fun i : Fin n => UInt8.ofNat (v / 256 ^ (n - 1 - i.val))

/-- Reads an unsigned number of the given size: no leading zeros, and not too long. -/
def toUint (bits : ℕ) : Item → Option (BitVec bits)
  | .data b =>
    if 8 * b.length ≤ bits ∧ b.head? ≠ some 0 then some (BitVec.ofNat bits (ofBigEndian b))
    else none
  | .list _ => none

/-- Reads a value of exactly the given size. -/
def toFixed (bits : ℕ) : Item → Option (BitVec bits)
  | .data b => if 8 * b.length = bits then some (BitVec.ofNat bits (ofBigEndian b)) else none
  | .list _ => none

/-- The bytes of a string; a list has none. -/
def toBytes : Item → Bytes
  | .data b => b
  | .list _ => []

/-- The number of bytes of a string; a list has none. -/
def size : Item → ℕ
  | .data b => b.length
  | .list _ => 0

def isList : Item → Bool
  | .data _ => false
  | .list _ => true

/-- A string or a list without anything in it. -/
def isEmpty : Item → Bool
  | .data b => b.isEmpty
  | .list l => l.isEmpty

def itemCount : Item → ℕ
  | .data _ => 0
  | .list l => l.length

/-- The item at a place of a list. -/
def get? : Item → ℕ → Option Item
  | .data _, _ => none
  | .list l, i => l[i]?

/-- Reads a byte string that is exactly the encoding of an item. -/
def decodeStrict (b : Bytes) : Option Item := (decode b).filter fun x => encode x = b

@[simp] theorem decodeStrict_encode (x : Item) : decodeStrict (encode x) = some x := by
  simp [decodeStrict]

theorem encode_of_decodeStrict {b : Bytes} {x : Item} (h : decodeStrict b = some x) :
    encode x = b := by
  obtain ⟨-, hx⟩ := Option.filter_eq_some_iff.mp h
  simpa using hx

/-- The item at the beginning of a byte string, whatever follows it. -/
def readFirst (b : Bytes) : Option Item := (decodeItem (2 * b.length) b).map Prod.fst

theorem readFirst_encode (x : Item) (rest : Bytes) : readFirst (encode x ++ rest) = some x := by
  have hfuel : 2 * (encode x).length ≤ 2 * (encode x ++ rest).length + 1 := by
    rw [List.length_append]
    omega
  rw [readFirst, decodeItem_encode x _ rest hfuel, Option.map_some]

/-- Readers that fail are run one after the other. -/
theorem bind_eq_ok {ε α β : Type} {m : Except ε α} {f : α → Except ε β} {b : β} :
    (m >>= f) = .ok b ↔ ∃ a, m = .ok a ∧ f a = .ok b := by
  cases m with
  | error e =>
    constructor
    · intro h
      cases h
    · rintro ⟨a, h, -⟩
      cases h
  | ok a =>
    constructor
    · intro h
      exact ⟨a, rfl, h⟩
    · rintro ⟨a', h, hf⟩
      cases h
      exact hf

theorem check_eq_ok {ε : Type} {c : Prop} [Decidable c] {e : ε} {u : Unit} :
    (if c then pure () else throw e : Except ε Unit) = .ok u ↔ c := by
  split_ifs with hc <;> simp [hc, pure, Except.pure]

theorem refuse_eq_ok {ε : Type} {c : Prop} [Decidable c] {e : ε} {u : Unit} :
    (if c then throw e else pure () : Except ε Unit) = .ok u ↔ ¬ c := by
  split_ifs with hc <;> simp [hc, pure, Except.pure]

section Digits

theorem ofBigEndian_lt (b : Bytes) : ofBigEndian b < 2 ^ (8 * b.length) := by
  have h : ∀ d ∈ b.reverse.map UInt8.toNat, d < 256 := by
    intro d hd
    obtain ⟨x, -, rfl⟩ := List.mem_map.mp hd
    exact x.toNat_lt
  have hlt := Nat.ofDigits_lt_base_pow_length (by norm_num) h
  rw [List.length_map, List.length_reverse] at hlt
  rw [pow_mul]
  exact hlt

theorem bigEndian_ofBigEndian {b : Bytes} (h : b.head? ≠ some 0) :
    bigEndian (ofBigEndian b) = b := by
  have hdigits : Nat.digits 256 (ofBigEndian b) = b.reverse.map UInt8.toNat := by
    refine Nat.digits_ofDigits 256 (by norm_num) _ (fun d hd => ?_) fun hne => ?_
    · obtain ⟨x, -, rfl⟩ := List.mem_map.mp hd
      exact x.toNat_lt
    · -- The last digit of the reversed string is the first byte.
      cases b with
      | nil => simp at hne
      | cons x b =>
        intro hzero
        simp only [List.reverse_cons, List.map_append, List.map_cons, List.map_nil,
          List.getLast_append_singleton] at hzero
        refine h (congrArg some ?_)
        exact UInt8.toNat_inj.mp hzero
  have hbytes : (b.reverse.map UInt8.toNat).map UInt8.ofNat = b.reverse := by
    rw [List.map_map]
    exact (List.map_congr_left fun x _ => UInt8.ofNat_toNat).trans (List.map_id _)
  rw [bigEndian, hdigits, hbytes, List.reverse_reverse]

theorem length_bigEndian_le {n k : ℕ} (h : n < 2 ^ (8 * k)) : (bigEndian n).length ≤ k := by
  rw [bigEndian, List.length_reverse, List.length_map]
  rw [pow_mul] at h
  exact (Nat.digits_length_le_iff (by norm_num) n).mpr h

@[simp] theorem length_fixedBytes (n v : ℕ) : (fixedBytes n v).length = n := List.length_ofFn

/-- One more digit in front. -/
theorem fixedBytes_succ (n v : ℕ) :
    fixedBytes (n + 1) v = UInt8.ofNat (v / 256 ^ n) :: fixedBytes n v := by
  unfold fixedBytes
  rw [List.ofFn_succ]
  congr 1
  refine List.ofFn_inj.mpr (funext fun i => ?_)
  have hi : n + 1 - 1 - i.succ.val = n - 1 - i.val := by
    rw [Fin.val_succ]
    omega
  rw [hi]

theorem ofBigEndian_cons (x : UInt8) (b : Bytes) :
    ofBigEndian (x :: b) = x.toNat * 256 ^ b.length + ofBigEndian b := by
  unfold ofBigEndian
  rw [List.reverse_cons, List.map_append, Nat.ofDigits_append, List.length_map, List.length_reverse]
  simp only [List.map_cons, List.map_nil, Nat.ofDigits_singleton]
  rw [Nat.mul_comm, Nat.add_comm]

theorem ofBigEndian_fixedBytes (n v : ℕ) : ofBigEndian (fixedBytes n v) = v % 256 ^ n := by
  induction n with
  | zero => simp [fixedBytes, ofBigEndian, Nat.mod_one]
  | succ n ih =>
    rw [fixedBytes_succ, ofBigEndian_cons, ih, length_fixedBytes, UInt8.toNat_ofNat']
    have hsplit : v % (256 ^ n * 256) = v % 256 ^ n + 256 ^ n * (v / 256 ^ n % 256) := Nat.mod_mul
    rw [pow_succ (256 : ℕ), hsplit, Nat.add_comm, Nat.mul_comm (256 ^ n)]

theorem fixedBytes_ofBigEndian (b : Bytes) : fixedBytes b.length (ofBigEndian b) = b := by
  have hadd : ∀ (b : Bytes) (v : ℕ),
      fixedBytes b.length (v * 256 ^ b.length + ofBigEndian b) = b := by
    intro b
    induction b with
    | nil => simp [fixedBytes]
    | cons x b ih =>
      intro v
      have hlt : ofBigEndian b < 256 ^ b.length := by
        have h := ofBigEndian_lt b
        rwa [pow_mul] at h
      have hval : v * 256 ^ (b.length + 1) + (x.toNat * 256 ^ b.length + ofBigEndian b) =
          (v * 256 + x.toNat) * 256 ^ b.length + ofBigEndian b := by ring
      have hx := x.toNat_lt
      have hdiv : ((v * 256 + x.toNat) * 256 ^ b.length + ofBigEndian b) / 256 ^ b.length =
          v * 256 + x.toNat := by
        rw [Nat.mul_comm, Nat.mul_add_div (by positivity), Nat.div_eq_of_lt hlt, Nat.add_zero]
      have hhead : UInt8.ofNat (v * 256 + x.toNat) = x := by
        refine UInt8.toNat_inj.mp ?_
        rw [UInt8.toNat_ofNat']
        omega
      rw [List.length_cons, fixedBytes_succ, ofBigEndian_cons, hval, hdiv, hhead, ih]
  simpa using hadd b 0

end Digits

section Fields

variable {bits : ℕ}

@[simp] theorem toUint_ofNat (hbits : 8 ∣ bits) (w : BitVec bits) :
    toUint bits (ofNat w.toNat) = some w := by
  obtain ⟨k, rfl⟩ := hbits
  have hlen := length_bigEndian_le w.isLt
  have hhead : (bigEndian w.toNat).head? ≠ some 0 := by
    by_cases h0 : w.toNat = 0
    · rw [h0]
      simp [bigEndian]
    · exact bigEndian_head_ne _ h0
  rw [ofNat, toUint, if_pos ⟨by omega, hhead⟩, ofBigEndian_bigEndian, BitVec.ofNat_toNat,
    BitVec.setWidth_eq]

/-- A number that is read was written so. -/
theorem eq_ofNat_of_toUint {x : Item} {w : BitVec bits} (h : toUint bits x = some w) :
    x = ofNat w.toNat := by
  cases x with
  | list l => cases h
  | data b =>
    simp only [toUint, Option.ite_none_right_eq_some, Option.some.injEq] at h
    obtain ⟨⟨hlen, hhead⟩, rfl⟩ := h
    have hlt : ofBigEndian b < 2 ^ bits :=
      (ofBigEndian_lt b).trans_le (Nat.pow_le_pow_right (by norm_num) hlen)
    rw [ofNat, BitVec.toNat_ofNat, Nat.mod_eq_of_lt hlt, bigEndian_ofBigEndian hhead]

@[simp] theorem toFixed_fixedBytes (n : ℕ) (w : BitVec (8 * n)) :
    toFixed (8 * n) (.data (fixedBytes n w.toNat)) = some w := by
  have hlt : w.toNat < 256 ^ n := by
    have h := w.isLt
    rwa [pow_mul] at h
  simp only [toFixed, length_fixedBytes, if_true]
  rw [ofBigEndian_fixedBytes, Nat.mod_eq_of_lt hlt, BitVec.ofNat_toNat, BitVec.setWidth_eq]

theorem eq_fixedBytes_of_toFixed {n : ℕ} {x : Item} {w : BitVec (8 * n)}
    (h : toFixed (8 * n) x = some w) : x = .data (fixedBytes n w.toNat) := by
  cases x with
  | list l => cases h
  | data b =>
    simp only [toFixed, Option.ite_none_right_eq_some, Option.some.injEq] at h
    obtain ⟨hlen, rfl⟩ := h
    obtain rfl : b.length = n := by omega
    rw [BitVec.toNat_ofNat, Nat.mod_eq_of_lt (ofBigEndian_lt b), fixedBytes_ofBigEndian]

end Fields

end Rlp
end XChain
