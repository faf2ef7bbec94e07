import XChain.RlpFields

/-!
# Byte strings of fixed size

Keys, nonces, digests and signatures. Two of them of one size are combined bytewise, and
combining twice with the same one gives back what was there before. A part cut out of a
longer string is empty when it would go over the end.
-/
namespace XChain

/-- A byte string whose size is part of its type. -/
@[ext] structure FixedHash (n : ℕ) where
  bytes : Bytes
  size : bytes.length = n
  deriving DecidableEq

attribute [simp] FixedHash.size

/-- The part of `count` bytes from `start` on, or nothing if that is out of bounds. -/
def cropped (b : Bytes) (start count : ℕ) : Bytes :=
  if start + count ≤ b.length then (b.drop start).take count else []

theorem cropped_append (a b c : Bytes) : cropped (a ++ b ++ c) a.length b.length = b := by
  have hle : a.length + b.length ≤ (a ++ b ++ c).length := by
    simp only [List.length_append]
    omega
  rw [cropped, if_pos hle, List.append_assoc, List.drop_left, List.take_left]

theorem cropped_zero {b : Bytes} {n : ℕ} (h : n ≤ b.length) : cropped b 0 n = b.take n := by
  rw [cropped, if_pos (by omega), List.drop_zero]

/-- The rest from `start` on, or nothing if that is out of bounds. -/
def croppedFrom (b : Bytes) (start : ℕ) : Bytes :=
  if start ≤ b.length then b.drop start else []

@[simp] theorem croppedFrom_eq (b : Bytes) (start : ℕ) : croppedFrom b start = b.drop start := by
  by_cases h : start ≤ b.length
  · rw [croppedFrom, if_pos h]
  · rw [croppedFrom, if_neg h, List.drop_of_length_le (by omega)]

namespace FixedHash

variable {n : ℕ}

def zero (n : ℕ) : FixedHash n := ⟨List.replicate n 0, List.length_replicate⟩

/-- The bytes of a reference of the right size, and zeros otherwise. -/
def ofRef (n : ℕ) (b : Bytes) : FixedHash n :=
  if h : b.length = n then ⟨b, h⟩ else zero n

theorem ofRef_bytes {b : Bytes} (h : b.length = n) : (ofRef n b).bytes = b := by
  rw [ofRef, dif_pos h]

@[simp] theorem ofRef_self (a : FixedHash n) : ofRef n a.bytes = a := by
  rw [ofRef, dif_pos a.size]

/-- Any byte that is not zero. -/
def isSet (a : FixedHash n) : Bool := a.bytes.any (· ≠ 0)

theorem eq_zero_of_not_isSet {a : FixedHash n} (h : ¬a.isSet) : a = zero n := by
  apply FixedHash.ext
  rw [zero, List.eq_replicate_iff]
  refine ⟨a.size, fun x hx => ?_⟩
  by_contra hne
  apply h
  rw [isSet, List.any_eq_true]
  exact ⟨x, hx, by simpa using hne⟩

def xor (a b : FixedHash n) : FixedHash n :=
  ⟨List.zipWith (· ^^^ ·) a.bytes b.bytes, by
    rw [List.length_zipWith, a.size, b.size, Nat.min_self]⟩

instance : XorOp (FixedHash n) := ⟨xor⟩

theorem bytes_xor (a b : FixedHash n) :
    (a ^^^ b).bytes = List.zipWith (· ^^^ ·) a.bytes b.bytes := rfl

theorem xor_comm (a b : FixedHash n) : a ^^^ b = b ^^^ a := by
  refine FixedHash.ext ?_
  rw [bytes_xor, bytes_xor, List.zipWith_comm]
  simp only [UInt8.xor_comm]

/-- Combining twice with one value undoes itself. -/
@[simp] theorem xor_xor_self (a b : FixedHash n) : a ^^^ b ^^^ b = a := by
  have hcancel : ∀ (x y : Bytes), x.length = y.length →
      List.zipWith (· ^^^ ·) (List.zipWith (· ^^^ ·) x y) y = x := by
    intro x
    induction x with
    | nil => intro y _; rfl
    | cons u x ih =>
      intro y hy
      cases y with
      | nil => simp at hy
      | cons v y =>
        have hlen : x.length = y.length := by simpa using hy
        rw [List.zipWith_cons_cons, List.zipWith_cons_cons, ih y hlen, UInt8.xor_assoc,
          UInt8.xor_self, UInt8.xor_zero]
  refine FixedHash.ext ?_
  rw [bytes_xor, bytes_xor]
  exact hcancel _ _ (a.size.trans b.size.symm)

theorem xor_right_injective (a : FixedHash n) : Function.Injective fun b => a ^^^ b := by
  intro b c h
  have hb := xor_xor_self b a
  have hc := xor_xor_self c a
  simp only at h
  rw [xor_comm b, h, xor_comm a c, hc] at hb
  exact hb.symm

end FixedHash

namespace Rlp

theorem length_zeros_append {n : ℕ} {b : Bytes} (h : b.length ≤ n) :
    (List.replicate (n - b.length) 0 ++ b).length = n := by
  rw [List.length_append, List.length_replicate]
  omega

/-- Reads a string that is not too long, with zeros in front of a shorter one. -/
def toHash (n : ℕ) : Item → Option (FixedHash n)
  | .data b =>
    if h : b.length ≤ n then
      some ⟨List.replicate (n - b.length) 0 ++ b, length_zeros_append h⟩
    else none
  | .list _ => none

@[simp] theorem toHash_bytes {n : ℕ} (a : FixedHash n) : toHash n (.data a.bytes) = some a := by
  have hle : a.bytes.length ≤ n := a.size.le
  rw [toHash, dif_pos hle]
  refine congrArg some (FixedHash.ext ?_)
  simp

end Rlp

section Masking

/-- Bytes combined with a keystream from a place on. -/
def mask (keystream : ℕ → UInt8) (pos : ℕ) (b : Bytes) : Bytes :=
  b.mapIdx fun i x => x ^^^ keystream (pos + i)

variable (ks : ℕ → UInt8)

@[simp] theorem length_mask (pos : ℕ) (b : Bytes) : (mask ks pos b).length = b.length :=
  List.length_mapIdx

/-- The keystream at the same place takes the bytes back. -/
@[simp] theorem mask_mask (pos : ℕ) (b : Bytes) : mask ks pos (mask ks pos b) = b := by
  refine List.ext_getElem (by simp) fun i h _ => ?_
  simp only [mask, List.getElem_mapIdx]
  rw [UInt8.xor_assoc, UInt8.xor_self, UInt8.xor_zero]

/-- Parts that follow each other use parts of the keystream that follow each other. -/
theorem mask_append (pos : ℕ) (a b : Bytes) :
    mask ks pos (a ++ b) = mask ks pos a ++ mask ks (pos + a.length) b := by
  rw [mask, List.mapIdx_append]
  refine congrArg (mask ks pos a ++ ·) (List.ext_getElem (by simp [mask]) fun i h _ => ?_)
  simp only [mask, List.getElem_mapIdx]
  rw [show pos + (i + a.length) = pos + a.length + i by omega]

end Masking

end XChain
