import XChain.RlpFields

/-!
# Packets

A packet is an item for its type and an item for its payload. How long an item is follows
from its first bytes, whatever comes behind it.
-/
namespace XChain

open Rlp

namespace P2P

/-- The size that the first bytes of an item announce, or nothing if they do not announce
any. -/
def actualSize : Bytes → Option ℕ
  | [] => some 0
  | p :: b =>
    if p < 0x80 then some 1
    else
      let n := (if p < 0xc0 then p - 0x80 else p - 0xc0).toNat
      if n < 56 then some (n + 1)
      else
        let length := ofBigEndian (b.take (n - 55))
        if n - 55 ≤ b.length ∧ b.head? ≠ some 0 ∧ 56 ≤ length then some (n - 55 + length + 1)
        else none

/-- An item of the whole of some bytes. -/
def Complete (b : Bytes) : Prop := actualSize b = some b.length

instance (b : Bytes) : Decidable (Complete b) := inferInstanceAs (Decidable (_ = _))

/-- The first item of some bytes, cut off at their end, or nothing. -/
def nextRLP (b : Bytes) : Bytes :=
  match actualSize b with
  | some n => b.take n
  | none => []

structure RLPXPacket where
  m_type : Bytes
  m_data : Bytes
  deriving DecidableEq

namespace RLPXPacket

def ofType (packetType : UInt8) (payload : Bytes) : RLPXPacket :=
  ⟨encode (ofNat packetType.toNat), payload⟩

/-- A packet of a single stream of bytes. -/
def ofBytes (b : Bytes) : RLPXPacket := ⟨nextRLP b, b.drop (nextRLP b).length⟩

def size (p : RLPXPacket) : ℕ :=
  if Complete p.m_type then
    match actualSize p.m_data with
    | some n => p.m_type.length + n
    | none => 0
  else 0

def append (p : RLPXPacket) (b : Bytes) : RLPXPacket := { p with m_data := p.m_data ++ b }

def isValid (p : RLPXPacket) : Bool :=
  !(p.m_type.isEmpty && p.m_data.isEmpty) && Complete p.m_type && Complete p.m_data

end RLPXPacket

/-- What follows the first bytes does not change the size. -/
theorem actualSize_append {b : Bytes} {n : ℕ} (hb : b ≠ []) (h : actualSize b = some n) (rest : Bytes) :
    actualSize (b ++ rest) = some n := by
  obtain ⟨p, b, rfl⟩ := List.exists_cons_of_ne_nil hb
  rw [List.cons_append]
  rw [actualSize] at h ⊢
  by_cases himm : p < 0x80
  · rw [if_pos himm] at h ⊢
    exact h
  · rw [if_neg himm] at h ⊢
    simp only at h ⊢
    generalize (if p < 0xc0 then p - 0x80 else p - 0xc0).toNat = k at h ⊢
    by_cases hshort : k < 56
    · rw [if_pos hshort] at h ⊢
      exact h
    · rw [if_neg hshort] at h ⊢
      by_cases hlong : k - 55 ≤ b.length ∧ b.head? ≠ some 0 ∧ 56 ≤ ofBigEndian (b.take (k - 55))
      · rw [if_pos hlong] at h
        obtain ⟨hle, hhead, hbig⟩ := hlong
        have hne : b ≠ [] := by
          rintro rfl
          simp at hle
          omega
        have htake : (b ++ rest).take (k - 55) = b.take (k - 55) := List.take_append_of_le_length hle
        have hcond : k - 55 ≤ (b ++ rest).length ∧ (b ++ rest).head? ≠ some 0 ∧
            56 ≤ ofBigEndian ((b ++ rest).take (k - 55)) := by
          rw [htake, List.head?_append_of_ne_nil _ hne, List.length_append]
          exact ⟨by omega, hhead, hbig⟩
        rw [if_pos hcond, htake]
        exact h
      · rw [if_neg hlong] at h
        cases h

section Complete

variable {b : Bytes}

@[simp] theorem nextRLP_append (h : Complete b) (rest : Bytes) (hb : b ≠ []) :
    nextRLP (b ++ rest) = b := by
  rw [nextRLP, actualSize_append hb h rest]
  simp

/-- A complete item is not complete if its end is missing. -/
theorem not_complete_take (h : Complete b) {k : ℕ} (hk : 0 < k) (hlt : k < b.length) :
    ¬Complete (b.take k) := by
  intro htake
  have hne : b.take k ≠ [] := by
    apply List.ne_nil_of_length_pos
    rw [List.length_take]
    omega
  have hsize := actualSize_append hne htake (b.drop k)
  rw [List.take_append_drop] at hsize
  rw [Complete, hsize] at h
  have hlen := Option.some.inj h
  rw [List.length_take] at hlen
  omega

end Complete

namespace RLPXPacket

theorem complete_type (t : UInt8) : Complete (encode (ofNat t.toNat)) := by
  obtain ⟨n, rfl⟩ : ∃ n : Fin 256, UInt8.ofNat n = t := ⟨⟨t.toNat, t.toNat_lt⟩, by simp⟩
  revert n
  decide +kernel

theorem length_type (t : UInt8) : 0 < (encode (ofNat t.toNat)).length ∧
    (encode (ofNat t.toNat)).length ≤ 2 := by
  constructor
  · exact List.length_pos_of_ne_nil (encode_ne_nil _)
  · obtain ⟨n, rfl⟩ : ∃ n : Fin 256, UInt8.ofNat n = t := ⟨⟨t.toNat, t.toNat_lt⟩, by simp⟩
    revert n
    decide +kernel

/-- A type byte and at most one item. -/
structure Proper (p : RLPXPacket) : Prop where
  type_complete : Complete p.m_type
  type_pos : 0 < p.m_type.length
  type_short : p.m_type.length ≤ 2
  data_complete : Complete p.m_data

theorem proper_ofType (t : UInt8) {payload : Bytes} (h : Complete payload) : (ofType t payload).Proper :=
  ⟨complete_type t, (length_type t).1, (length_type t).2, h⟩

theorem isValid_ofType (t : UInt8) (payload : Bytes) :
    (ofType t payload).isValid = true ↔ Complete payload := by
  have hne : (ofType t payload).m_type.isEmpty = false := by
    rw [List.isEmpty_eq_false_iff]
    exact encode_ne_nil _
  have hcomplete : Complete (ofType t payload).m_type := complete_type t
  rw [isValid, hne, decide_eq_true hcomplete]
  simp only [Bool.false_and, Bool.not_false, Bool.true_and, decide_eq_true_iff]
  rfl

namespace Proper

variable {p : RLPXPacket}

@[simp] theorem size_eq (h : p.Proper) : p.size = p.m_type.length + p.m_data.length := by
  have hdata : actualSize p.m_data = some p.m_data.length := h.data_complete
  rw [size, if_pos h.type_complete, hdata]

theorem isValid (h : p.Proper) : p.isValid = true := by
  have hne : p.m_type.isEmpty = false := by
    rw [List.isEmpty_eq_false_iff]
    exact List.ne_nil_of_length_pos h.type_pos
  simp [RLPXPacket.isValid, hne, h.type_complete, h.data_complete]

/-- Without the end of its payload a packet is not valid. -/
theorem take_not_valid (h : p.Proper) {k : ℕ} (hk : 0 < k) (hlt : k < p.m_data.length) :
    (⟨p.m_type, p.m_data.take k⟩ : RLPXPacket).isValid = false := by
  simp [RLPXPacket.isValid, not_complete_take h.data_complete hk hlt]

end Proper

end RLPXPacket

end P2P
end XChain
