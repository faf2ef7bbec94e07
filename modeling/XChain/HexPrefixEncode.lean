import XChain.TrieCommon

/-!
# The hex-prefix encoders

A range of nibbles is packed from a vector of nibbles, from a slice of bytes or from two slices
behind one another. The place where the range ends is counted from the back if it is negative.
-/
namespace XChain

/-- The place at which a range of a sequence of `n` nibbles ends. -/
def stopOf (n : ℕ) (e : ℤ) : ℤ := if e < 0 then n + 1 + e else e

/-- From `b` up to `e` is a range of a sequence of `n` nibbles. -/
structure IsRange (n b : ℕ) (e : ℤ) : Prop where
  ordered : b ≤ stopOf n e
  inside : stopOf n e ≤ n

/-- The nibbles of a range. -/
def rangeOf (ns : List Nibble) (b : ℕ) (e : ℤ) : List Nibble :=
  (ns.drop b).take ((stopOf ns.length e).toNat - b)

variable {n b : ℕ} {e : ℤ}

theorem IsRange.natCast (h : IsRange n b e) : ((stopOf n e).toNat : ℤ) = stopOf n e :=
  Int.toNat_of_nonneg ((Int.natCast_nonneg b).trans h.ordered)

theorem IsRange.toNat_le (h : IsRange n b e) : (stopOf n e).toNat ≤ n := by
  have hinside := h.inside
  rw [← h.natCast] at hinside
  exact_mod_cast hinside

/-- The encoder of a vector depends on the place only. -/
theorem hexPrefixEncodeHex_range (ns : List Nibble) (leaf : Bool) (h : IsRange ns.length b e) :
    hexPrefixEncodeHex ns leaf b e = hexPrefix leaf (rangeOf ns b e) := by
  have hplace : hexPrefixEncodeHex ns leaf b e =
      hexPrefixEncodeHex ns leaf b (stopOf ns.length e).toNat := by
    have hneg : ¬((stopOf ns.length e).toNat : ℤ) < 0 := by omega
    unfold hexPrefixEncodeHex
    rw [if_neg hneg, Int.toNat_natCast, stopOf, apply_ite Int.toNat]
  rw [hplace, hexPrefixEncodeHex_eq ns leaf b _ h.toNat_le]
  rfl

theorem hexPrefixEncode_range (s : NibbleSlice) (leaf : Bool) (hs : s.Valid)
    (h : IsRange s.size b e) :
    hexPrefixEncode s leaf b e = some (hexPrefix leaf (rangeOf s.nibbles b e)) := by
  have hsize : (s.size : ℤ) = s.data.length * 2 - s.offset := by
    have hoffset : s.offset ≤ s.data.length * 2 := hs
    have hdef : s.size = s.data.length * 2 - s.offset := rfl
    omega
  have hplace : hexPrefixEncode s leaf b e = hexPrefixEncode s leaf b (stopOf s.size e).toNat := by
    have hneg : ¬((stopOf s.size e).toNat : ℤ) < 0 := by omega
    simp only [hexPrefixEncode, hexPrefixEncodeData, if_neg hneg, ← hsize]
    rw [h.natCast, stopOf]
  rw [hplace, hexPrefixEncode_eq s leaf hs b _ h.toNat_le, rangeOf, NibbleSlice.length_nibbles]

/-- A slice that begins inside of its bytes. -/
abbrev ValidSlice := {s : NibbleSlice // s.Valid}

/-- Whichever way a range of nibbles is given, it is packed into the same bytes, and the nibbles
and the flag are read back from these. -/
theorem hexPrefixEncode_agree (ns : List Nibble) (leaf : Bool) (b : ℕ) (e : ℤ)
    (h : IsRange ns.length b e) (s s₁ s₂ : ValidSlice) (hns : s.1.nibbles = ns)
    (hpair : s₁.1.nibbles ++ s₂.1.nibbles = rangeOf ns b e) (x : Item) :
    ∃ hpe, hexPrefixEncodeHex ns leaf b e = hpe ∧
      hexPrefixEncode s.1 leaf b e = some hpe ∧ hexPrefixEncodePair s₁.1 s₂.1 leaf = some hpe ∧
      (keyOfHpe hpe).nibbles = rangeOf ns b e ∧
      (keyOf (.list [.data hpe, x])).nibbles = rangeOf ns b e ∧
      isLeaf (.list [.data hpe, x]) = some leaf := by
  have hsize : s.1.size = ns.length := by rw [← hns, NibbleSlice.length_nibbles]
  refine ⟨hexPrefix leaf (rangeOf ns b e), hexPrefixEncodeHex_range ns leaf h, ?_, ?_, ?_, ?_, ?_⟩
  · rw [hexPrefixEncode_range s.1 leaf s.2 (by rwa [hsize]), hns]
  · rw [hexPrefixEncodePair_eq, hpair]
  · exact nibbles_keyOfHpe leaf _
  · exact nibbles_keyOfHpe leaf _
  · exact isLeaf_hexPrefix leaf _ x

/-- Three nibbles from the second one up to the last one but one, at an odd place of their bytes. -/
theorem hexPrefixEncode_agree_three : ∃ hpe,
    hexPrefixEncodeHex [1, 2, 3, 4, 5] true 1 (-2) = hpe ∧
    hexPrefixEncode ⟨[0x01, 0x23, 0x45], 1⟩ true 1 (-2) = some hpe ∧
    hexPrefixEncodePair ⟨[0x02], 1⟩ ⟨[0x34], 0⟩ true = some hpe ∧
    (keyOfHpe hpe).nibbles = rangeOf [1, 2, 3, 4, 5] 1 (-2) ∧
    (keyOf (.list [.data hpe, .data []])).nibbles = rangeOf [1, 2, 3, 4, 5] 1 (-2) ∧
    isLeaf (.list [.data hpe, .data []]) = some true :=
  hexPrefixEncode_agree [1, 2, 3, 4, 5] true 1 (-2) ⟨by decide, by decide⟩
    ⟨⟨[0x01, 0x23, 0x45], 1⟩, Nat.le_of_ble_eq_true rfl⟩ ⟨⟨[0x02], 1⟩, Nat.le_of_ble_eq_true rfl⟩
    ⟨⟨[0x34], 0⟩, Nat.le_of_ble_eq_true rfl⟩ (by decide) (by decide) (.data [])

end XChain
