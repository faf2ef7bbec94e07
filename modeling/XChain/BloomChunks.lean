import Mathlib.Data.Set.Function
import Mathlib.Logic.Function.Basic
import XChain.BlockDetails

/-!
# Keys of the bloom chunks

The blooms of sixteen blocks make a chunk of level 0, and what sixteen chunks hold together
is one entry of a chunk of level 1. Both levels lie in one table, under a number that is
computed with 32 bits. Since 255 is odd it can be divided by again, whether the product went
over or not, and chunks of different levels are then further apart than any index reaches.
-/
namespace XChain
namespace BloomChunks

def c_bloomIndexLevels : ℕ := 2

/-- The big-endian bytes of an `unsigned`, with zeros in front. -/
def h256 (u : BitVec 32) : FixedHash 32 := ⟨Rlp.fixedBytes 32 u.toNat, Rlp.length_fixedBytes _ _⟩

def chunkId (level index : BitVec 32) : FixedHash 32 := h256 (index * 0xff + level)

/-- The chunks, each with its level and its index. -/
def chunks : Set (BitVec 32 × BitVec 32) :=
  {c | c.1 = 0 ∧ c.2.toNat < 2 ^ 28 ∨ c.1 = 1 ∧ c.2.toNat < 2 ^ 24}

/-- The index at a level of the chunk that a block belongs to. -/
def chunkIndex (level : ℕ) (number : BitVec 32) : BitVec 32 :=
  number / BitVec.ofNat 32 (c_bloomIndexSize ^ (level + 1))

section Keys

theorem h256_injective : Function.Injective h256 := by
  intro u v h
  have hlt (u : BitVec 32) : u.toNat < 256 ^ 32 := u.isLt.trans (by norm_num)
  have hbytes := congrArg (fun a => Rlp.ofBigEndian a.bytes) h
  simp only [h256, Rlp.ofBigEndian_fixedBytes, Nat.mod_eq_of_lt (hlt _)] at hbytes
  exact BitVec.eq_of_toNat_eq hbytes

/-- What takes a factor of 255 back. -/
def inverse255 : BitVec 32 := 0xfefefeff

lemma mul_inverse255 (index level : BitVec 32) :
    (index * 0xff + level) * inverse255 = index + level * inverse255 := by
  have hone : 0xff * inverse255 = 1#32 := by decide
  rw [BitVec.add_mul, BitVec.mul_assoc, hone, BitVec.mul_one]

/-- Chunks under one key are apart by their levels. -/
lemma index_add_level {l l' i i' : BitVec 32} (h : chunkId l i = chunkId l' i') :
    i + l * inverse255 = i' + l' * inverse255 := by
  rw [← mul_inverse255, h256_injective h, mul_inverse255]

/-- No chunk of level 0 comes under a key of level 1. -/
lemma chunkId_zero_ne_one {i j : BitVec 32} (hi : i.toNat < 2 ^ 28) (hj : j.toNat < 2 ^ 24) :
    chunkId 0 i ≠ chunkId 1 j := by
  intro h
  have hsum : i = j + inverse255 := by
    simpa [BitVec.zero_mul, BitVec.one_mul] using index_add_level h
  have hnat : i.toNat = j.toNat + 0xfefefeff := by
    rw [hsum, BitVec.toNat_add, inverse255]
    exact Nat.mod_eq_of_lt (by simp; omega)
  omega

/-- Within a level the key tells the index. -/
lemma chunkId_inj {l i i' : BitVec 32} : chunkId l i = chunkId l i' ↔ i = i' :=
  ⟨fun h => (BitVec.add_left_inj _).mp (index_add_level h), fun h => by rw [h]⟩

theorem injOn_chunkId : Set.InjOn (fun c => chunkId c.1 c.2) chunks := by
  rintro ⟨l, i⟩ hc ⟨l', i'⟩ hc' h
  simp only [chunks, Set.mem_ofPred_eq] at hc hc' h
  obtain ⟨rfl, hi⟩ | ⟨rfl, hi⟩ := hc <;> obtain ⟨rfl, hi'⟩ | ⟨rfl, hi'⟩ := hc'
  · rw [chunkId_inj.mp h]
  · exact absurd h (chunkId_zero_ne_one hi hi')
  · exact absurd h.symm (chunkId_zero_ne_one hi' hi)
  · rw [chunkId_inj.mp h]

end Keys

section Numbers

lemma toNat_chunkIndex {level : ℕ} (h : level < c_bloomIndexLevels) (number : BitVec 32) :
    (chunkIndex level number).toNat = number.toNat / 16 ^ (level + 1) := by
  have hlevel : level = 0 ∨ level = 1 := by
    rw [c_bloomIndexLevels] at h
    omega
  rcases hlevel with rfl | rfl <;> rfl

/-- The chunks are those that the blocks with a number of 32 bits belong to. -/
theorem mem_chunks (c : BitVec 32 × BitVec 32) : c ∈ chunks ↔
    ∃ level < c_bloomIndexLevels, ∃ number,
      c = (BitVec.ofNat 32 level, chunkIndex level number) := by
  obtain ⟨l, i⟩ := c
  simp only [chunks, Set.mem_ofPred_eq, Prod.mk.injEq]
  constructor
  · rintro (⟨rfl, hi⟩ | ⟨rfl, hi⟩)
    · refine ⟨0, by decide, BitVec.ofNat 32 (i.toNat * 16), rfl, BitVec.eq_of_toNat_eq ?_⟩
      rw [toNat_chunkIndex (by decide), BitVec.toNat_ofNat]
      omega
    · refine ⟨1, by decide, BitVec.ofNat 32 (i.toNat * 256), rfl, BitVec.eq_of_toNat_eq ?_⟩
      rw [toNat_chunkIndex (by decide), BitVec.toNat_ofNat]
      omega
  · rintro ⟨level, hlevel, number, rfl, rfl⟩
    have hlt := number.isLt
    rw [toNat_chunkIndex hlevel]
    rw [c_bloomIndexLevels] at hlevel
    obtain rfl | rfl : level = 0 ∨ level = 1 := by omega
    · exact Or.inl ⟨rfl, by omega⟩
    · exact Or.inr ⟨rfl, by omega⟩

/-- Chunks do not share a key, up to the last block number. -/
theorem chunkId_injOn : Set.InjOn (fun c => chunkId c.1 c.2) chunks ∧
    ∀ c, c ∈ chunks ↔ ∃ level < c_bloomIndexLevels, ∃ number,
      c = (BitVec.ofNat 32 level, chunkIndex level number) :=
  ⟨injOn_chunkId, mem_chunks⟩

end Numbers

section Table

/-- The table of the chunks; where nothing is stored it has `NullBlocksBlooms`. -/
abbrev BloomTable := FixedHash 32 → BlocksBlooms

variable (t : BloomTable)

def blocksBlooms (level index : BitVec 32) : BlocksBlooms := t (chunkId level index)

def blockBloom (number : BitVec 32) : LogBloomHash :=
  (blocksBlooms t 0 (number / 16)).blooms ⟨number.toNat % c_bloomIndexSize, Nat.mod_lt _ (by decide)⟩

/-- Storing a chunk leaves the other chunks as they are. -/
theorem blocksBlooms_update {l i l' i' : BitVec 32} (h : (l, i) ∈ chunks) (h' : (l', i') ∈ chunks)
    (hne : (l, i) ≠ (l', i')) (b : BlocksBlooms) :
    blocksBlooms (Function.update t (chunkId l i) b) l' i' = blocksBlooms t l' i' :=
  Function.update_of_ne (fun heq => hne (injOn_chunkId h h' heq.symm)) _ _

/-- So the bloom of a block is the one its chunk has, whatever is stored for the chunks of
the next level. -/
theorem blockBloom_update (number : BitVec 32) {j : BitVec 32} (hj : (1, j) ∈ chunks)
    (b : BlocksBlooms) :
    blockBloom (Function.update t (chunkId 1 j) b) number = blockBloom t number := by
  have hmem : ((0 : BitVec 32), number / 16) ∈ chunks :=
    (mem_chunks _).mpr ⟨0, by decide, number, rfl⟩
  rw [blockBloom, blocksBlooms_update t hj hmem (by simp)]
  rfl

end Table

end BloomChunks
end XChain
