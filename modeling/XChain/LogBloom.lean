import XChain.Common
import XChain.MemoryDB
import XChain.RlpFields

/-!
# Log entries and their blooms

A hash sets three bits of a bloom, each picked by eleven bits of the hash. The bloom of
an entry is made from its address and its topics, and blooms are joined bit by bit, so
that a bloom covers everything that went into it.
-/
namespace XChain

abbrev LogBloom := BitVec 2048

structure LogEntry where
  address : Address
  topics : List H256
  data : Bytes
  deriving DecidableEq

namespace LogBloom

/-- Whether all bits of `c` are set in `b`. -/
def contains (b c : LogBloom) : Bool := b &&& c = c

/-- The index that the bytes `2 i` and `2 i + 1` of a hash stand for. -/
def bloomIndex (h : H256) (i : ℕ) : ℕ :=
  ((h.bytes.getD (2 * i) 0).toNat * 256 + (h.bytes.getD (2 * i + 1) 0).toNat) % 2048

/-- The bits of a hash. -/
def bloomPart (h : H256) : LogBloom :=
  BitVec.twoPow 2048 (bloomIndex h 0) ||| BitVec.twoPow 2048 (bloomIndex h 1) |||
    BitVec.twoPow 2048 (bloomIndex h 2)

def shiftBloom (b : LogBloom) (h : H256) : LogBloom := b ||| bloomPart h

def containsBloom (b : LogBloom) (h : H256) : Bool := contains b (bloomPart h)

/-- Shifts the hashes of all the given topics in. -/
def shiftTopics (sha3 : Bytes → H256) (b : LogBloom) (l : List H256) : LogBloom :=
  l.foldl (fun b t => shiftBloom b (sha3 t.bytes)) b

/-- Blooms joined. -/
def join (l : List LogBloom) : LogBloom := l.foldl (· ||| ·) 0

theorem contains_iff {b c : LogBloom} :
    contains b c = true ↔ ∀ i, c.getLsbD i = true → b.getLsbD i = true := by
  unfold contains
  rw [decide_eq_true_eq]
  constructor
  · intro h i hi
    rw [← h, BitVec.getLsbD_and] at hi
    exact (Bool.and_eq_true_iff.mp hi).1
  · intro h
    refine BitVec.eq_of_getLsbD_eq fun i _ => ?_
    rw [BitVec.getLsbD_and]
    cases hc : c.getLsbD i with
    | false => rw [Bool.and_false]
    | true => rw [h i hc, Bool.and_true]

theorem contains_refl (b : LogBloom) : contains b b = true := contains_iff.mpr fun _ h => h

theorem contains_trans {a b c : LogBloom} (hab : contains a b = true) (hbc : contains b c = true) :
    contains a c = true :=
  contains_iff.mpr fun i h => contains_iff.mp hab i (contains_iff.mp hbc i h)

@[simp] theorem contains_zero (b : LogBloom) : contains b 0 = true :=
  contains_iff.mpr fun i h => by simp at h

/-- What covers both covers both joined. -/
theorem contains_or {a b c : LogBloom} :
    contains a (b ||| c) = true ↔ contains a b = true ∧ contains a c = true := by
  simp only [contains_iff, BitVec.getLsbD_or, Bool.or_eq_true]
  constructor
  · intro h
    exact ⟨fun i hi => h i (Or.inl hi), fun i hi => h i (Or.inr hi)⟩
  · rintro ⟨hb, hc⟩ i (hi | hi)
    · exact hb i hi
    · exact hc i hi

theorem contains_foldl {a b : LogBloom} {l : List LogBloom} :
    contains a (l.foldl (· ||| ·) b) = true ↔ contains a b = true ∧ ∀ c ∈ l, contains a c = true := by
  induction l generalizing b with
  | nil => simp
  | cons c l ih => rw [List.foldl_cons, ih, contains_or, List.forall_mem_cons, and_assoc]

theorem contains_join {a : LogBloom} {l : List LogBloom} :
    contains a (join l) = true ↔ ∀ c ∈ l, contains a c = true := by
  rw [join, contains_foldl]
  exact ⟨fun h => h.2, fun h => ⟨contains_zero a, h⟩⟩

theorem join_contains {l : List LogBloom} {c : LogBloom} (h : c ∈ l) : contains (join l) c = true :=
  contains_join.mp (contains_refl _) c h

theorem contains_shiftTopics {sha3 : Bytes → H256} {a b : LogBloom} {l : List H256} :
    contains a (shiftTopics sha3 b l) = true ↔
      contains a b = true ∧ ∀ t ∈ l, containsBloom a (sha3 t.bytes) = true := by
  unfold shiftTopics
  induction l generalizing b with
  | nil => simp
  | cons t l ih =>
    rw [List.foldl_cons, ih, shiftBloom, contains_or, List.forall_mem_cons, and_assoc]
    rfl

end LogBloom

open LogBloom

/-- What an address is hashed as. -/
def addressBloom (sha3 : Bytes → H256) (a : Address) : LogBloom :=
  shiftBloom 0 (sha3 (Rlp.fixedBytes 20 a.toNat))

/-- The bloom of an entry. -/
def LogEntry.bloom (sha3 : Bytes → H256) (e : LogEntry) : LogBloom :=
  shiftTopics sha3 (addressBloom sha3 e.address) e.topics

/-- What is known of an executed transaction: the root of the state and the gas that the
block had used after it. -/
structure TransactionReceipt where
  stateRoot : H256
  gasUsed : Word
  bloom : LogBloom
  log : List LogEntry

end XChain
