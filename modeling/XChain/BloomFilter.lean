import Mathlib.Data.Nat.Bitwise
import Mathlib.Tactic.IntervalCases
import XChain.FixedHash
import XChain.GuardedRuns

/-!
# The topic bloom filter

A filter has a bit for each index and counts how many of the additions that are still there set
it. An addition joins the bits first and counts afterwards; if a counter is full it throws
between the two, with the bits joined and a part of the counters raised.
-/
namespace XChain
namespace Whisper

section Bits

/-- The bits of a byte, the lowest one first. -/
def c_powerOfTwoBitMmask : List UInt8 := [1, 2, 4, 8, 16, 32, 64, 128]

def bitMask (k : ℕ) : UInt8 := c_powerOfTwoBitMmask.getD k 0

def byteBit (x : UInt8) (k : ℕ) : Bool := x &&& bitMask k ≠ 0

theorem toNat_bitMask {k : ℕ} (h : k < 8) : (bitMask k).toNat = 2 ^ k := by
  interval_cases k <;> rfl

theorem byteBit_eq {x : UInt8} {k : ℕ} (h : k < 8) : byteBit x k = x.toBitVec.getLsbD k := by
  have hzero : x &&& bitMask k = 0 ↔ x.toNat.testBit k = false := by
    rw [← UInt8.toNat_inj, UInt8.toNat_and, toNat_bitMask h, Nat.and_two_pow]
    simp
  have hbit : x.toBitVec.getLsbD k = x.toNat.testBit k := by simp [BitVec.getLsbD]
  rw [hbit, byteBit]
  simp [hzero]

theorem byteBit_or {x y : UInt8} {k : ℕ} (h : k < 8) :
    byteBit (x ||| y) k = (byteBit x k || byteBit y k) := by
  simp [byteBit_eq h]

theorem byteBit_and {x y : UInt8} {k : ℕ} (h : k < 8) :
    byteBit (x &&& y) k = (byteBit x k && byteBit y k) := by
  simp [byteBit_eq h]

theorem byteBit_not {x : UInt8} {k : ℕ} (h : k < 8) : byteBit (~~~x) k = !byteBit x k := by
  simp [byteBit_eq h, h]

theorem byteBit_bitMask {j k : ℕ} (hj : j < 8) (hk : k < 8) :
    byteBit (bitMask j) k = decide (j = k) := by
  rw [byteBit_eq hk, BitVec.getLsbD, UInt8.toNat_toBitVec, toNat_bitMask hj, Nat.testBit_two_pow]

/-- Bytes with the same bits are the same. -/
theorem byte_ext {x y : UInt8} (h : ∀ k < 8, byteBit x k = byteBit y k) : x = y := by
  apply UInt8.toBitVec_inj.mp
  apply BitVec.eq_of_getLsbD_eq
  intro k hk
  rw [← byteBit_eq hk, ← byteBit_eq hk, h k hk]

end Bits

section Hashes

variable {N : ℕ} (h : FixedHash N) {a b : FixedHash N} {i j : ℕ}

def byteAt (i : ℕ) : UInt8 := h.bytes.getD (i / 8) 0

def isBitSet (i : ℕ) : Bool := byteBit (byteAt h i) (i % 8)

def setByte (i : ℕ) (x : UInt8) : FixedHash N :=
  ⟨h.bytes.set (i / 8) x, List.length_set.trans h.size⟩

def setBit (i : ℕ) : FixedHash N := setByte h i (byteAt h i ||| bitMask (i % 8))

def clearBit (i : ℕ) : FixedHash N := setByte h i (byteAt h i &&& ~~~bitMask (i % 8))

theorem length_zipWith_bytes (f : UInt8 → UInt8 → UInt8) (a b : FixedHash N) :
    (List.zipWith f a.bytes b.bytes).length = N := by
  rw [List.length_zipWith, a.size, b.size, Nat.min_self]

def bytewise (f : UInt8 → UInt8 → UInt8) (a b : FixedHash N) : FixedHash N :=
  ⟨List.zipWith f a.bytes b.bytes, length_zipWith_bytes f a b⟩

def join (a b : FixedHash N) : FixedHash N := bytewise (· ||| ·) a b

/-- All bits of `c` are set. -/
def contains (a c : FixedHash N) : Bool := bytewise (· &&& ·) a c = c

variable {h}

theorem byteAt_bytewise (f : UInt8 → UInt8 → UInt8) (hi : i < N * 8) :
    byteAt (bytewise f a b) i = f (byteAt a i) (byteAt b i) := by
  have hlt : i / 8 < N := by omega
  simp [byteAt, bytewise, hlt]

theorem byteAt_setByte {x : UInt8} (hj : j < N * 8) :
    byteAt (setByte h j x) i = if i / 8 = j / 8 then x else byteAt h i := by
  have hlt : j / 8 < N := by omega
  by_cases hij : i / 8 = j / 8
  · simp [byteAt, setByte, hij, hlt]
  · simp [byteAt, setByte, hij, Ne.symm hij]

@[simp] theorem isBitSet_join (hi : i < N * 8) :
    isBitSet (join a b) i = (isBitSet a i || isBitSet b i) := by
  rw [isBitSet, join, byteAt_bytewise _ hi, byteBit_or (by omega)]
  rfl

/-- A byte that is replaced by one that differs in the bit `j` at most. -/
theorem isBitSet_setByte {x : UInt8} {f : Bool → Bool} (hj : j < N * 8)
    (hx : ∀ k < 8, byteBit x k = if k = j % 8 then f (byteBit (byteAt h j) k)
      else byteBit (byteAt h j) k) :
    isBitSet (setByte h j x) i = if i = j then f (isBitSet h i) else isBitSet h i := by
  rw [isBitSet, byteAt_setByte hj]
  by_cases hij : i / 8 = j / 8
  · have hsame : byteAt h j = byteAt h i := by simp [byteAt, hij]
    have hiff : i % 8 = j % 8 ↔ i = j := by omega
    rw [if_pos hij, hx _ (by omega), hsame]
    simp [isBitSet, hiff]
  · have hne : i ≠ j := by
      rintro rfl
      exact hij rfl
    simp [isBitSet, hij, hne]

theorem isBitSet_setBit (hj : j < N * 8) :
    isBitSet (setBit h j) i = (isBitSet h i || decide (j = i)) := by
  have hset := isBitSet_setByte (h := h) (i := i) (x := byteAt h j ||| bitMask (j % 8))
    (f := fun _ => true) hj fun k hk => by
      rw [byteBit_or hk, byteBit_bitMask (by omega) hk]
      by_cases hkj : k = j % 8
      · simp [hkj]
      · simp [hkj, Ne.symm hkj]
  rw [setBit, hset]
  by_cases hij : i = j
  · simp [hij]
  · simp [hij, Ne.symm hij]

theorem isBitSet_clearBit (hj : j < N * 8) :
    isBitSet (clearBit h j) i = (isBitSet h i && decide (j ≠ i)) := by
  have hclear := isBitSet_setByte (h := h) (i := i) (x := byteAt h j &&& ~~~bitMask (j % 8))
    (f := fun _ => false) hj fun k hk => by
      rw [byteBit_and hk, byteBit_not hk, byteBit_bitMask (by omega) hk]
      by_cases hkj : k = j % 8
      · simp [hkj]
      · simp [hkj, Ne.symm hkj]
  rw [clearBit, hclear]
  by_cases hij : i = j
  · simp [hij]
  · simp [hij, Ne.symm hij]

/-- Hashes with the same bits are the same. -/
theorem hash_ext (hbits : ∀ i < N * 8, isBitSet a i = isBitSet b i) : a = b := by
  apply FixedHash.ext
  apply List.ext_getElem
  · rw [a.size, b.size]
  · intro n hn hn'
    apply byte_ext
    intro k hk
    have hlt : n < N := by rwa [a.size] at hn
    have hbit := hbits (8 * n + k) (by omega)
    have hdiv : (8 * n + k) / 8 = n := by omega
    have hmod : (8 * n + k) % 8 = k := by omega
    simpa [isBitSet, byteAt, hdiv, hmod, hlt] using hbit

theorem contains_iff : contains a b ↔ ∀ i < N * 8, isBitSet b i → isBitSet a i := by
  have hand : ∀ i < N * 8, isBitSet (bytewise (· &&& ·) a b) i = (isBitSet a i && isBitSet b i) := by
    intro i hi
    rw [isBitSet, byteAt_bytewise _ hi, byteBit_and (by omega)]
    rfl
  rw [contains, decide_eq_true_eq]
  constructor
  · intro heq i hi hb
    have hboth := hand i hi
    rw [heq, hb] at hboth
    simpa using hboth.symm
  · intro hsub
    apply hash_ext
    intro i hi
    rw [hand i hi]
    cases hb : isBitSet b i with
    | false => simp
    | true => simp [hsub i hi hb]

@[simp] theorem isBitSet_zero : isBitSet (FixedHash.zero N) i = false := by
  have hbyte : byteAt (FixedHash.zero N) i = 0 := by
    simp [byteAt, FixedHash.zero]
  simp [isBitSet, hbyte, byteBit]

end Hashes

abbrev AbridgedTopic := FixedHash 4

def TopicBloomFilterSize : ℕ := 64

def BitsPerBloom : ℕ := 3

/-- A filter: its bits, and for each of them how often it was added. -/
structure TopicBloomFilterBase (N : ℕ) where
  hash : FixedHash N
  m_refCounter : Fin (N * 8) → UInt16

namespace TopicBloomFilterBase

variable {N : ℕ}

/-- The bit that a byte of a topic stands for. Eight bits do not reach all of the usual filter, so
that the last byte gives the ninth. -/
def bloomBit (N : ℕ) (t : AbridgedTopic) (i : ℕ) : ℕ :=
  let x := (t.bytes.getD i 0).toNat
  if TopicBloomFilterSize = N then
    if byteBit (t.bytes.getD BitsPerBloom 0) i then x + 256 else x
  else (x + (t.bytes.getD (i + 1) 0).toNat) % (N * 8)

def bloom (t : AbridgedTopic) : FixedHash N :=
  (List.range BitsPerBloom).foldl (fun h i => setBit h (bloomBit N t i)) (.zero N)

variable (s : TopicBloomFilterBase N) (h : FixedHash N)

def empty : TopicBloomFilterBase N := ⟨.zero N, fun _ => 0⟩

/-- Counts the bits of a hash up, and throws `Overflow` at a counter that is full. -/
def countUp : List (Fin (N * 8)) → (Fin (N * 8) → UInt16) → (Fin (N * 8) → UInt16) × Bool
  | [], c => (c, false)
  | i :: is, c =>
    if isBitSet h i then
      if c i ≠ 65535 then countUp is (Function.update c i (c i + 1)) else (c, true)
    else countUp is c

/-- The filter after the call, and whether it threw. -/
def addRaw : TopicBloomFilterBase N × Bool :=
  let r := countUp h (List.finRange (N * 8)) s.m_refCounter
  (⟨join s.hash h, r.1⟩, r.2)

/-- A counter after a removal. -/
def lowered (c : UInt16) : UInt16 := if c ≠ 0 then c - 1 else c

/-- Counts a bit down and clears it when it is not counted any more. -/
def drop (i : Fin (N * 8)) : TopicBloomFilterBase N :=
  let c := lowered (s.m_refCounter i)
  { hash := if c = 0 then clearBit s.hash i else s.hash
    m_refCounter := Function.update s.m_refCounter i c }

def countDown : List (Fin (N * 8)) → TopicBloomFilterBase N → TopicBloomFilterBase N
  | [], s => s
  | i :: is, s => countDown is (if isBitSet h i then s.drop i else s)

def removeRaw : TopicBloomFilterBase N := countDown h (List.finRange (N * 8)) s

def containsRaw : Bool := contains s.hash h

def addBloom (t : AbridgedTopic) : TopicBloomFilterBase N × Bool := s.addRaw (bloom t)

def removeBloom (t : AbridgedTopic) : TopicBloomFilterBase N := s.removeRaw (bloom t)

def containsBloom (t : AbridgedTopic) : Bool := contains s.hash (bloom t)

section CountUp

variable {h} {c : Fin (N * 8) → UInt16} {l : List (Fin (N * 8))} {i : Fin (N * 8)}

/-- Only the counters of the list are touched. -/
theorem countUp_of_notMem (hi : i ∉ l) : (countUp h l c).1 i = c i := by
  induction l generalizing c with
  | nil => simp [countUp]
  | cons j l ih =>
    obtain ⟨hij, hl⟩ := not_or.mp (List.mem_cons.not.mp hi)
    unfold countUp
    split_ifs
    · rw [ih hl, Function.update_of_ne hij]
    · simp
    · exact ih hl

/-- The loop throws if some counter is full. -/
theorem countUp_throws (hl : l.Nodup) :
    (countUp h l c).2 ↔ ∃ i ∈ l, isBitSet h i ∧ c i = 65535 := by
  induction l generalizing c with
  | nil => simp [countUp]
  | cons j l ih =>
    obtain ⟨hj, hl⟩ := List.nodup_cons.mp hl
    unfold countUp
    split_ifs with hset hfull
    · rw [ih hl]
      have hkeep : ∀ i ∈ l, Function.update c j (c j + 1) i = c i := by
        intro i hi
        exact Function.update_of_ne (ne_of_mem_of_not_mem hi hj) _ _
      simp only [List.mem_cons, exists_eq_or_imp, hfull, and_false, false_or]
      exact exists_congr fun i => and_congr_right fun hi => by rw [hkeep i hi]
    · simp only [not_not] at hfull
      simp [hset, hfull]
    · simp [ih hl, hset]

/-- Without an exception the counters of the set bits grow by one. -/
theorem countUp_of_not_throws (hl : l.Nodup) (hok : (countUp h l c).2 = false) (hi : i ∈ l) :
    (countUp h l c).1 i = if isBitSet h i then c i + 1 else c i := by
  induction l generalizing c with
  | nil => simp at hi
  | cons j l ih =>
    obtain ⟨hj, hl⟩ := List.nodup_cons.mp hl
    unfold countUp at hok ⊢
    rcases List.mem_cons.mp hi with rfl | hi
    · split_ifs at hok ⊢ with hset hfull
      · rw [countUp_of_notMem hj, Function.update_self]
      · rw [countUp_of_notMem hj]
    · have hij : i ≠ j := ne_of_mem_of_not_mem hi hj
      split_ifs at hok ⊢ with hset hfull
      all_goals rw [ih hl hok hi]
      all_goals simp [*]

/-- The first set bit is counted unless its counter is full, whatever comes behind it. -/
theorem countUp_first {pre post : List (Fin (N * 8))} (hl : (pre ++ i :: post).Nodup)
    (hpre : ∀ j ∈ pre, ¬ isBitSet h j) (hset : isBitSet h i) :
    countUp h (pre ++ i :: post) c =
      if c i ≠ 65535 then countUp h post (Function.update c i (c i + 1)) else (c, true) := by
  induction pre with
  | nil => simp [countUp, hset]
  | cons j pre ih =>
    have hj : ¬ isBitSet h j := hpre j (by simp)
    have hrest := ih (List.nodup_cons.mp hl).2 fun k hk => hpre k (List.mem_cons_of_mem j hk)
    simpa [countUp, hj] using hrest

end CountUp

section CountDown

variable {s : TopicBloomFilterBase N} {h : FixedHash N} {l : List (Fin (N * 8))} {i j : Fin (N * 8)}

theorem toNat_lowered (c : UInt16) : (lowered c).toNat = c.toNat - 1 := by
  by_cases hzero : c = 0
  · simp [lowered, hzero]
  · have hpos : c.toNat ≠ 0 := fun h => hzero (UInt16.toNat_inj.mp h)
    have hle : 1 ≤ c := by
      rw [UInt16.le_iff_toNat_le, UInt16.toNat_one]
      omega
    rw [lowered, if_pos hzero, UInt16.toNat_sub_of_le _ _ hle, UInt16.toNat_one]

theorem drop_counter_self : ((s.drop i).m_refCounter i).toNat = (s.m_refCounter i).toNat - 1 := by
  simp [drop, toNat_lowered]

theorem drop_counter_of_ne (hij : i ≠ j) : (s.drop j).m_refCounter i = s.m_refCounter i := by
  simp [drop, hij]

theorem isBitSet_drop_self :
    isBitSet (s.drop i).hash i = (isBitSet s.hash i && decide (1 < (s.m_refCounter i).toNat)) := by
  have hzero : lowered (s.m_refCounter i) = 0 ↔ ¬ 1 < (s.m_refCounter i).toNat := by
    rw [← UInt16.toNat_inj, toNat_lowered, UInt16.toNat_zero]
    omega
  by_cases hmore : 1 < (s.m_refCounter i).toNat
  · simp [drop, hzero, hmore]
  · simp [drop, hzero, hmore, isBitSet_clearBit i.isLt]

theorem isBitSet_drop_of_ne (hij : i ≠ j) : isBitSet (s.drop j).hash i = isBitSet s.hash i := by
  have hne : j.val ≠ i.val := fun h => hij (Fin.ext h.symm)
  simp only [drop]
  split_ifs <;> simp [isBitSet_clearBit j.isLt, hne]

theorem countDown_of_notMem (hi : i ∉ l) :
    (countDown h l s).m_refCounter i = s.m_refCounter i ∧
      isBitSet (countDown h l s).hash i = isBitSet s.hash i := by
  induction l generalizing s with
  | nil => simp [countDown]
  | cons j l ih =>
    obtain ⟨hij, hl⟩ := not_or.mp (List.mem_cons.not.mp hi)
    unfold countDown
    split_ifs
    · obtain ⟨hc, hb⟩ := ih (s := s.drop j) hl
      rw [hc, hb]
      exact ⟨drop_counter_of_ne hij, isBitSet_drop_of_ne hij⟩
    · exact ih hl

/-- A counter of a set bit is taken down, and the bit goes with the last one. -/
theorem countDown_of_mem (hl : l.Nodup) (hi : i ∈ l) :
    ((countDown h l s).m_refCounter i).toNat =
        (s.m_refCounter i).toNat - (if isBitSet h i then 1 else 0) ∧
      isBitSet (countDown h l s).hash i =
        (isBitSet s.hash i && decide (isBitSet h i → 1 < (s.m_refCounter i).toNat)) := by
  induction l generalizing s with
  | nil => simp at hi
  | cons j l ih =>
    obtain ⟨hj, hl⟩ := List.nodup_cons.mp hl
    unfold countDown
    rcases List.mem_cons.mp hi with rfl | hi
    · obtain ⟨hc, hb⟩ := countDown_of_notMem (h := h)
        (s := if isBitSet h i then s.drop i else s) hj
      rw [hc, hb]
      by_cases hset : isBitSet h i
      · simp [hset, drop_counter_self, isBitSet_drop_self]
      · simp [hset]
    · have hij : i ≠ j := ne_of_mem_of_not_mem hi hj
      obtain ⟨hc, hb⟩ := ih (s := if isBitSet h j then s.drop j else s) hl hi
      rw [hc, hb]
      by_cases hset : isBitSet h j
      · simp [hset, drop_counter_of_ne hij, isBitSet_drop_of_ne hij]
      · simp [hset]

end CountDown

/-- Calls on a filter. -/
inductive Call (N : ℕ) where
  | addBloom (t : AbridgedTopic)
  | addRaw (h : FixedHash N)
  | removeBloom (t : AbridgedTopic)
  | removeRaw (h : FixedHash N)

/-- A filter, and the additions that were neither refused nor removed. -/
structure Run (N : ℕ) where
  filter : TopicBloomFilterBase N
  outstanding : List (FixedHash N)

namespace Run

def initial : Run N := ⟨empty, []⟩

/-- An addition that throws is not one. -/
def added (x : Run N) (h : FixedHash N) (r : TopicBloomFilterBase N × Bool) : Run N :=
  ⟨r.1, if r.2 then x.outstanding else h :: x.outstanding⟩

def step (x : Run N) : Call N → Run N
  | .addBloom t => x.added (bloom t) (x.filter.addBloom t)
  | .addRaw h => x.added h (x.filter.addRaw h)
  | .removeBloom t => ⟨x.filter.removeBloom t, x.outstanding.erase (bloom t)⟩
  | .removeRaw h => ⟨x.filter.removeRaw h, x.outstanding.erase h⟩

/-- The call throws. -/
def Throws (x : Run N) : Call N → Prop
  | .addBloom t => (x.filter.addBloom t).2
  | .addRaw h => (x.filter.addRaw h).2
  | _ => False

/-- What is removed was added and is still there. -/
def Matches (x : Run N) : Call N → Prop
  | .removeBloom t => bloom t ∈ x.outstanding
  | .removeRaw h => h ∈ x.outstanding
  | _ => True

/-- The bits and the counters are those of the outstanding additions. -/
structure Exact (x : Run N) : Prop where
  bit : ∀ i : Fin (N * 8), isBitSet x.filter.hash i ↔ ∃ h ∈ x.outstanding, isBitSet h i
  counter : ∀ i : Fin (N * 8),
    (x.filter.m_refCounter i).toNat = x.outstanding.countP fun h => isBitSet h i

end Run

/-- No counter of the bits of a hash is full; or that of the lowest one is, and all of the bits
are set already, so that the exception comes before anything is changed. -/
def AddsOrKeeps (s : TopicBloomFilterBase N) (h : FixedHash N) : Prop :=
  (∀ i : Fin (N * 8), isBitSet h i → s.m_refCounter i ≠ 65535) ∨
    s.containsRaw h ∧ ∃ i : Fin (N * 8), isBitSet h i ∧ s.m_refCounter i = 65535 ∧
      ∀ j < i, ¬ isBitSet h j

namespace Run

/-- The guard of a call. -/
def Room (x : Run N) : Call N → Prop
  | .addBloom t => AddsOrKeeps x.filter (bloom t)
  | .addRaw h => AddsOrKeeps x.filter h
  | _ => True

variable {x : Run N} {h : FixedHash N}

theorem exact_initial : Exact (initial : Run N) where
  bit := by simp [initial, empty]
  counter := by simp [initial, empty]

/-- What is outstanding is contained. -/
theorem Exact.containsRaw (hx : Exact x) (hh : h ∈ x.outstanding) : x.filter.containsRaw h := by
  unfold TopicBloomFilterBase.containsRaw
  rw [contains_iff]
  intro i hi hset
  exact (hx.bit ⟨i, hi⟩).mpr ⟨h, hh, hset⟩

theorem Exact.bit_iff_pos (hx : Exact x) (i : Fin (N * 8)) :
    isBitSet x.filter.hash i ↔ 0 < (x.filter.m_refCounter i).toNat := by
  rw [hx.bit, hx.counter, List.countP_pos_iff]

theorem exact_of_pos
    (hpos : ∀ i : Fin (N * 8), isBitSet x.filter.hash i ↔ 0 < (x.filter.m_refCounter i).toNat)
    (hcount : ∀ i : Fin (N * 8),
      (x.filter.m_refCounter i).toNat = x.outstanding.countP fun h => isBitSet h i) : Exact x :=
  ⟨fun i => by rw [hpos, hcount, List.countP_pos_iff], hcount⟩

theorem Exact.remove (hx : Exact x) (hh : h ∈ x.outstanding) :
    Exact ⟨x.filter.removeRaw h, x.outstanding.erase h⟩ := by
  have hdown (i : Fin (N * 8)) := countDown_of_mem (s := x.filter) (h := h) (List.nodup_finRange _)
    (List.mem_finRange i)
  apply exact_of_pos
  · intro i
    obtain ⟨hc, hb⟩ := hdown i
    have hpos := hx.bit_iff_pos i
    simp only [removeRaw, hc, hb, Bool.and_eq_true, decide_eq_true_eq, hpos]
    by_cases hset : isBitSet h i
    · simp only [hset, if_true, forall_const]
      omega
    · simp [hset]
  · intro i
    rw [removeRaw, (hdown i).1, hx.counter i, List.countP_erase]
    simp [hh]

theorem addRaw_throws_iff {s : TopicBloomFilterBase N} :
    (s.addRaw h).2 ↔ ∃ i : Fin (N * 8), isBitSet h i ∧ s.m_refCounter i = 65535 := by
  simp only [addRaw, countUp_throws (List.nodup_finRange _), List.mem_finRange, true_and]

theorem Exact.add (hx : Exact x) (hok : (x.filter.addRaw h).2 = false) :
    Exact (x.added h (x.filter.addRaw h)) := by
  have hup (i : Fin (N * 8)) : ((x.filter.addRaw h).1.m_refCounter i).toNat =
      (x.filter.m_refCounter i).toNat + if isBitSet h i then 1 else 0 := by
    have hc := countUp_of_not_throws (List.nodup_finRange _) hok (List.mem_finRange i)
    have hroom : isBitSet h i → x.filter.m_refCounter i ≠ 65535 := by
      intro hset hfull
      have hthrows := addRaw_throws_iff.mpr ⟨i, hset, hfull⟩
      rw [hok] at hthrows
      cases hthrows
    simp only [addRaw, hc]
    by_cases hset : isBitSet h i
    · have hne : (x.filter.m_refCounter i).toNat ≠ 65535 := by
        intro heq
        exact hroom hset (UInt16.toNat_inj.mp heq)
      have hlt := (x.filter.m_refCounter i).toNat_lt
      simp only [hset, if_true, UInt16.toNat_add, UInt16.toNat_one]
      omega
    · simp [hset]
  apply exact_of_pos
  · intro i
    have hpos := hx.bit_iff_pos i
    have hbit : isBitSet (x.filter.addRaw h).1.hash i =
        (isBitSet x.filter.hash i || isBitSet h i) := isBitSet_join i.isLt
    simp only [added, hup, hbit, Bool.or_eq_true, hpos]
    by_cases hset : isBitSet h i <;> simp [hset]
  · intro i
    simp only [added, hup, hok, hx.counter i, Bool.false_eq_true, if_false, List.countP_cons]

/-- An addition that throws before it has changed anything. -/
theorem addRaw_keeps {s : TopicBloomFilterBase N} {i : Fin (N * 8)} (hin : s.containsRaw h)
    (hset : isBitSet h i) (hfull : s.m_refCounter i = 65535) (hfirst : ∀ j < i, ¬ isBitSet h j) :
    s.addRaw h = (s, true) := by
  obtain ⟨pre, post, hsplit⟩ := List.append_of_mem (List.mem_finRange i)
  have hsorted := List.pairwise_lt_finRange (N * 8)
  have hnodup := List.nodup_finRange (N * 8)
  rw [hsplit] at hsorted hnodup
  have hpre : ∀ j ∈ pre, ¬ isBitSet h j := by
    intro j hj
    exact hfirst j ((List.pairwise_append.mp hsorted).2.2 j hj i (by simp))
  have hjoin : join s.hash h = s.hash := by
    apply hash_ext
    intro j hj
    rw [isBitSet_join hj]
    cases hb : isBitSet h j with
    | false => simp
    | true => simp [contains_iff.mp hin j hj hb]
  simp only [addRaw, hsplit, countUp_first hnodup hpre hset, hfull, hjoin]
  simp

/-- The first bit of a hash in the order of the counters. -/
theorem exists_first {k : Fin (N * 8)} (hk : isBitSet h k) :
    ∃ (i : Fin (N * 8)) (pre post : List (Fin (N * 8))),
      List.finRange (N * 8) = pre ++ i :: post ∧ isBitSet h i ∧
      (∀ j ∈ pre, ¬isBitSet h j) ∧ ∀ j < i, ¬isBitSet h j := by
  obtain ⟨i, pre, post, hpre, hset, hsplit, -⟩ :=
    List.exists_of_eraseP (p := fun j : Fin (N * 8) => isBitSet h j) (List.mem_finRange k) hk
  refine ⟨i, pre, post, hsplit, hset, hpre, fun j hj hjset => ?_⟩
  have hsorted := List.pairwise_lt_finRange (N * 8)
  have hmem := List.mem_finRange j
  rw [hsplit] at hsorted hmem
  rcases List.mem_append.mp hmem with hjpre | hjpost
  · exact hpre j hjpre hjset
  · rcases List.mem_cons.mp hjpost with rfl | hjpost
    · exact lt_irrefl _ hj
    · have hlt := (List.pairwise_cons.mp (List.pairwise_append.mp hsorted).2.1).1 j hjpost
      exact hj.not_gt hlt

/-- An addition that throws leaves the books right if it has changed nothing. -/
theorem Exact.throws_iff (hx : Exact x) (hthrows : (x.filter.addRaw h).2) :
    Exact ⟨(x.filter.addRaw h).1, x.outstanding⟩ ↔
      x.filter.containsRaw h ∧ ∃ i : Fin (N * 8), isBitSet h i ∧
        x.filter.m_refCounter i = 65535 ∧ ∀ j < i, ¬ isBitSet h j := by
  constructor
  · intro hafter
    have hsame (i : Fin (N * 8)) :
        (x.filter.addRaw h).1.m_refCounter i = x.filter.m_refCounter i := by
      apply UInt16.toNat_inj.mp
      rw [hafter.counter i, hx.counter i]
    have hin : x.filter.containsRaw h := by
      apply contains_iff.mpr
      intro i hi hset
      have hbit : isBitSet (x.filter.addRaw h).1.hash i := by
        simp [addRaw, isBitSet_join hi, hset]
      exact (hx.bit ⟨i, hi⟩).mpr ((hafter.bit ⟨i, hi⟩).mp hbit)
    obtain ⟨k, hk, -⟩ := addRaw_throws_iff.mp hthrows
    obtain ⟨i, pre, post, hsplit, hset, hpre, hfirst⟩ := exists_first hk
    have hnodup := List.nodup_finRange (N * 8)
    rw [hsplit] at hnodup
    refine ⟨hin, i, hset, ?_, hfirst⟩
    -- The first counter would have been raised.
    by_contra hroom
    have hpost : i ∉ post := (List.nodup_cons.mp (List.nodup_append.mp hnodup).2.1).1
    have hraised := hsame i
    simp only [addRaw, hsplit, countUp_first hnodup hpre hset, if_pos hroom,
      countUp_of_notMem hpost, Function.update_self] at hraised
    simp at hraised
  · rintro ⟨hin, i, hset, hfull, hfirst⟩
    rw [addRaw_keeps hin hset hfull hfirst]
    exact hx

theorem Exact.added_iff (hx : Exact x) :
    Exact (x.added h (x.filter.addRaw h)) ↔ AddsOrKeeps x.filter h := by
  cases hthrows : (x.filter.addRaw h).2 with
  | false =>
    have hroom : ∀ i : Fin (N * 8), isBitSet h i → x.filter.m_refCounter i ≠ 65535 := by
      intro i hset hfull
      have h := addRaw_throws_iff.mpr ⟨i, hset, hfull⟩
      rw [hthrows] at h
      cases h
    exact iff_of_true (hx.add hthrows) (.inl hroom)
  | true =>
    obtain ⟨i, hset, hfull⟩ := addRaw_throws_iff.mp hthrows
    have hno : ¬ ∀ i : Fin (N * 8), isBitSet h i → x.filter.m_refCounter i ≠ 65535 :=
      fun hroom => hroom i hset hfull
    rw [AddsOrKeeps, or_iff_right hno, ← hx.throws_iff hthrows]
    simp [added, hthrows]

theorem Exact.step_iff {c : Call N} (hc : x.Matches c) (hx : Exact x) :
    Exact (x.step c) ↔ x.Room c := by
  cases c with
  | addBloom t => exact hx.added_iff
  | addRaw h => exact hx.added_iff
  | removeBloom t => exact iff_of_true (hx.remove hc) trivial
  | removeRaw h => exact iff_of_true (hx.remove hc) trivial

/-- Where there is room, a call that throws changes nothing. -/
theorem filter_added (hroom : AddsOrKeeps x.filter h) (hthrows : (x.filter.addRaw h).2) :
    (x.filter.addRaw h).1 = x.filter := by
  rcases hroom with hroom | ⟨hin, i, hset, hfull, hfirst⟩
  · obtain ⟨i, hset, hfull⟩ := addRaw_throws_iff.mp hthrows
    exact absurd hfull (hroom i hset)
  · rw [addRaw_keeps hin hset hfull hfirst]

theorem filter_step {c : Call N} (hroom : x.Room c) (hthrows : x.Throws c) :
    (x.step c).filter = x.filter := by
  cases c with
  | addBloom t => exact filter_added hroom hthrows
  | addRaw h => exact filter_added hroom hthrows
  | removeBloom t => exact hthrows.elim
  | removeRaw h => exact hthrows.elim

/-- What a filter should do in a run: its bits and counters are those of the outstanding
additions, no topic that is still added is missed, and a call that throws changes nothing. -/
structure Right (calls : List (Call N)) : Prop where
  exact : ∀ pre post, calls = pre ++ post → Exact (runFrom step initial pre)
  contains : ∀ pre post t, calls = pre ++ post → bloom t ∈ (runFrom step initial pre).outstanding →
    (runFrom step initial pre).filter.containsBloom t
  throws : ∀ pre c post, calls = pre ++ c :: post → Throws (runFrom step initial pre) c →
    (step (runFrom step initial pre) c).filter = (runFrom step initial pre).filter

theorem right_iff {calls : List (Call N)} (hmatch : Guarded step Matches initial calls) :
    Right calls ↔ Guarded step Room initial calls := by
  have hiff : (∀ pre post, calls = pre ++ post → Exact (runFrom step initial pre)) ↔
      Guarded step Room initial calls :=
    guarded_iff_of_guarded (fun x c hc hx => hx.step_iff hc) hmatch exact_initial
  constructor
  · intro h
    exact hiff.mp h.exact
  · intro hroom
    have hexact := hiff.mpr hroom
    constructor
    case exact => exact hexact
    case contains =>
      intro pre post t h ht
      exact (hexact pre post h).containsRaw ht
    case throws =>
      intro pre c post h hthrows
      rw [h] at hroom
      exact filter_step (guarded_append.mp hroom).2.1 hthrows

theorem right_once : Right [Call.addBloom (N := TopicBloomFilterSize) (.zero 4),
    .removeBloom (.zero 4)] := by
  have hroom : ∀ h, AddsOrKeeps (empty : TopicBloomFilterBase TopicBloomFilterSize) h :=
    fun _ => .inl fun _ _ => by simp [empty]
  have hmem : bloom (.zero 4) ∈ (step (initial : Run TopicBloomFilterSize)
      (.addBloom (.zero 4))).outstanding := by
    have hok : ((empty : TopicBloomFilterBase TopicBloomFilterSize).addRaw
        (bloom (.zero 4))).2 = false := by
      rw [Bool.eq_false_iff]
      intro hthrows
      obtain ⟨i, -, hfull⟩ := addRaw_throws_iff.mp hthrows
      simp [empty] at hfull
    simp [step, added, initial, addBloom, hok]
  have hmatch : Guarded step Matches (initial : Run TopicBloomFilterSize)
      [.addBloom (.zero 4), .removeBloom (.zero 4)] := ⟨trivial, hmem, trivial⟩
  apply (right_iff hmatch).mpr
  exact ⟨hroom _, trivial, trivial⟩

section Full

variable {t : AbridgedTopic}

theorem matches_additions {x : Run N} (n : ℕ) :
    Guarded step Matches x (List.replicate n (.addBloom t)) := by
  induction n generalizing x with
  | zero => trivial
  | succ n ih => exact ⟨trivial, ih⟩

/-- A topic can be added until its counters are full. -/
theorem exact_additions {n : ℕ} (hn : n ≤ 65535) :
    Exact (runFrom step (initial : Run N) (List.replicate n (.addBloom t))) ∧
      (runFrom step (initial : Run N) (List.replicate n (.addBloom t))).outstanding =
        List.replicate n (bloom t) := by
  induction n with
  | zero => exact ⟨exact_initial, by simp [initial]⟩
  | succ n ih =>
    obtain ⟨hexact, hout⟩ := ih (by omega)
    rw [List.replicate_succ', runFrom_append, runFrom_singleton]
    set x := runFrom step (initial : Run N) (List.replicate n (.addBloom t)) with hx
    have hroom (i : Fin (N * 8)) : x.filter.m_refCounter i ≠ 65535 := by
      intro hfull
      have hcount := hexact.counter i
      have hle : x.outstanding.countP (fun h => isBitSet h i) ≤ x.outstanding.length :=
        List.countP_le_length
      rw [hout, List.length_replicate] at hle
      rw [hfull, hout] at hcount
      have hval : (65535 : UInt16).toNat = 65535 := rfl
      omega
    have hok : (x.filter.addBloom t).2 = false := by
      rw [Bool.eq_false_iff]
      intro hthrows
      obtain ⟨i, -, hfull⟩ := addRaw_throws_iff.mp hthrows
      exact hroom i hfull
    refine ⟨hexact.added_iff.mpr (.inl fun i _ => hroom i), ?_⟩
    simp [step, added, hok, hout, List.replicate_succ]

end Full

/-- One topic is added until its bit is full, and then another one that has this bit and a lower
one: the lower bit is counted before the exception. -/
theorem not_right_full : ¬ ∀ calls : List (Call TopicBloomFilterSize),
    Guarded step Matches initial calls → Right calls := by
  intro h
  let one : AbridgedTopic := .ofRef 4 [1, 1, 1, 0]
  let both : AbridgedTopic := .ofRef 4 [0, 1, 1, 0]
  let zero : Fin (TopicBloomFilterSize * 8) := ⟨0, by decide⟩
  let first : Fin (TopicBloomFilterSize * 8) := ⟨1, by decide⟩
  have hone : isBitSet (bloom (N := TopicBloomFilterSize) one) 1 := by decide
  have hone' : ¬ isBitSet (bloom (N := TopicBloomFilterSize) one) 0 := by decide
  have hboth : isBitSet (bloom (N := TopicBloomFilterSize) both) 1 := by decide
  have hboth' : isBitSet (bloom (N := TopicBloomFilterSize) both) 0 := by decide
  obtain ⟨hexact, hout⟩ := exact_additions (N := TopicBloomFilterSize) (t := one) le_rfl
  set x := runFrom step (initial : Run TopicBloomFilterSize)
    (List.replicate 65535 (.addBloom one)) with hx
  have hmatch : Guarded step Matches (initial : Run TopicBloomFilterSize)
      (List.replicate 65535 (.addBloom one) ++ [.addBloom both]) :=
    guarded_append.mpr ⟨matches_additions _, trivial, trivial⟩
  have hafter := (h _ hmatch).exact _ [] (List.append_nil _).symm
  rw [runFrom_append, runFrom_singleton, ← hx] at hafter
  rcases hexact.added_iff.mp hafter with hroom | ⟨hin, -⟩
  · -- the counter of the bit of the first topic is full
    apply hroom first hboth
    apply UInt16.toNat_inj.mp
    rw [hexact.counter, hout, List.countP_replicate]
    simp only [first, hone, if_true]
    rfl
  · -- the lower bit is not set
    have hbit := (hexact.bit zero).mp (contains_iff.mp hin 0 (by decide) hboth')
    obtain ⟨k, hk, hset⟩ := hbit
    rw [hout] at hk
    rw [List.eq_of_mem_replicate hk] at hset
    exact hone' hset

end Run

end TopicBloomFilterBase

end Whisper
end XChain
