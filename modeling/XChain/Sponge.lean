import Mathlib.Data.List.GetD
import Mathlib.Data.List.Induction
import Mathlib.Data.Nat.Notation
import Mathlib.Logic.Function.Iterate

/-!
# Sponges

A sponge is a string of bytes that takes in a text block by block, with a permutation after
each block, and then gives out bytes from its front, with a permutation after each block. The
text is filled with a mark, zeros and a last bit first, so that it consists of whole blocks.
-/
namespace XChain
namespace Sponge

/-- What follows a rest of the text in the last block: a mark, then zeros, and the highest bit of
the last byte set. -/
def filling (rate : ℕ) (delim : UInt8) (rest : ℕ) : List UInt8 :=
  if rest + 1 = rate then [delim ^^^ 0x80]
  else delim :: List.replicate (rate - rest - 2) 0 ++ [0x80]

/-- The text filled to whole blocks. -/
def padded (rate : ℕ) (delim : UInt8) (m : List UInt8) : List UInt8 :=
  m ++ filling rate delim (m.length % rate)

/-- Combines a block with the front of the state. -/
def overlay (s block : List UInt8) : List UInt8 :=
  s.mapIdx fun i b => b ^^^ block.getD i 0

section

variable (P : List UInt8 → List UInt8) (rate : ℕ)

/-- Takes in the whole blocks of a text. -/
def absorb (s m : List UInt8) : List UInt8 :=
  (List.range (m.length / rate)).foldl
    (fun s i => P (overlay s ((m.drop (i * rate)).take rate))) s

/-- Gives out as many bytes as wanted. -/
def squeeze (s : List UInt8) (n : ℕ) : List UInt8 :=
  (List.range n).map fun k => (P^[k / rate] s).getD (k % rate) 0

/-- The sponge starts with zeros, takes in the text, and gives out the bytes wanted. -/
def sponge (width n : ℕ) (delim : UInt8) (m : List UInt8) : List UInt8 :=
  squeeze P rate (absorb P rate (List.replicate width 0) (padded rate delim m)) n

end

variable {P : List UInt8 → List UInt8} {rate : ℕ} {s m : List UInt8} {n : ℕ} {delim : UInt8}

@[simp] theorem length_overlay (s block : List UInt8) : (overlay s block).length = s.length :=
  List.length_mapIdx

@[simp] theorem length_sponge (width : ℕ) : (sponge P rate width n delim m).length = n := by
  rw [sponge, squeeze, List.length_map, List.length_range]

theorem absorb_of_lt (h : m.length < rate) : absorb P rate s m = s := by
  rw [absorb, Nat.div_eq_of_lt h]
  rfl

/-- The first block goes in first. -/
theorem absorb_of_le (hrate : 0 < rate) (h : rate ≤ m.length) :
    absorb P rate s m = absorb P rate (P (overlay s (m.take rate))) (m.drop rate) := by
  have hcount : m.length / rate = (m.drop rate).length / rate + 1 := by
    rw [List.length_drop, Nat.div_eq_sub_div hrate h]
  rw [absorb, hcount, List.range_succ_eq_map, List.foldl_cons, List.foldl_map, Nat.zero_mul,
    List.drop_zero, absorb]
  congr 1
  funext s i
  rw [List.drop_drop, Nat.succ_mul, Nat.add_comm]

/-- A text of whole blocks goes in before what is appended to it. -/
theorem absorb_append (hrate : 0 < rate) (hm : rate ∣ m.length) (m' : List UInt8) :
    absorb P rate s (m ++ m') = absorb P rate (absorb P rate s m) m' := by
  obtain ⟨q, hq⟩ := hm
  induction q generalizing s m with
  | zero =>
    obtain rfl : m = [] := List.length_eq_zero_iff.mp hq
    rw [absorb_of_lt (m := []) hrate]
    rfl
  | succ q ih =>
    have hle : rate ≤ m.length := by
      rw [hq, Nat.mul_succ]
      omega
    have hrest : (m.drop rate).length = rate * q := by
      rw [List.length_drop, hq, Nat.mul_succ]
      omega
    rw [absorb_of_le hrate (by rw [List.length_append]; omega), absorb_of_le (m := m) hrate hle,
      List.take_append_of_le_length hle, List.drop_append_of_le_length hle, ih hrest]

theorem length_absorb (hP : ∀ s, (P s).length = s.length) : (absorb P rate s m).length = s.length := by
  rw [absorb]
  induction List.range (m.length / rate) using List.reverseRecOn with
  | nil => rfl
  | append_singleton l i ih => rw [List.foldl_append, List.foldl_cons, List.foldl_nil, hP,
      length_overlay, ih]

/-- A whole block comes from the front of the state, the rest after a permutation. -/
theorem squeeze_add (hrate : 0 < rate) (hs : rate ≤ s.length) :
    squeeze P rate s (rate + n) = s.take rate ++ squeeze P rate (P s) n := by
  rw [squeeze, List.range_add, List.map_append, List.map_map, squeeze]
  congr 1
  · refine List.ext_getElem (by simp [hs]) fun k hk _ => ?_
    rw [List.length_map, List.length_range] at hk
    rw [List.getElem_map, List.getElem_range, Nat.div_eq_of_lt hk, Nat.mod_eq_of_lt hk,
      List.getElem_take, Function.iterate_zero_apply, List.getD_eq_getElem _ _ (by omega)]
  · refine List.map_congr_left fun k _ => ?_
    rw [Function.comp_apply, Nat.add_div_left _ hrate, Nat.add_mod_left, Function.iterate_succ_apply]

theorem squeeze_of_le (hn : n ≤ rate) (hs : rate ≤ s.length) : squeeze P rate s n = s.take n := by
  refine List.ext_getElem (by simp [squeeze]; omega) fun k hk _ => ?_
  rw [squeeze, List.length_map, List.length_range] at hk
  simp only [squeeze, List.getElem_map, List.getElem_range, List.getElem_take]
  rw [Nat.div_eq_of_lt (by omega), Nat.mod_eq_of_lt (by omega), Function.iterate_zero_apply,
    List.getD_eq_getElem _ _ (by omega)]

theorem length_filling {r : ℕ} (h : r < rate) : r + (filling rate delim r).length = rate := by
  rw [filling]
  split_ifs with hlast
  · exact hlast
  · simp only [List.length_append, List.length_cons, List.length_replicate, List.length_nil]
    omega

/-- The mark stands first and the bit last; in a filling of one byte they fall together. -/
theorem getD_filling {r : ℕ} (h : r < rate) (j : ℕ) : (filling rate delim r).getD j 0 =
    (if j = 0 then delim else 0) ^^^ (if r + j + 1 = rate then 0x80 else 0) := by
  rw [filling]
  by_cases hlast : r + 1 = rate
  · rw [if_pos hlast]
    cases j with
    | zero => rw [List.getD_cons_zero, if_pos rfl, if_pos hlast]
    | succ j => rw [List.getD_cons_succ, List.getD_nil, if_neg (Nat.succ_ne_zero j),
        if_neg (by omega), UInt8.xor_self]
  · rw [if_neg hlast, List.cons_append]
    cases j with
    | zero => rw [List.getD_cons_zero, if_pos rfl, if_neg hlast, UInt8.xor_zero]
    | succ j =>
      rw [List.getD_cons_succ, if_neg (Nat.succ_ne_zero j), UInt8.zero_xor]
      by_cases hzeros : j < rate - r - 2
      · rw [List.getD_append _ _ _ _ (by rw [List.length_replicate]; exact hzeros),
          List.getD_replicate _ hzeros, if_neg (by omega)]
      · rw [List.getD_append_right _ _ _ _ (by rw [List.length_replicate]; omega),
          List.length_replicate]
        by_cases hend : r + (j + 1) + 1 = rate
        · rw [if_pos hend, show j - (rate - r - 2) = 0 by omega, List.getD_cons_zero]
        · rw [if_neg hend, List.getD_eq_default _ _ (by rw [List.length_singleton]; omega)]

/-- The whole blocks of a text go in, and then one block with the rest of it and the filling. -/
theorem absorb_padded (hrate : 0 < rate) : absorb P rate s (padded rate delim m) =
    P (overlay (absorb P rate s m)
      (m.drop (m.length / rate * rate) ++ filling rate delim (m.length % rate))) := by
  have hmod : m.length % rate < rate := Nat.mod_lt _ hrate
  have hdiv : m.length / rate * rate + m.length % rate = m.length := by
    rw [Nat.mul_comm]
    exact Nat.div_add_mod ..
  have hwhole : rate ∣ (m.take (m.length / rate * rate)).length := by
    rw [List.length_take_of_le (by omega)]
    exact Nat.dvd_mul_left ..
  have hrest : (m.drop (m.length / rate * rate)).length < rate := by
    rw [List.length_drop]
    omega
  have hlast : (m.drop (m.length / rate * rate) ++ filling rate delim (m.length % rate)).length =
      rate := by
    rw [List.length_append, List.length_drop]
    have hfill : _ + (filling rate delim _).length = rate := length_filling hmod
    omega
  have hpadded : padded rate delim m = m.take (m.length / rate * rate) ++
      (m.drop (m.length / rate * rate) ++ filling rate delim (m.length % rate)) := by
    rw [padded, ← List.append_assoc, List.take_append_drop]
  have hall : absorb P rate s m = absorb P rate s (m.take (m.length / rate * rate)) := by
    conv_lhs => rw [← List.take_append_drop (m.length / rate * rate) m]
    rw [absorb_append hrate hwhole, absorb_of_lt hrest]
  rw [hpadded, absorb_append hrate hwhole, ← hall,
    absorb_of_le hrate (Nat.le_of_eq hlast.symm), List.take_of_length_le (Nat.le_of_eq hlast),
    List.drop_of_length_le (Nat.le_of_eq hlast), absorb_of_lt (m := []) hrate]

end Sponge

end XChain
