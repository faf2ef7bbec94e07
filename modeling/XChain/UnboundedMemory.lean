import Mathlib.Data.List.GetD
import Mathlib.Data.Nat.Notation

/-!
# Unbounded memories

A memory has a cell for every number. It is read and written in pieces, and a list is a
memory in which every cell behind its end holds zero. Writing over a part of a list, and
reading a part of it, are what they are for the memory.
-/
namespace XChain
namespace UnboundedMemory

variable {α : Type}

/-- The cells from `offset` on. -/
def load (m : ℕ → α) (offset size : ℕ) : List α := (List.range size).map fun i => m (offset + i)

/-- The memory after the cells from `offset` on were written. -/
def store (m : ℕ → α) (offset : ℕ) (b : List α) : ℕ → α := fun i =>
  if offset ≤ i then (b[i - offset]?).getD (m i) else m i

/-- The list with `b` in the place of what is from `offset` on. -/
def overwrite (l : List α) (offset : ℕ) (b : List α) : List α :=
  l.take offset ++ b ++ l.drop (offset + b.length)

section Pieces

variable (m : ℕ → α) (offset : ℕ)

@[simp] theorem length_load (size : ℕ) : (load m offset size).length = size := by
  rw [load, List.length_map, List.length_range]

theorem getElem?_load {size i : ℕ} (hi : i < size) :
    (load m offset size)[i]? = some (m (offset + i)) := by
  rw [load, List.getElem?_map, List.getElem?_range hi]
  rfl

theorem load_add (k n : ℕ) : load m offset (k + n) = load m offset k ++ load m (offset + k) n := by
  simp only [load, List.range_add, List.map_append, List.map_map]
  congr 1
  exact List.map_congr_left fun i _ => by rw [Function.comp, Nat.add_assoc]

@[simp] theorem store_nil : store m offset [] = m := by
  funext i
  by_cases hi : offset ≤ i
  · rw [store, if_pos hi]
    rfl
  · rw [store, if_neg hi]

variable {m} {offset}

theorem store_inside {b : List α} {i : ℕ} (hi : i < b.length) :
    store m offset b (offset + i) = b[i] := by
  rw [store, if_pos (Nat.le_add_right _ _), Nat.add_sub_cancel_left, List.getElem?_eq_getElem hi]
  rfl

/-- Nothing but the addressed cells changes. -/
theorem store_outside {b : List α} {i : ℕ} (hi : i < offset ∨ offset + b.length ≤ i) :
    store m offset b i = m i := by
  by_cases hle : offset ≤ i
  · rw [store, if_pos hle, List.getElem?_eq_none (by omega)]
    rfl
  · rw [store, if_neg hle]

/-- Two pieces that are written one behind the other are one piece. -/
theorem store_append (b c : List α) :
    store (store m offset b) (offset + b.length) c = store m offset (b ++ c) := by
  funext i
  by_cases hb : i < offset + b.length
  · rw [store_outside (Or.inl hb)]
    by_cases hle : offset ≤ i
    · rw [store, store, if_pos hle, if_pos hle, List.getElem?_append_left (by omega),
        List.getElem?_eq_getElem (by omega)]
    · rw [store_outside (Or.inl (Nat.not_le.mp hle)), store_outside (Or.inl (Nat.not_le.mp hle))]
  · have hle := Nat.not_lt.mp hb
    rw [store, if_pos hle, store_outside (Or.inr hle), store, if_pos (by omega),
      List.getElem?_append_right (by omega), Nat.sub_sub]

end Pieces

section Lists

variable [Zero α]

/-- The memory that a list stands for: there are zeros behind its end. -/
def ofList (l : List α) : ℕ → α := fun i => l.getD i 0

@[simp] theorem ofList_nil : ofList ([] : List α) = fun _ => 0 := rfl

theorem ofList_of_lt {l : List α} {i : ℕ} (hi : i < l.length) : ofList l i = l[i] :=
  List.getD_eq_getElem l 0 hi

theorem ofList_of_le {l : List α} {i : ℕ} (hi : l.length ≤ i) : ofList l i = 0 :=
  List.getD_eq_default l 0 hi

/-- Zeros at the end make no difference. -/
theorem ofList_append_zeros (l : List α) (n : ℕ) :
    ofList (l ++ List.replicate n 0) = ofList l := by
  funext i
  by_cases hi : i < l.length
  · rw [ofList_of_lt hi, ofList_of_lt (by rw [List.length_append]; omega),
      List.getElem_append_left hi]
  · have hle := Nat.not_lt.mp hi
    rw [ofList_of_le hle, ofList, List.getD_eq_getElem?_getD, List.getElem?_append_right hle]
    by_cases hin : i - l.length < n
    · rw [List.getElem?_replicate, if_pos hin]
      rfl
    · rw [List.getElem?_replicate, if_neg hin]
      rfl

theorem load_ofList {l : List α} {offset size : ℕ} (h : offset + size ≤ l.length) :
    load (ofList l) offset size = (l.drop offset).take size := by
  refine List.ext_getElem ?_ fun i hi _ => ?_
  · rw [length_load, List.length_take, List.length_drop]
    omega
  · rw [length_load] at hi
    have hload := getElem?_load (ofList l) offset hi
    rw [List.getElem?_eq_getElem (by rw [length_load]; exact hi)] at hload
    rw [Option.some.inj hload, ofList_of_lt (by omega), List.getElem_take, List.getElem_drop]

theorem load_ofList_of_le {l : List α} {offset size : ℕ} (h : l.length ≤ offset) :
    load (ofList l) offset size = List.replicate size 0 := by
  refine List.ext_getElem ?_ fun i hi _ => ?_
  · rw [length_load, List.length_replicate]
  · rw [length_load] at hi
    have hload := getElem?_load (ofList l) offset hi
    rw [List.getElem?_eq_getElem (by rw [length_load]; exact hi)] at hload
    rw [Option.some.inj hload, ofList_of_le (by omega), List.getElem_replicate]

/-- Reading over the end: what there is, and zeros. -/
theorem load_ofList_clamped (l : List α) (offset size : ℕ) :
    load (ofList l) offset size = (l.drop offset).take (min size (l.length - offset)) ++
      List.replicate (size - min size (l.length - offset)) 0 := by
  have hsplit : min size (l.length - offset) + (size - min size (l.length - offset)) = size := by
    omega
  rw [← hsplit, load_add, hsplit]
  congr 1
  · by_cases hle : offset ≤ l.length
    · exact load_ofList (by omega)
    · rw [show l.length - offset = 0 by omega, Nat.min_zero, List.take_zero]
      rfl
  · by_cases hzero : size - min size (l.length - offset) = 0
    · rw [hzero]
      rfl
    · exact load_ofList_of_le (by omega)

omit [Zero α] in
@[simp] theorem overwrite_nil (l : List α) (offset : ℕ) : overwrite l offset [] = l := by
  rw [overwrite, List.append_nil]
  exact List.take_append_drop _ _

omit [Zero α] in
theorem length_overwrite {l : List α} {offset : ℕ} {b : List α}
    (hfits : b.length = 0 ∨ offset + b.length ≤ l.length) :
    (overwrite l offset b).length = l.length := by
  rcases hfits with hnil | hfits
  · rw [List.length_eq_zero_iff.mp hnil, overwrite_nil]
  · simp only [overwrite, List.length_append, List.length_take, List.length_drop]
    omega

theorem ofList_overwrite {l : List α} {offset : ℕ} {b : List α}
    (hfits : b.length = 0 ∨ offset + b.length ≤ l.length) :
    ofList (overwrite l offset b) = store (ofList l) offset b := by
  rcases hfits with hnil | hfits
  · rw [List.length_eq_zero_iff.mp hnil, overwrite_nil, store_nil]
  funext i
  have hlen := length_overwrite (Or.inr hfits)
  have htake : (l.take offset).length = offset := by
    rw [List.length_take]
    omega
  by_cases hin : offset ≤ i ∧ i < offset + b.length
  · obtain ⟨k, rfl⟩ := Nat.exists_eq_add_of_le hin.1
    have hk : k < b.length := by omega
    rw [store_inside hk, ofList, List.getD_eq_getElem?_getD, overwrite, List.append_assoc,
      List.getElem?_append_right (by omega), htake, Nat.add_sub_cancel_left,
      List.getElem?_append_left hk, List.getElem?_eq_getElem hk]
    rfl
  · rw [store_outside (by omega)]
    by_cases hlt : i < offset
    · rw [ofList, ofList, List.getD_eq_getElem?_getD, overwrite, List.append_assoc,
        List.getElem?_append_left (by omega), List.getElem?_take_of_lt hlt,
        List.getD_eq_getElem?_getD]
    · rw [ofList, ofList, List.getD_eq_getElem?_getD, overwrite,
        List.getElem?_append_right (by rw [List.length_append]; omega), List.length_append, htake,
        List.getElem?_drop, List.getD_eq_getElem?_getD, Nat.add_sub_cancel' (by omega)]

end Lists

end UnboundedMemory
end XChain
