import Mathlib.Data.List.Basic
import Mathlib.Data.List.Perm.Basic
import Mathlib.Data.Nat.Notation
import Mathlib.Order.Basic

/-!
# Elements in the order of a key

Elements are distributed by a key and taken key by key. What stands at the front of the result
has keys that are not larger than those of the rest.
-/
namespace XChain

section KeyedOrder

variable {α : Type*} (key : α → ℕ) (l : List α)

/-- The elements with keys below a bound, key by key. -/
def byKey (bound : ℕ) : List α := (List.range bound).flatMap fun k => l.filter (key · = k)

theorem byKey_succ (bound : ℕ) :
    byKey key l (bound + 1) = byKey key l bound ++ l.filter (key · = bound) := by
  simp [byKey, List.range_succ]

theorem mem_byKey {bound : ℕ} {a : α} : a ∈ byKey key l bound ↔ a ∈ l ∧ key a < bound := by
  simp [byKey]
  tauto

theorem filter_byKey (p : α → Bool) (bound : ℕ) :
    (byKey key l bound).filter p = byKey key (l.filter p) bound := by
  rw [byKey, byKey, List.filter_flatMap]
  apply List.flatMap_congr
  intro k _
  rw [List.filter_filter, List.filter_filter]
  simp only [Bool.and_comm]

variable {key l}

theorem byKey_congr {l' : List α} {bound : ℕ}
    (h : ∀ k < bound, l.filter (key · = k) = l'.filter (key · = k)) :
    byKey key l bound = byKey key l' bound := by
  induction bound with
  | zero => simp [byKey]
  | succ bound ih =>
    rw [byKey_succ, byKey_succ, ih fun k hk => h k (by omega), h bound (by omega)]

/-- Nothing is lost where all keys are below the bound. -/
theorem byKey_perm {bound : ℕ} (h : ∀ a ∈ l, key a < bound) : (byKey key l bound).Perm l := by
  induction bound generalizing l with
  | zero =>
    have hnil : l = [] := by
      apply List.eq_nil_iff_forall_not_mem.mpr
      intro a ha
      exact absurd (h a ha) (by omega)
    simp [hnil, byKey]
  | succ bound ih =>
    -- the elements with the largest key are the last ones
    have hrest : byKey key l bound = byKey key (l.filter (key · ≠ bound)) bound := by
      apply byKey_congr
      intro k hk
      rw [List.filter_filter]
      apply List.filter_congr
      intro a _
      by_cases ha : key a = k <;> simp [ha]
      omega
    have hperm : (byKey key (l.filter (key · ≠ bound)) bound).Perm (l.filter (key · ≠ bound)) := by
      apply ih
      intro a ha
      rw [List.mem_filter] at ha
      have hlt := h a ha.1
      have hne : key a ≠ bound := by simpa using ha.2
      omega
    rw [byKey_succ, hrest]
    apply (hperm.append_right _).trans
    apply List.perm_append_comm.trans
    have hsplit := List.filter_append_perm (key · = bound) l
    simpa using hsplit

theorem byKey_sorted (bound : ℕ) :
    (byKey key l bound).Pairwise fun a b => key a ≤ key b := by
  induction bound with
  | zero => simp [byKey]
  | succ bound ih =>
    rw [byKey_succ, List.pairwise_append]
    refine ⟨ih, ?_, fun a ha b hb => ?_⟩
    · apply List.pairwise_of_forall_mem_list
      intro a ha b hb
      simp at ha hb
      omega
    · have hlt := ((mem_byKey key l).mp ha).2
      simp at hb
      omega

section Front

variable {n : ℕ} (hsorted : l.Pairwise fun a b => key a ≤ key b)
include hsorted

theorem key_take_le_drop {a b : α} (ha : a ∈ l.take n) (hb : b ∈ l.drop n) : key a ≤ key b := by
  rw [← List.take_append_drop n l, List.pairwise_append] at hsorted
  exact hsorted.2.2 a ha b hb

/-- If as many elements as are taken have keys up to a bound, so have those that are taken. -/
theorem key_take_le {c : ℕ} (h : n ≤ (l.filter (key · ≤ c)).length) {a : α} (ha : a ∈ l.take n) :
    key a ≤ c := by
  by_contra hlarge
  have hrest : (l.drop n).filter (key · ≤ c) = [] := by
    rw [List.filter_eq_nil_iff]
    intro b hb
    have hle := key_take_le_drop hsorted ha hb
    simp
    omega
  have hfew : ((l.take n).filter (key · ≤ c)).length < (l.take n).length := by
    rw [List.length_filter_lt_length_iff_exists]
    exact ⟨a, ha, by simpa using hlarge⟩
  rw [← List.take_append_drop n l, List.filter_append, hrest, List.append_nil] at h
  rw [List.length_take] at hfew
  omega

end Front

variable (key l) in
/-- Elements with the smallest keys, in the order of the keys. -/
structure IsFront (n : ℕ) (front : List α) : Prop where
  length : front.length = min n l.length
  nodup : front.Nodup
  mem : ∀ a ∈ front, a ∈ l
  sorted : front.Pairwise fun a b => key a ≤ key b
  smallest : ∀ a ∈ front, ∀ b ∈ l, b ∉ front → key a ≤ key b

/-- The front of a part is the front of the whole if no element of the rest would have a place
in it. -/
theorem isFront_take_iff {part ordered rest : List α} {n : ℕ}
    (hsorted : ordered.Pairwise fun a b => key a ≤ key b) (hpart : ordered.Perm part)
    (hl : l.Perm (part ++ rest)) (hnodup : l.Nodup) :
    IsFront key l n (ordered.take n) ↔ ∀ b ∈ rest, n ≤ (part.filter (key · ≤ key b)).length := by
  have hsplit : (part ++ rest).Nodup := hl.nodup_iff.mp hnodup
  have hlength : l.length = ordered.length + rest.length := by
    rw [hl.length_eq, List.length_append, hpart.length_eq]
  have hcount : ∀ b, (part.filter (key · ≤ key b)).length
      = (ordered.filter (key · ≤ key b)).length := fun b => ((hpart.filter _).length_eq).symm
  constructor
  · intro h b hb
    have hout : b ∉ ordered.take n := by
      intro hin
      have hmem := hpart.mem_iff.mp (List.mem_of_mem_take hin)
      exact (List.nodup_append.mp hsplit).2.2 b hmem b hb rfl
    -- the front is full, for there is an element outside of the part
    have hfull : n ≤ ordered.length := by
      have hlen := h.length
      have hpos := List.length_pos_of_mem hb
      rw [List.length_take, hlength] at hlen
      omega
    have hall : (ordered.take n).filter (key · ≤ key b) = ordered.take n := by
      rw [List.filter_eq_self]
      intro a ha
      have hle := h.smallest a ha b (hl.mem_iff.mpr (by simp [hb])) hout
      simpa using hle
    calc n = ((ordered.take n).filter (key · ≤ key b)).length := by
          rw [hall, List.length_take]
          omega
      _ ≤ (ordered.filter (key · ≤ key b)).length :=
          ((List.take_sublist n ordered).filter _).length_le
      _ = (part.filter (key · ≤ key b)).length := (hcount b).symm
  · intro h
    have hordered : ordered.Nodup := hpart.nodup_iff.mpr (List.nodup_append.mp hsplit).1
    constructor
    case length =>
      rw [List.length_take, hlength]
      rcases rest with _ | ⟨b, rest⟩
      · simp
      · have hfew := h b (by simp)
        have hle := List.length_filter_le (key · ≤ key b) part
        rw [← hpart.length_eq] at hle
        omega
    case nodup => exact hordered.sublist (List.take_sublist n ordered)
    case mem =>
      intro a ha
      have hmem := hpart.mem_iff.mp (List.mem_of_mem_take ha)
      exact hl.mem_iff.mpr (by simp [hmem])
    case sorted => exact hsorted.sublist (List.take_sublist n ordered)
    case smallest =>
      intro a ha b hb hout
      rcases List.mem_append.mp (hl.mem_iff.mp hb) with hin | hin
      · have hmem := hpart.mem_iff.mpr hin
        rw [← List.take_append_drop n ordered, List.mem_append] at hmem
        exact key_take_le_drop hsorted ha (hmem.resolve_left hout)
      · have hfew := h b hin
        rw [hcount b] at hfew
        exact key_take_le hsorted hfew ha

end KeyedOrder

end XChain
