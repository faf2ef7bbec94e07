import Mathlib.Algebra.BigOperators.Group.List.Basic
import Mathlib.Algebra.Ring.Int.Defs
import Mathlib.Data.BitVec
import Mathlib.Data.List.Basic
import Mathlib.Order.RelClasses
import Mathlib.Tactic.Abel

/-!
# Weights of keys

Weights are added up key by key in a list that is ordered by its keys. A sum over the keys is
the sum over all that was added. Sums of words are exact where the sums of the numbers fit.
-/
namespace XChain

section KeyTally

variable {κ R : Type*} [Semiring R]

/-- The sum of a value of the keys by their weights. -/
def weighted (g : κ → R) (l : List (κ × R)) : R := (l.map fun x => g x.1 * x.2).sum

@[simp] theorem weighted_nil (g : κ → R) : weighted g [] = 0 := by simp [weighted]

@[simp] theorem weighted_cons (g : κ → R) (x : κ × R) (l : List (κ × R)) :
    weighted g (x :: l) = g x.1 * x.2 + weighted g l := by simp [weighted]

variable [DecidableEq κ]

/-- The weight of a key, zero if there is none. -/
def weightAt (l : List (κ × R)) (k : κ) : R := (l.lookup k).getD 0

theorem weightAt_cons (x : κ × R) (l : List (κ × R)) (j : κ) :
    weightAt (x :: l) j = if j = x.1 then x.2 else weightAt l j := by
  obtain ⟨i, w⟩ := x
  by_cases hj : j = i
  · simp [weightAt, hj]
  · have hne : (j == i) = false := by simpa using hj
    simp [weightAt, List.lookup_cons, hj, hne]

variable [LT κ]

/-- The keys stand in their order. -/
def Ordered (l : List (κ × R)) : Prop := l.Pairwise fun x y => x.1 < y.1

theorem weightAt_eq_zero [Std.Irrefl (α := κ) (· < ·)] {k : κ} {l : List (κ × R)}
    (h : ∀ y ∈ l, k < y.1) : weightAt l k = 0 := by
  induction l with
  | nil => simp [weightAt]
  | cons x l ih =>
    have hne : k ≠ x.1 := by
      intro heq
      have hlt := h x List.mem_cons_self
      rw [heq] at hlt
      exact irrefl_of (· < ·) x.1 hlt
    rw [weightAt_cons, if_neg hne]
    exact ih fun y hy => h y (List.mem_cons_of_mem x hy)

variable [DecidableLT κ]

/-- Adds to the weight of a key. -/
def addWeight (k : κ) (w : R) : List (κ × R) → List (κ × R)
  | [] => [(k, w)]
  | (q, v) :: l =>
    if k < q then (k, w) :: (q, v) :: l
    else if k = q then (q, v + w) :: l
    else (q, v) :: addWeight k w l

/-- Adds one weight after another. -/
def tally (added l : List (κ × R)) : List (κ × R) := added.foldl (fun l x => addWeight x.1 x.2 l) l

variable {k : κ} {w : R} {l : List (κ × R)}

theorem weighted_addWeight (g : κ → R) : weighted g (addWeight k w l) = weighted g l + g k * w := by
  induction l with
  | nil => simp [addWeight]
  | cons x l ih =>
    obtain ⟨q, v⟩ := x
    by_cases hlt : k < q
    · simp [addWeight, hlt, add_comm]
    · by_cases heq : k = q
      · have hsum : weighted g (addWeight k w ((q, v) :: l)) = g q * (v + w) + weighted g l := by
          rw [addWeight, if_neg hlt, if_pos heq, weighted_cons]
        rw [hsum, weighted_cons, heq, mul_add]
        abel
      · simp [addWeight, heq, hlt, ih, add_assoc]

theorem weighted_tally (g : κ → R) (added : List (κ × R)) :
    weighted g (tally added l) = weighted g l + weighted g added := by
  induction added generalizing l with
  | nil => simp [tally]
  | cons x added ih =>
    have hstep : tally (x :: added) l = tally added (addWeight x.1 x.2 l) := rfl
    rw [hstep, ih, weighted_addWeight, weighted_cons, add_assoc]

section Ordered

theorem mem_addWeight {x : κ × R} (h : x ∈ addWeight k w l) : x.1 = k ∨ ∃ y ∈ l, y.1 = x.1 := by
  induction l with
  | nil => simp_all [addWeight]
  | cons y l ih =>
    obtain ⟨q, v⟩ := y
    rw [addWeight] at h
    split_ifs at h with hlt heq
    · rcases List.mem_cons.mp h with rfl | hold
      · exact Or.inl rfl
      · exact Or.inr ⟨x, hold, rfl⟩
    · rcases List.mem_cons.mp h with rfl | hold
      · exact Or.inl heq.symm
      · exact Or.inr ⟨x, List.mem_cons_of_mem _ hold, rfl⟩
    · rcases List.mem_cons.mp h with rfl | hnew
      · exact Or.inr ⟨_, List.mem_cons_self, rfl⟩
      · obtain hk | ⟨y, hy, hkey⟩ := ih hnew
        · exact Or.inl hk
        · exact Or.inr ⟨y, List.mem_cons_of_mem _ hy, hkey⟩

variable [IsStrictTotalOrder κ (· < ·)]

theorem Ordered.addWeight (h : Ordered l) : Ordered (addWeight k w l) := by
  induction l with
  | nil => simp [XChain.addWeight, Ordered]
  | cons x l ih =>
    obtain ⟨q, v⟩ := x
    obtain ⟨hhead, htail⟩ := List.pairwise_cons.mp h
    rw [XChain.addWeight]
    split_ifs with hlt heq
    · apply List.pairwise_cons.mpr
      refine ⟨fun y hy => ?_, h⟩
      rcases List.mem_cons.mp hy with rfl | hy
      · exact hlt
      · exact trans_of (· < ·) hlt (hhead y hy)
    · exact List.pairwise_cons.mpr ⟨hhead, htail⟩
    · apply List.pairwise_cons.mpr
      refine ⟨fun y hy => ?_, ih htail⟩
      obtain hk | ⟨z, hz, hkey⟩ := mem_addWeight hy
      · rw [hk]
        rcases trichotomous_of (· < ·) k q with hcase | hcase | hcase
        · exact absurd hcase hlt
        · exact absurd hcase heq
        · exact hcase
      · rw [← hkey]
        exact hhead z hz

theorem weightAt_addWeight (h : Ordered l) (j : κ) :
    weightAt (addWeight k w l) j = weightAt l j + if k = j then w else 0 := by
  induction l with
  | nil =>
    by_cases hj : j = k
    · simp [XChain.addWeight, weightAt, hj]
    · have hne : k ≠ j := fun heq => hj heq.symm
      simp [XChain.addWeight, weightAt_cons, hj, hne]
  | cons x l ih =>
    obtain ⟨q, v⟩ := x
    obtain ⟨hhead, htail⟩ := List.pairwise_cons.mp h
    by_cases hlt : k < q
    · -- the key was not there
      have hnone : weightAt ((q, v) :: l) k = 0 := by
        apply weightAt_eq_zero
        intro y hy
        rcases List.mem_cons.mp hy with rfl | hy
        · exact hlt
        · exact trans_of (· < ·) hlt (hhead y hy)
      rw [XChain.addWeight, if_pos hlt, weightAt_cons]
      by_cases hj : j = k
      · rw [if_pos hj, if_pos hj.symm, hj, hnone, zero_add]
      · rw [if_neg hj, if_neg fun heq => hj heq.symm, add_zero]
    · by_cases heq : k = q
      · rw [XChain.addWeight, if_neg hlt, if_pos heq, weightAt_cons, weightAt_cons, heq]
        by_cases hj : j = q
        · rw [if_pos hj, if_pos hj, if_pos hj.symm]
        · rw [if_neg hj, if_neg hj, if_neg fun hq => hj hq.symm, add_zero]
      · rw [XChain.addWeight, if_neg hlt, if_neg heq, weightAt_cons, weightAt_cons, ih htail]
        by_cases hj : j = q
        · rw [if_pos hj, if_pos hj, if_neg fun hk => heq (hk.trans hj), add_zero]
        · rw [if_neg hj, if_neg hj]

theorem Ordered.tally (h : Ordered l) (added : List (κ × R)) : Ordered (tally added l) := by
  induction added generalizing l with
  | nil => exact h
  | cons x added ih => exact ih h.addWeight

/-- The weight of a key is the sum of all that was added to it. -/
theorem weightAt_tally (h : Ordered l) (added : List (κ × R)) (j : κ) :
    weightAt (tally added l) j
      = weightAt l j + ((added.filter fun x => x.1 = j).map Prod.snd).sum := by
  induction added generalizing l with
  | nil => simp [XChain.tally]
  | cons x added ih =>
    have hstep : XChain.tally (x :: added) l = XChain.tally added (addWeight x.1 x.2 l) := rfl
    rw [hstep, ih h.addWeight, weightAt_addWeight h]
    by_cases hj : x.1 = j
    · simp [hj, add_assoc]
    · simp [hj]

end Ordered

section Map

variable {S : Type*} [Semiring S]

/-- Adding the images of the weights gives the images of the sums. -/
theorem addWeight_map (f : R →+ S) : addWeight k (f w) (l.map fun x => (x.1, f x.2))
    = (addWeight k w l).map fun x => (x.1, f x.2) := by
  induction l with
  | nil => simp [addWeight]
  | cons x l ih =>
    obtain ⟨q, v⟩ := x
    simp only [List.map_cons, addWeight]
    split_ifs
    · simp
    · simp
    · simp [ih]

theorem tally_map (f : R →+ S) (added : List (κ × R)) :
    tally (added.map fun x => (x.1, f x.2)) (l.map fun x => (x.1, f x.2))
      = (tally added l).map fun x => (x.1, f x.2) := by
  induction added generalizing l with
  | nil => simp [tally]
  | cons x added ih =>
    have hstep : tally (x :: added) l = tally added (addWeight x.1 x.2 l) := rfl
    rw [hstep, ← ih, ← addWeight_map]
    rfl

end Map

end KeyTally

section Wrapped

variable {w : ℕ}

instance isStrictTotalOrder_bitVec : IsStrictTotalOrder (BitVec w) (· < ·) where
  irrefl := BitVec.lt_irrefl
  trans _ _ _ := BitVec.lt_trans
  trichotomous a b hab hba := by
    simp only [BitVec.lt_def] at hab hba
    exact BitVec.eq_of_toNat_eq (by omega)

/-- A word is exact if it is the rest of a number that fits. -/
theorem toNat_of_cast {x : BitVec w} {z : ℤ} (h : x = (z : BitVec w)) (hpos : 0 ≤ z)
    (hlt : z < 2 ^ w) : (x.toNat : ℤ) = z := by
  obtain ⟨n, rfl⟩ := Int.eq_ofNat_of_zero_le hpos
  have hn : n < 2 ^ w := by exact_mod_cast hlt
  rw [h, Int.cast_natCast, BitVec.natCast_eq_ofNat, BitVec.toNat_ofNat, Nat.mod_eq_of_lt hn]

@[simp] theorem intCast_toNat (x : BitVec w) : ((x.toNat : ℤ) : BitVec w) = x := by
  rw [Int.cast_natCast, BitVec.natCast_eq_ofNat, BitVec.ofNat_toNat, BitVec.setWidth_eq]

/-- A sum of words is the rest of the sum of the numbers. -/
theorem weighted_cast {κ : Type*} {g : κ → BitVec w} {G : κ → ℤ}
    (h : ∀ k, g k = (G k : BitVec w)) (l : List (κ × BitVec w)) :
    weighted g l = ((l.map fun x => G x.1 * x.2.toNat).sum : ℤ) := by
  induction l with
  | nil => simp
  | cons x l ih => simp [ih, h]

end Wrapped

end XChain
