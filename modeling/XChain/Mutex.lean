import Mathlib.Algebra.BigOperators.Group.Finset.Basic
import Mathlib.Data.Fintype.Defs
import Mathlib.Logic.Function.Basic

/-!
# Mutual exclusion

Each thread is at a place of its program, and some places lie inside the section that a lock
guards. The lock tells which thread is inside. A thread enters when the lock is free, moves
about inside or outside, and gives the lock back when it leaves. Where each place has a weight,
a move of one thread changes the sum by the difference of two weights.
-/
namespace XChain

section Mutex

variable {Thread Place : Type*} {inside : Place → Prop} {lock : Option Thread}
  {places : Thread → Place} {t t' : Thread} {p : Place}

/-- A thread is inside just when it has the lock. -/
def Excludes (inside : Place → Prop) (lock : Option Thread) (places : Thread → Place) : Prop :=
  ∀ t, inside (places t) ↔ lock = some t

theorem excludes_of_outside (h : ∀ t, ¬ inside (places t)) : Excludes inside none places :=
  fun t => iff_of_false (h t) nofun

theorem Excludes.eq (h : Excludes inside lock places) (ht : inside (places t))
    (ht' : inside (places t')) : t = t' :=
  Option.some.inj (((h t).mp ht).symm.trans ((h t').mp ht'))

variable [DecidableEq Thread]

theorem Excludes.enter (h : Excludes inside none places) (hp : inside p) :
    Excludes inside (some t) (Function.update places t p) := by
  intro t'
  by_cases heq : t' = t
  · rw [heq, Function.update_self]
    exact iff_of_true hp rfl
  · rw [Function.update_of_ne heq]
    refine iff_of_false (fun hin => ?_) fun hsome => heq (Option.some.inj hsome).symm
    cases (h t').mp hin

theorem Excludes.within (h : Excludes inside lock places) (ht : inside (places t))
    (hp : inside p) : Excludes inside lock (Function.update places t p) := by
  intro t'
  by_cases heq : t' = t
  · rw [heq, Function.update_self]
    exact iff_of_true hp ((h t).mp ht)
  · rw [Function.update_of_ne heq]
    exact h t'

theorem Excludes.leave (h : Excludes inside lock places) (ht : inside (places t))
    (hp : ¬ inside p) : Excludes inside none (Function.update places t p) := by
  intro t'
  refine iff_of_false (fun hin => ?_) nofun
  by_cases heq : t' = t
  · rw [heq, Function.update_self] at hin
    exact hp hin
  · rw [Function.update_of_ne heq] at hin
    exact heq (h.eq hin ht)

theorem Excludes.outside (h : Excludes inside lock places) (ht : ¬ inside (places t))
    (hp : ¬ inside p) : Excludes inside lock (Function.update places t p) := by
  intro t'
  by_cases heq : t' = t
  · rw [heq, Function.update_self]
    exact iff_of_false hp ((h t).not.mp ht)
  · rw [Function.update_of_ne heq]
    exact h t'

theorem sum_update_add [Fintype Thread] (weight : Place → ℕ) (places : Thread → Place)
    (t : Thread) (p : Place) :
    ∑ u, weight (Function.update places t p u) + weight (places t) =
      ∑ u, weight (places u) + weight p := by
  have hrest : ∑ u ∈ Finset.univ.erase t, weight (Function.update places t p u) =
      ∑ u ∈ Finset.univ.erase t, weight (places u) := by
    refine Finset.sum_congr rfl fun u hu => ?_
    rw [Function.update_of_ne (Finset.ne_of_mem_erase hu)]
  rw [← Finset.add_sum_erase _ _ (Finset.mem_univ t), hrest, Function.update_self,
    ← Finset.add_sum_erase Finset.univ (fun u => weight (places u)) (Finset.mem_univ t)]
  omega

end Mutex

end XChain
