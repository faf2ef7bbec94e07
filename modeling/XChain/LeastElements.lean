import Mathlib.Data.Set.Card
import Mathlib.Order.Bounds.Basic

/-!
# Least elements of a set

The least element of a set with a bound in place of it where the set is empty, and the subset of
a given number of least elements. Where a set has a lower part and an upper part, its least
elements are taken from the lower part first.
-/
namespace XChain

variable {T : Type*} [LinearOrder T]

/-- The least element of a set, or `e` where it has none. -/
def LeastOr (s : Set T) (e x : T) : Prop := IsLeast s x ∨ s = ∅ ∧ x = e

theorem LeastOr.unique {s : Set T} {e x y : T} (hx : LeastOr s e x) (hy : LeastOr s e y) :
    x = y := by
  rcases hx with hx | ⟨hempty, rfl⟩
  · rcases hy with hy | ⟨hempty, rfl⟩
    · exact hx.unique hy
    · rw [hempty] at hx
      exact hx.1.elim
  · rcases hy with hy | ⟨-, rfl⟩
    · rw [hempty] at hy
      exact hy.1.elim
    · rfl

/-- The first element of an ascending list. -/
theorem leastOr_headD {l : List T} (hl : l.Pairwise (· < ·)) (e : T) :
    LeastOr {x | x ∈ l} e (l.headD e) := by
  cases l with
  | nil => exact .inr ⟨by simp, rfl⟩
  | cons a l =>
    refine .inl ⟨by simp, fun x hx => ?_⟩
    rcases List.mem_cons.mp hx with rfl | hx
    · exact le_rfl
    · exact (List.rel_of_pairwise_cons hl hx).le

/-- The least element of a range that a set does not have, where the set has all below it. -/
theorem leastOr_gap {s : Set T} {lo b hi : T} (hlo : lo ≤ b) (hhi : b ≤ hi)
    (hin : ∀ y, lo ≤ y → y < b → y ∈ s) (hout : b ∉ s) :
    LeastOr {y | (lo ≤ y ∧ y < hi) ∧ y ∉ s} hi b := by
  rcases hhi.eq_or_lt with rfl | hlt
  · refine .inr ⟨Set.eq_empty_iff_forall_notMem.mpr ?_, rfl⟩
    rintro y ⟨⟨hle, hlt⟩, hy⟩
    exact hy (hin y hle hlt)
  · refine .inl ⟨⟨⟨hlo, hlt⟩, hout⟩, ?_⟩
    rintro y ⟨⟨hle, -⟩, hy⟩
    by_contra hyb
    exact hy (hin y hle (not_le.mp hyb))

/-- The `n` least elements of a set, or all of them if there are fewer. -/
structure Lowest (s : Set T) (n : ℕ) (u : Set T) : Prop where
  subset : u ⊆ s
  count : u.ncard = min n s.ncard
  below : ∀ x ∈ u, ∀ y ∈ s, y ∉ u → x < y

theorem lowest_all {s : Set T} {n : ℕ} (h : s.ncard ≤ n) : Lowest s n s :=
  ⟨Set.Subset.rfl, by omega, fun _ _ _ hy hout => absurd hy hout⟩

theorem lowest_none (s : Set T) : Lowest s 0 ∅ :=
  ⟨Set.empty_subset s, by simp, fun _ hx => hx.elim⟩

section Parts

variable {s t u : Set T} {n : ℕ}

theorem ncard_union_of_lt (h : ∀ x ∈ s, ∀ y ∈ t, x < y) (hs : s.Finite) (ht : t.Finite) :
    (s ∪ t).ncard = s.ncard + t.ncard :=
  Set.ncard_union_eq (Set.disjoint_left.mpr fun x hx hy => (h x hx x hy).false) hs ht

/-- The lower part has elements enough. -/
theorem Lowest.left (h : Lowest s n u) (hst : ∀ x ∈ s, ∀ y ∈ t, x < y) (hfin : (s ∪ t).Finite)
    (hn : n ≤ s.ncard) : Lowest (s ∪ t) n u := by
  have hle : s.ncard ≤ (s ∪ t).ncard := Set.ncard_le_ncard Set.subset_union_left hfin
  refine ⟨h.subset.trans Set.subset_union_left, ?_, fun x hx y hy hout => ?_⟩
  · rw [h.count]
    omega
  · rcases hy with hy | hy
    · exact h.below x hx y hy hout
    · exact hst x (h.subset hx) y hy

/-- All of the lower part is taken, and the rest from the upper part. -/
theorem Lowest.right (h : Lowest t (n - s.ncard) u) (hst : ∀ x ∈ s, ∀ y ∈ t, x < y)
    (hfin : (s ∪ t).Finite) (hn : s.ncard ≤ n) : Lowest (s ∪ t) n (s ∪ u) := by
  have hs : s.Finite := hfin.subset Set.subset_union_left
  have ht : t.Finite := hfin.subset Set.subset_union_right
  have hcount : (s ∪ u).ncard = s.ncard + u.ncard :=
    ncard_union_of_lt (fun x hx y hy => hst x hx y (h.subset hy)) hs (ht.subset h.subset)
  refine ⟨Set.union_subset_union_right s h.subset, ?_, fun x hx y hy hout => ?_⟩
  · rw [hcount, h.count, ncard_union_of_lt hst hs ht]
    omega
  · have hupper : y ∈ t := hy.resolve_left fun hys => hout (.inl hys)
    rcases hx with hx | hx
    · exact hst x hx y hupper
    · exact h.below x hx y hupper fun hyu => hout (.inr hyu)

/-- An element is among the `n` least ones if fewer are below it. -/
theorem Lowest.mem_of_few (h : Lowest s n u) (hfin : s.Finite) {a : T} (ha : a ∈ s)
    (hfew : {y ∈ s | y < a}.ncard < n) : a ∈ u := by
  by_contra hout
  have hbelow : u ⊆ {y ∈ s | y < a} := fun x hx => ⟨h.subset hx, h.below x hx a ha hout⟩
  have hle : u.ncard ≤ {y ∈ s | y < a}.ncard :=
    Set.ncard_le_ncard hbelow (hfin.subset (Set.sep_subset _ _))
  have hcount := h.count
  have hwhole : u = s := Set.eq_of_subset_of_ncard_le h.subset (by omega) hfin
  exact hout (hwhole ▸ ha)

end Parts

end XChain
