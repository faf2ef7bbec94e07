import Mathlib.Order.Interval.Set.LinearOrder

/-!
# Separated ranges

Sets of a linear order as lists of half-open ranges. The ranges of a list are separated if none
is empty and there is a gap between any two that follow each other; then a range can be put
between the ranges that end before it and those that begin behind it.
-/
namespace XChain

variable {T : Type*} [LinearOrder T]

/-- The elements of the ranges. -/
def covered (l : List (T × T)) : Set T := {x | ∃ r ∈ l, x ∈ Set.Ico r.1 r.2}

@[simp] theorem covered_nil : covered ([] : List (T × T)) = ∅ := by
  simp [covered]

@[simp] theorem covered_cons (r : T × T) (l : List (T × T)) :
    covered (r :: l) = Set.Ico r.1 r.2 ∪ covered l := by
  ext x
  simp [covered]

@[simp] theorem covered_append (l l' : List (T × T)) :
    covered (l ++ l') = covered l ∪ covered l' := by
  induction l with
  | nil => simp
  | cons r l ih => simp [ih, Set.union_assoc]

/-- Ranges that are not empty, in order and with a gap behind each. -/
structure Separated (l : List (T × T)) : Prop where
  nonempty : ∀ r ∈ l, r.1 < r.2
  gaps : l.Pairwise fun r s => r.2 < s.1

theorem separated_nil : Separated ([] : List (T × T)) := ⟨by simp, by simp⟩

theorem separated_append {l l' : List (T × T)} :
    Separated (l ++ l') ↔ Separated l ∧ Separated l' ∧ ∀ r ∈ l, ∀ s ∈ l', r.2 < s.1 := by
  constructor
  · intro h
    obtain ⟨hl, hl', hgap⟩ := List.pairwise_append.mp h.gaps
    refine ⟨⟨fun r hr => h.nonempty r ?_, hl⟩, ⟨fun r hr => h.nonempty r ?_, hl'⟩, hgap⟩
    · simp [hr]
    · simp [hr]
  · rintro ⟨h, h', hgap⟩
    refine ⟨fun r hr => ?_, List.pairwise_append.mpr ⟨h.gaps, h'.gaps, hgap⟩⟩
    rcases List.mem_append.mp hr with hr | hr
    · exact h.nonempty r hr
    · exact h'.nonempty r hr

theorem separated_cons {r : T × T} {l : List (T × T)} :
    Separated (r :: l) ↔ r.1 < r.2 ∧ (∀ s ∈ l, r.2 < s.1) ∧ Separated l := by
  have hsingle : Separated [r] ↔ r.1 < r.2 := by
    constructor
    · intro h
      exact h.nonempty r (by simp)
    · intro h
      exact ⟨by simpa using h, by simp⟩
  have happend : Separated ([r] ++ l) ↔ Separated [r] ∧ Separated l ∧
      ∀ s ∈ [r], ∀ t ∈ l, s.2 < t.1 := separated_append
  rw [hsingle] at happend
  simp only [List.singleton_append, List.mem_singleton, forall_eq] at happend
  rw [happend]
  tauto

/-- What the later ranges cover is behind the first one. -/
theorem Separated.lt_of_covered {r : T × T} {l : List (T × T)} (h : Separated (r :: l)) {x : T}
    (hx : x ∈ covered l) : r.2 < x := by
  obtain ⟨s, hs, hle, -⟩ := hx
  exact ((separated_cons.mp h).2.1 s hs).trans_le hle

theorem Separated.Ico_lt_covered {r : T × T} {l : List (T × T)} (h : Separated (r :: l)) :
    ∀ x ∈ Set.Ico r.1 r.2, ∀ y ∈ covered l, x < y :=
  fun _ hx _ hy => hx.2.trans (h.lt_of_covered hy)

/-- The end of a range is not covered. -/
theorem Separated.end_not_covered {l : List (T × T)} (h : Separated l) {a b : T}
    (hab : (a, b) ∈ l) : b ∉ covered l := by
  obtain ⟨pre, rest, rfl⟩ := List.append_of_mem hab
  obtain ⟨-, hcons, hbefore⟩ := separated_append.mp h
  rw [covered_append, covered_cons]
  rintro (⟨s, hs, -, hlt⟩ | ⟨-, hlt⟩ | hbehind)
  · have hend : s.2 < a := hbefore s hs (a, b) (by simp)
    have hne : a < b := hcons.nonempty (a, b) (by simp)
    exact (hend.trans hne).not_gt hlt
  · exact lt_irrefl b hlt
  · exact lt_irrefl b (hcons.lt_of_covered hbehind)

section Put

variable {l l' : List (T × T)} {lo hi : T}

/-- A range behind those that end before it and in front of those that begin behind it. -/
theorem Separated.put (h : Separated l) (h' : Separated l') (hlo : ∀ r ∈ l, r.2 < lo)
    (hne : lo < hi) (hhi : ∀ s ∈ l', hi < s.1) : Separated (l ++ (lo, hi) :: l') := by
  rw [separated_append, separated_cons]
  refine ⟨h, ⟨hne, hhi, h'⟩, fun r hr s hs => ?_⟩
  have hbefore := hlo r hr
  rcases List.mem_cons.mp hs with rfl | hs
  · exact hbefore
  · exact (hbefore.trans hne).trans (hhi s hs)

/-- Ranges end before any that follows the last of them. -/
theorem Separated.ends_le {c d : T} (h : Separated (l ++ [(c, d)])) :
    ∀ r ∈ l ++ [(c, d)], r.2 ≤ d := by
  intro r hr
  obtain ⟨-, hlast, hgap⟩ := separated_append.mp h
  rcases List.mem_append.mp hr with hr | hr
  · have hc := hgap r hr (c, d) (by simp)
    have hcd := hlast.nonempty (c, d) (by simp)
    exact (hc.trans hcd).le
  · simp only [List.mem_singleton] at hr
    rw [hr]

end Put

/-- What a range of the list covers need not be added. -/
theorem covered_union_Ico {l : List (T × T)} {c d i e : T} (h : (c, d) ∈ l) (hci : c ≤ i)
    (hid : i ≤ d) : covered l ∪ Set.Ico d e = covered l ∪ Set.Ico i e := by
  ext x
  constructor
  · rintro (hx | hx)
    · exact .inl hx
    · exact .inr ⟨hid.trans hx.1, hx.2⟩
  · rintro (hx | hx)
    · exact .inl hx
    · by_cases hd : x < d
      · exact .inl ⟨(c, d), h, hci.trans hx.1, hd⟩
      · exact .inr ⟨not_lt.mp hd, hx.2⟩

/-- Two ranges that meet are one. -/
theorem Ico_union_of_meet {a b i e : T} (hia : i ≤ a) (hae : a ≤ e) (hab : a ≤ b) :
    Set.Ico i b ∪ Set.Ico b e = Set.Ico a b ∪ Set.Ico i e := by
  ext x
  simp only [Set.mem_union, Set.mem_Ico]
  constructor
  · rintro (⟨h1, h2⟩ | ⟨h1, h2⟩)
    · by_cases hx : a ≤ x
      · exact .inl ⟨hx, h2⟩
      · exact .inr ⟨h1, (not_le.mp hx).trans_le hae⟩
    · exact .inr ⟨(hia.trans hab).trans h1, h2⟩
  · rintro (⟨h1, h2⟩ | ⟨h1, h2⟩)
    · exact .inl ⟨hia.trans h1, h2⟩
    · by_cases hx : x < b
      · exact .inl ⟨h1, hx⟩
      · exact .inr ⟨not_lt.mp hx, h2⟩

section Gaps

variable {lo hi : T} {l : List (T × T)}

/-- What is left of a range between separated ranges inside of it. -/
def gaps (lo hi : T) : List (T × T) → List (T × T)
  | [] => if lo ≠ hi then [(lo, hi)] else []
  | (a, b) :: l => if a ≠ lo then (lo, a) :: gaps b hi l else gaps b hi l

/-- The ranges lie inside of one. -/
def Within (lo hi : T) (l : List (T × T)) : Prop := ∀ r ∈ l, lo ≤ r.1 ∧ r.2 ≤ hi

theorem within_of_covered (h : Separated l) (hin : covered l ⊆ Set.Ico lo hi) :
    Within lo hi l := by
  intro r hr
  have hne := h.nonempty r hr
  obtain ⟨hlo, hlt⟩ := hin ⟨r, hr, le_rfl, hne⟩
  refine ⟨hlo, ?_⟩
  by_contra hend
  have hbeyond : hi ∈ covered l := ⟨r, hr, hlt.le, not_le.mp hend⟩
  exact lt_irrefl hi (hin hbeyond).2

theorem Within.covered_subset (h : Within lo hi l) : covered l ⊆ Set.Ico lo hi := by
  rintro x ⟨r, hr, hle, hlt⟩
  obtain ⟨hlo, hhi⟩ := h r hr
  exact ⟨hlo.trans hle, hlt.trans_le hhi⟩

/-- Behind the first range, the others lie between its end and that of the whole. -/
theorem Within.tail {a b : T} (hl : Separated ((a, b) :: l)) (h : Within lo hi ((a, b) :: l)) :
    Within b hi l := by
  intro r hr
  obtain ⟨-, hgap, -⟩ := separated_cons.mp hl
  exact ⟨(hgap r hr).le, (h r (List.mem_cons_of_mem _ hr)).2⟩

theorem within_gaps (hl : Separated l) (h : Within lo hi l) (hle : lo ≤ hi) :
    Within lo hi (gaps lo hi l) := by
  induction l generalizing lo with
  | nil =>
    intro r hr
    unfold gaps at hr
    split_ifs at hr with hne
    · simp only [List.mem_singleton] at hr
      rw [hr]
      exact ⟨le_rfl, le_rfl⟩
    · simp at hr
  | cons s l ih =>
    obtain ⟨a, b⟩ := s
    obtain ⟨hab, -, hl'⟩ := separated_cons.mp hl
    obtain ⟨hlo, hbhi⟩ := h (a, b) (by simp)
    have hrec := ih hl' (h.tail hl) hbhi
    have hlater : ∀ r ∈ gaps b hi l, lo ≤ r.1 ∧ r.2 ≤ hi := fun r hr =>
      ⟨(hlo.trans hab.le).trans (hrec r hr).1, (hrec r hr).2⟩
    intro r hr
    unfold gaps at hr
    split_ifs at hr with hne
    · rcases List.mem_cons.mp hr with rfl | hr
      · exact ⟨le_rfl, hab.le.trans hbhi⟩
      · exact hlater r hr
    · exact hlater r hr

theorem separated_gaps (hl : Separated l) (h : Within lo hi l) (hle : lo ≤ hi) :
    Separated (gaps lo hi l) := by
  induction l generalizing lo with
  | nil =>
    unfold gaps
    split_ifs with hne
    · exact separated_cons.mpr ⟨lt_of_le_of_ne hle hne, by simp, separated_nil⟩
    · exact separated_nil
  | cons s l ih =>
    obtain ⟨a, b⟩ := s
    obtain ⟨hab, -, hl'⟩ := separated_cons.mp hl
    obtain ⟨hlo, hbhi⟩ := h (a, b) (by simp)
    have hrec := ih hl' (h.tail hl) hbhi
    have hbehind := within_gaps hl' (h.tail hl) hbhi
    unfold gaps
    split_ifs with hne
    · refine separated_cons.mpr ⟨lt_of_le_of_ne hlo (Ne.symm hne), fun r hr => ?_, hrec⟩
      exact hab.trans_le (hbehind r hr).1
    · exact hrec

/-- The gaps cover what the ranges do not. -/
theorem covered_gaps (hl : Separated l) (h : Within lo hi l) (hle : lo ≤ hi) :
    covered (gaps lo hi l) = Set.Ico lo hi \ covered l := by
  induction l generalizing lo with
  | nil =>
    unfold gaps
    split_ifs with hne
    · simp
    · rw [not_not.mp hne]
      simp
  | cons s l ih =>
    obtain ⟨a, b⟩ := s
    obtain ⟨hab, -, hl'⟩ := separated_cons.mp hl
    obtain ⟨hlo, hbhi⟩ := h (a, b) (by simp)
    have hrec := ih hl' (h.tail hl) hbhi
    have hbehind := (h.tail hl).covered_subset
    have hfirst : covered (gaps lo hi ((a, b) :: l)) =
        Set.Ico lo a ∪ covered (gaps b hi l) := by
      rw [gaps]
      by_cases hne : a = lo
      · simp [hne]
      · simp [hne]
    rw [hfirst, hrec, covered_cons]
    ext x
    simp only [Set.mem_union, Set.mem_sdiff, Set.mem_Ico]
    constructor
    · rintro (⟨hx, hxa⟩ | ⟨⟨hbx, hxhi⟩, hx⟩)
      · refine ⟨⟨hx, (hxa.trans hab).trans_le hbhi⟩, ?_⟩
        rintro (⟨hax, -⟩ | hcov)
        · exact hax.not_gt hxa
        · exact ((hab.trans_le (hbehind hcov).1).trans' hxa).false
      · refine ⟨⟨(hlo.trans hab.le).trans hbx, hxhi⟩, ?_⟩
        rintro (⟨-, hxb⟩ | hcov)
        · exact hbx.not_gt hxb
        · exact hx hcov
    · rintro ⟨⟨hx, hxhi⟩, hout⟩
      by_cases hxa : x < a
      · exact .inl ⟨hx, hxa⟩
      · have hbx : b ≤ x := by
          by_contra hxb
          exact hout (.inl ⟨not_lt.mp hxa, not_le.mp hxb⟩)
        exact .inr ⟨⟨hbx, hxhi⟩, fun hcov => hout (.inr hcov)⟩

end Gaps

end XChain
