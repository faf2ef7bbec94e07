import Mathlib.Data.Finset.Sort
import Mathlib.Order.Interval.Finset.Fin
import XChain.LeastElements
import XChain.RangeMaskAlgebra

/-!
# Queries of range masks

Iteration, the number of elements and the elements at the ends, for unsigned elements. All of
them are read off the ranges, and are compared here with the set that the ranges denote. Adding
to an element may pass the greatest number of the element type.
-/
namespace XChain
namespace RangeMask

section Ordered

variable {T : Type*} [LinearOrder T]

/-- The begin of the next range behind `t`, or else `e`. -/
def nextBegin (m : List (T × T)) (t e : T) : T := ((behind m t).head?.map Prod.fst).getD e

/-- The least element that is not below `t`, or else `e`. -/
def firstFrom (m : List (T × T)) (t e : T) : T :=
  match (upTo m t).getLast? with
  | none => nextBegin m t e
  | some (a, b) => if a ≤ t ∧ t < b then t else nextBegin m t e

variable {m : List (T × T)}

theorem leastOr_covered (h : Separated m) (e : T) :
    LeastOr (covered m) e ((m.head?.map Prod.fst).getD e) := by
  cases m with
  | nil => exact .inr ⟨covered_nil, rfl⟩
  | cons r m =>
    have hne := h.nonempty r (by simp)
    refine .inl ⟨⟨r, by simp, le_rfl, hne⟩, fun x hx => ?_⟩
    rw [covered_cons] at hx
    rcases hx with hx | hx
    · exact hx.1
    · exact (hne.trans (h.lt_of_covered hx)).le

theorem firstFrom_eq (r : RangeMask T) (t e : T) : firstFrom r.m_ranges t e =
    if r.contains t then t else nextBegin r.m_ranges t e := by
  unfold firstFrom contains
  cases hlast : (upTo r.m_ranges t).getLast? with
  | none => simp
  | some s =>
    have hle : s.1 ≤ t := le_of_mem_upTo (List.mem_of_getLast? hlast)
    simp [hle]

theorem firstFrom_leastOr {r : RangeMask T} (h : Separated r.m_ranges) (t e : T) :
    LeastOr {x | r.contains x ∧ t ≤ x} e (firstFrom r.m_ranges t e) := by
  rw [firstFrom_eq]
  by_cases ht : r.contains t
  · rw [if_pos ht]
    exact .inl ⟨⟨ht, le_rfl⟩, fun x hx => hx.2⟩
  · -- No range reaches over `t`, so that all elements that are not below are in ranges behind.
    have hsplit : upTo r.m_ranges t ++ behind r.m_ranges t = r.m_ranges := upTo_append_behind
    have hright : Separated (behind r.m_ranges t) := by
      rw [← hsplit] at h
      exact (separated_append.mp h).2.1
    have hset : {x | r.contains x ∧ t ≤ x} = covered (behind r.m_ranges t) := by
      ext x
      rw [Set.mem_ofPred_eq, contains_iff h]
      constructor
      · rintro ⟨⟨s, hs, hle, hlt⟩, htx⟩
        rw [← hsplit] at hs
        rcases List.mem_append.mp hs with hs | hs
        · have hin : t ∈ covered r.m_ranges := by
            refine ⟨s, ?_, le_of_mem_upTo hs, htx.trans_lt hlt⟩
            rw [← hsplit]
            exact List.mem_append_left _ hs
          exact absurd ((contains_iff h t).mpr hin) ht
        · exact ⟨s, hs, hle, hlt⟩
      · rintro ⟨s, hs, hle, hlt⟩
        have hbehind := lt_of_mem_behind h hs
        refine ⟨⟨s, ?_, hle, hlt⟩, (hbehind.trans_le hle).le⟩
        rw [← hsplit]
        exact List.mem_append_right _ hs
    rw [if_neg ht, hset]
    exact leastOr_covered hright e

end Ordered

/-- An unsigned number of `w` bits. -/
abbrev Number (w : ℕ) := Fin (2 ^ w)

/-- As a number of 64 bits. -/
def size_t (n : ℕ) : ℕ := n % 2 ^ 64

section Queries

variable {w : ℕ}

/-- Numbers of at least as many bits as those of the ground range. -/
def numbers (hw : 32 ≤ w) : Elements (Number w) (Number w) where
  ofElement := id
  ofUnsigned := Fin.castLE (Nat.pow_le_pow_right (by decide) hw)
  monotone := (Fin.strictMono_castLE _).monotone
  toElement := Fin.castLE (Nat.pow_le_pow_right (by decide) hw)
  strictMono := strictMono_id
  ofElement_toElement _ := rfl

variable (hw : 32 ≤ w) (r : RangeMask (Number w))

/-- The end of the ground range, at which iteration ends. -/
def groundEnd : Number w := (numbers hw).toElement r.m_all.2

/-- The element that `begin()` is at. -/
def first : Number w :=
  match r.m_ranges with
  | [] => groundEnd hw r
  | (a, _) :: _ => a

/-- The element behind `t`. -/
def next (t : Number w) : Number w := firstFrom r.m_ranges (t + 1) (groundEnd hw r)

/-- The elements from `x` on up to `end()`, if there are fewer than the fuel. -/
def visit : ℕ → Number w → Option (List (Number w))
  | 0, _ => none
  | fuel + 1, x =>
    if x = groundEnd hw r then some [] else (visit fuel (next hw r x)).map (x :: ·)

def size : ℕ := r.m_ranges.foldl (fun c s => size_t (c + size_t (s.2 - s.1).val)) 0

/-- Each range gives as many elements as it has, as long as there are some to be taken. -/
def lowestLoop : List (Number w × Number w) → Number w → List (Number w × Number w) →
    List (Number w × Number w)
  | ret, _, [] => ret
  | ret, items, (a, b) :: m =>
    if items = 0 then ret
    else lowestLoop (put a (min (a + items) b) ret) (items - (min (a + items) b - a)) m

/-- The mask of the `items` least elements. -/
def lowest (items : Number w) : RangeMask (Number w) :=
  { r with m_ranges := lowestLoop [] items r.m_ranges }

def firstOut : ℕ :=
  match r.m_ranges.find? fun s => s.1 = (numbers hw).toElement r.m_all.1 with
  | none => size_t r.m_all.1.val
  | some (_, b) => size_t b.val

def lastIn : ℕ :=
  match r.m_ranges.getLast? with
  | none => size_t r.m_all.1.val
  | some (_, b) => size_t (b - 1).val

end Queries

section Members

variable {T : Type*} [LinearOrder T]

/-- The elements of a mask. -/
def members (r : RangeMask T) : Set T := {x | r.contains x}

/-- The number of elements that are less than `x`. -/
noncomputable def below (r : RangeMask T) (x : T) : ℕ := {y ∈ members r | y < x}.ncard

theorem members_eq {r : RangeMask T} (h : Separated r.m_ranges) :
    members r = covered r.m_ranges :=
  Set.ext fun x => contains_iff h x

end Members

section Bounds

variable {w : ℕ} {hw : 32 ≤ w} {r : RangeMask (Number w)} {m : List (Number w × Number w)}
  {x : Number w}

theorem size_t_of_lt {n : ℕ} (h : n < 2 ^ 64) : size_t n = n := Nat.mod_eq_of_lt h

theorem Represented.lt_groundEnd (h : Represented (numbers hw) r) (hx : r.contains x) :
    x < groundEnd hw r :=
  ((inGround_iff _ x).mp (h.inGround hx)).2

theorem groundEnd_lt : (groundEnd hw r).val < 2 ^ 32 := r.m_all.2.isLt

/-- The element behind one of a mask is a number of the ground range's type. -/
theorem Represented.succ_lt (h : Represented (numbers hw) r) (hx : r.contains x) :
    x.val + 1 < 2 ^ 32 :=
  Nat.lt_of_le_of_lt (Fin.lt_def.mp (h.lt_groundEnd hx)) groundEnd_lt

theorem val_succ {t : Number w} (h : t.val + 1 < 2 ^ w) : (t + 1).val = t.val + 1 := by
  have hone : 1 % 2 ^ w = 1 := Nat.mod_eq_of_lt (by omega)
  rw [Fin.val_add, Fin.val_one', hone, Nat.mod_eq_of_lt h]

theorem succ_le_iff {t : Number w} (h : t.val + 1 < 2 ^ w) : t + 1 ≤ x ↔ t < x := by
  rw [Fin.le_def, Fin.lt_def, val_succ h, Nat.succ_le_iff]

theorem ncard_Ico (a b : Number w) : (Set.Ico a b).ncard = b.val - a.val := by
  rw [← Finset.coe_Ico, Set.ncard_coe_finset, Fin.card_Ico]

end Bounds

section Iteration

variable {w : ℕ} {hw : 32 ≤ w} {r : RangeMask (Number w)}

/-- The element behind one that is not the greatest number. -/
theorem Represented.next (h : Represented (numbers hw) r) {t : Number w}
    (ht : t.val + 1 < 2 ^ w) :
    LeastOr {x ∈ members r | t < x} (groundEnd hw r) (next hw r t) := by
  have hleast := firstFrom_leastOr h.separated (t + 1) (groundEnd hw r)
  simp only [succ_le_iff ht] at hleast
  exact hleast

theorem Represented.first (h : Represented (numbers hw) r) :
    LeastOr (members r) (groundEnd hw r) (first hw r) := by
  have hleast := leastOr_covered h.separated (groundEnd hw r)
  rw [members_eq h.separated, RangeMask.first]
  cases hm : r.m_ranges with
  | nil => simpa [hm] using hleast
  | cons s m => simpa [hm] using hleast

/-- From the first element of an ascending list of the last elements of a mask, iteration goes
through the list. -/
theorem Represented.visit (h : Represented (numbers hw) r) {l : List (Number w)}
    (hl : l.Pairwise (· < ·)) (hin : ∀ x ∈ l, r.contains x)
    (hup : ∀ x ∈ l, ∀ y, r.contains y → x < y → y ∈ l) {fuel : ℕ} (hfuel : l.length < fuel) :
    visit hw r fuel (l.headD (groundEnd hw r)) = some l := by
  induction l generalizing fuel with
  | nil =>
    obtain ⟨fuel, rfl⟩ : ∃ n, fuel = n + 1 := ⟨fuel - 1, by omega⟩
    simp [RangeMask.visit]
  | cons x l ih =>
    rw [List.length_cons] at hfuel
    obtain ⟨fuel, rfl⟩ : ∃ n, fuel = n + 1 := ⟨fuel - 1, by omega⟩
    obtain ⟨hfirst, hrest⟩ := List.pairwise_cons.mp hl
    have hx : r.contains x := hin x (by simp)
    have hsucc : x.val + 1 < 2 ^ w :=
      (h.succ_lt hx).trans_le (Nat.pow_le_pow_right (by decide) hw)
    have hset : {y ∈ members r | x < y} = {y | y ∈ l} := by
      ext y
      constructor
      · rintro ⟨hy, hxy⟩
        exact (List.mem_cons.mp (hup x (by simp) y hy hxy)).resolve_left hxy.ne'
      · intro hy
        exact ⟨hin y (List.mem_cons_of_mem x hy), hfirst y hy⟩
    have hnext : RangeMask.next hw r x = l.headD (groundEnd hw r) := by
      have hleast := h.next hsucc
      rw [hset] at hleast
      exact hleast.unique (leastOr_headD hrest _)
    have hrec := ih hrest (fun y hy => hin y (List.mem_cons_of_mem x hy))
      (fun y hy z hz hyz => ?_) (show l.length < fuel by omega)
    · rw [RangeMask.visit, List.headD_cons, if_neg (h.lt_groundEnd hx).ne, hnext, hrec]
      rfl
    · have hxz : x < z := (hfirst y hy).trans hyz
      exact (List.mem_cons.mp (hup x (by simp) z hz hxz)).resolve_left hxz.ne'

/-- The elements of a mask in ascending order. -/
def elements (r : RangeMask (Number w)) : List (Number w) :=
  (Finset.univ.filter fun x => r.contains x).sort (· ≤ ·)

theorem mem_elements (x : Number w) : x ∈ elements r ↔ r.contains x := by simp [elements]

theorem pairwise_elements : (elements r).Pairwise (· < ·) := Finset.sortedLT_sort _ |>.pairwise

/-- Iteration from `begin()` to `end()`. -/
theorem Represented.visit_first (h : Represented (numbers hw) r) {fuel : ℕ}
    (hfuel : (elements r).length < fuel) :
    RangeMask.visit hw r fuel (RangeMask.first hw r) = some (elements r) := by
  have hfirst : RangeMask.first hw r = (elements r).headD (groundEnd hw r) := by
    have hhead := leastOr_headD (pairwise_elements (r := r)) (groundEnd hw r)
    simp only [mem_elements] at hhead
    exact h.first.unique hhead
  rw [hfirst]
  exact h.visit pairwise_elements (fun x hx => (mem_elements x).mp hx)
    (fun _ _ y hy _ => (mem_elements y).mpr hy) hfuel

end Iteration

section Size

variable {w : ℕ} {hw : 32 ≤ w} {r : RangeMask (Number w)} {m : List (Number w × Number w)}

theorem ncard_covered_cons {s : Number w × Number w} (h : Separated (s :: m)) :
    (covered (s :: m)).ncard = (s.2.val - s.1.val) + (covered m).ncard := by
  rw [covered_cons, ncard_union_of_lt h.Ico_lt_covered (Set.toFinite _) (Set.toFinite _), ncard_Ico]

theorem foldl_size (h : Separated m) (c : ℕ) :
    size_t (m.foldl (fun c s => size_t (c + size_t (s.2 - s.1).val)) c) =
      size_t (c + (covered m).ncard) := by
  induction m generalizing c with
  | nil => simp
  | cons s m ih =>
    obtain ⟨hne, -, hm⟩ := separated_cons.mp h
    have hlen : (s.2 - s.1).val = s.2.val - s.1.val := Fin.sub_val_of_le hne.le
    rw [List.foldl_cons, ih hm, ncard_covered_cons h, hlen]
    simp only [size_t, Nat.mod_add_mod, Nat.add_mod_mod, Nat.add_assoc]

theorem size_lt (m : List (Number w × Number w)) :
    m.foldl (fun c s => size_t (c + size_t (s.2 - s.1).val)) 0 < 2 ^ 64 := by
  cases hm : m.reverse with
  | nil => simp [List.reverse_eq_nil_iff.mp hm]
  | cons s l =>
    have hsplit : m = l.reverse ++ [s] := by simpa using congrArg List.reverse hm
    rw [hsplit, List.foldl_append]
    exact Nat.mod_lt _ (by decide)

/-- There are fewer elements than numbers of the ground range's type. -/
theorem Represented.ncard_members (h : Represented (numbers hw) r) :
    (members r).ncard < 2 ^ 32 := by
  have hsubset : members r ⊆ Set.Ico 0 (groundEnd hw r) :=
    fun x hx => ⟨Fin.zero_le x, h.lt_groundEnd hx⟩
  have hle := Set.ncard_le_ncard hsubset (Set.toFinite _)
  rw [ncard_Ico] at hle
  have hend : (groundEnd hw r).val < 2 ^ 32 := groundEnd_lt
  omega

theorem Represented.size (h : Represented (numbers hw) r) : r.size = (members r).ncard := by
  have hfold := foldl_size h.separated 0
  have hsmall := h.ncard_members
  rw [members_eq h.separated] at hsmall ⊢
  rw [Nat.zero_add, size_t_of_lt (size_lt _), size_t_of_lt (by omega)] at hfold
  exact hfold

end Size

section Lowest

variable {w : ℕ} {m ret : List (Number w × Number w)} {items : Number w}

/-- Each addition of the loop stays in the element type. -/
def Room (m : List (Number w × Number w)) (n : ℕ) : Prop :=
  match m with
  | [] => True
  | (a, b) :: m => (0 < n → a.val + n < 2 ^ w) ∧ Room m (n - (b.val - a.val))

theorem room_zero (m : List (Number w × Number w)) : Room m 0 := by
  induction m with
  | nil => trivial
  | cons s m ih => exact ⟨fun h => absurd h (lt_irrefl 0), by simpa using ih⟩

theorem pos_of_not_room {n : ℕ} (h : ¬Room m n) : 0 < n := by
  by_contra hzero
  apply h
  rw [Nat.eq_zero_of_not_pos hzero]
  exact room_zero m

theorem lowestLoop_zero (ret m : List (Number w × Number w)) : lowestLoop ret 0 m = ret := by
  cases m with
  | nil => rfl
  | cons s m => simp [lowestLoop]

theorem val_add {a n : Number w} (h : a.val + n.val < 2 ^ w) : (a + n).val = a.val + n.val := by
  rw [Fin.val_add, Nat.mod_eq_of_lt h]

/-- A sum that passes the greatest number. -/
theorem add_lt_of_wrap {a n : Number w} (h : ¬a.val + n.val < 2 ^ w) : a + n < a := by
  have hn : n.val < 2 ^ w := n.isLt
  have ha : a.val < 2 ^ w := a.isLt
  have hover : 2 ^ w ≤ a.val + n.val := not_lt.mp h
  rw [Fin.lt_def, Fin.val_add, Nat.mod_eq_sub_mod hover, Nat.mod_eq_of_lt (by omega)]
  omega

/-- A range that is cut where the elements end, or taken as a whole. -/
theorem lowestLoop_cons {a b : Number w} (hab : a < b) (hitems : items ≠ 0)
    (hroom : a.val + items.val < 2 ^ w) (hret : ∀ s ∈ ret, s.1 < a) :
    lowestLoop ret items ((a, b) :: m) =
      if items.val ≤ b.val - a.val then ret ++ [(a, a + items)]
      else lowestLoop (ret ++ [(a, b)]) (items - (b - a)) m := by
  have hsum := val_add hroom
  have hlt := Fin.lt_def.mp hab
  rw [lowestLoop, if_neg hitems, put_last hret]
  by_cases hfew : items.val ≤ b.val - a.val
  · have hle : a + items ≤ b := by
      rw [Fin.le_def, hsum]
      omega
    rw [if_pos hfew, min_eq_left hle, add_sub_cancel_left, sub_self, lowestLoop_zero]
  · have hle : b ≤ a + items := by
      rw [Fin.le_def, hsum]
      omega
    rw [if_neg hfew, min_eq_right hle]

/-- The ranges of a lowest part begin where ranges of the whole begin, and end before these. -/
def Cuts (l m : List (Number w × Number w)) : Prop :=
  Separated l ∧ ∀ s ∈ l, ∃ t ∈ m, s.1 = t.1 ∧ s.2 ≤ t.2

theorem val_sub_length {a b : Number w} (hab : a < b) (h : b.val - a.val < items.val) :
    (items - (b - a)).val = items.val - (b.val - a.val) := by
  have hlen : (b - a).val = b.val - a.val := Fin.sub_val_of_le hab.le
  have hle : b - a ≤ items := by
    rw [Fin.le_def, hlen]
    omega
  rw [Fin.sub_val_of_le hle, hlen]

theorem cuts_nil (m : List (Number w × Number w)) : Cuts [] m := ⟨separated_nil, by simp⟩

theorem cuts_first {a b e : Number w} (hae : a < e) (heb : e ≤ b) : Cuts [(a, e)] ((a, b) :: m) := by
  refine ⟨separated_cons.mpr ⟨hae, by simp, separated_nil⟩, fun s hs => ?_⟩
  simp only [List.mem_singleton] at hs
  rw [hs]
  exact ⟨(a, b), by simp, rfl, heb⟩

theorem Cuts.cons {l : List (Number w × Number w)} {r : Number w × Number w} (h : Cuts l m)
    (hm : Separated (r :: m)) : Cuts (r :: l) (r :: m) := by
  obtain ⟨hne, hgap, -⟩ := separated_cons.mp hm
  refine ⟨separated_cons.mpr ⟨hne, fun s hs => ?_, h.1⟩, fun s hs => ?_⟩
  · obtain ⟨t, ht, hst, -⟩ := h.2 s hs
    rw [hst]
    exact hgap t ht
  · rcases List.mem_cons.mp hs with rfl | hs
    · exact ⟨s, by simp, rfl, le_rfl⟩
    · obtain ⟨t, ht, hst⟩ := h.2 s hs
      exact ⟨t, List.mem_cons_of_mem _ ht, hst⟩

/-- With a range put behind them, the ranges found begin before those that are left. -/
theorem begins_before_rest {r : Number w × Number w} (hm : Separated (r :: m))
    (hret : ∀ s ∈ ret, ∀ t ∈ r :: m, s.1 < t.1) : ∀ s ∈ ret ++ [r], ∀ t ∈ m, s.1 < t.1 := by
  obtain ⟨hne, hgap, -⟩ := separated_cons.mp hm
  intro s hs t ht
  rcases List.mem_append.mp hs with hs | hs
  · exact hret s hs t (List.mem_cons_of_mem _ ht)
  · simp only [List.mem_singleton] at hs
    rw [hs]
    exact hne.trans (hgap t ht)

theorem lowest_Ico {a b : Number w} (hroom : a.val + items.val < 2 ^ w)
    (hfew : items.val ≤ b.val - a.val) (hend : a + items ≤ b) :
    Lowest (Set.Ico a b) items.val (Set.Ico a (a + items)) := by
  refine ⟨Set.Ico_subset_Ico_right hend, ?_, ?_⟩
  · rw [ncard_Ico, ncard_Ico, val_add hroom]
    omega
  · rintro x ⟨-, hx⟩ y ⟨hay, -⟩ hout
    exact hx.trans_le (not_lt.mp fun hy => hout ⟨hay, hy⟩)

/-- Where the additions stay in the type, the loop takes the least elements. -/
theorem lowestLoop_lowest (hm : Separated m) (hret : ∀ s ∈ ret, ∀ t ∈ m, s.1 < t.1)
    (hroom : Room m items.val) :
    ∃ l, lowestLoop ret items m = ret ++ l ∧ Cuts l m ∧
      Lowest (covered m) items.val (covered l) := by
  induction m generalizing ret items with
  | nil =>
    refine ⟨[], by simp [lowestLoop], cuts_nil [], ?_⟩
    simpa using lowest_all (s := (∅ : Set (Number w))) (n := items.val) (by simp)
  | cons s m ih =>
    obtain ⟨a, b⟩ := s
    obtain ⟨hab, -, hm'⟩ := separated_cons.mp hm
    by_cases hitems : items = 0
    · refine ⟨[], by rw [hitems, lowestLoop_zero, List.append_nil], cuts_nil _, ?_⟩
      rw [hitems, covered_nil]
      exact lowest_none _
    · have hpos : 0 < items.val := Nat.pos_of_ne_zero fun h => hitems (Fin.ext h)
      obtain ⟨hadd, hrest⟩ := hroom
      have hsum := val_add (hadd hpos)
      have hret' : ∀ s ∈ ret, s.1 < a := fun s hs => hret s hs (a, b) (by simp)
      have hcount := ncard_Ico a b
      rw [lowestLoop_cons hab hitems (hadd hpos) hret', covered_cons]
      by_cases hfew : items.val ≤ b.val - a.val
      · have haend : a < a + items := by
          rw [Fin.lt_def, hsum]
          omega
        have hend : a + items ≤ b := by
          rw [Fin.le_def, hsum]
          omega
        have hleft := (lowest_Ico (hadd hpos) hfew hend).left hm.Ico_lt_covered (Set.toFinite _)
          (by omega)
        refine ⟨[(a, a + items)], if_pos hfew, cuts_first haend hend, ?_⟩
        simpa using hleft
      · have hleft := val_sub_length hab (not_le.mp hfew)
        rw [← hleft] at hrest
        obtain ⟨l, hloop, hcuts, hlow⟩ := ih hm' (begins_before_rest hm hret) hrest
        refine ⟨(a, b) :: l, ?_, hcuts.cons hm, ?_⟩
        · rw [if_neg hfew, hloop]
          simp
        · rw [covered_cons]
          have hlater : (Set.Ico a b).ncard ≤ items.val := by omega
          apply Lowest.right _ hm.Ico_lt_covered (Set.toFinite _) hlater
          rwa [hcount, ← hleft]

theorem not_contains_last {all : Unsigned × Unsigned} {a e : Number w}
    (hret : ∀ s ∈ ret, s.1 < a) (hea : e ≤ a) :
    ¬(RangeMask.mk all (ret ++ [(a, e)])).contains a := by
  have hall : upTo (ret ++ [(a, e)]) a = ret ++ [(a, e)] := by
    apply List.takeWhile_eq_self_iff.mpr
    intro s hs
    rcases List.mem_append.mp hs with hs | hs
    · simpa using (hret s hs).le
    · simp only [List.mem_singleton] at hs
      simp [hs]
  rw [contains, hall, List.getLast?_concat]
  simpa using hea

/-- What is less than an element behind the first range. -/
theorem ncard_below_cons {s : Number w × Number w} (h : Separated (s :: m)) {x : Number w}
    (hx : s.2 ≤ x) : {y ∈ covered (s :: m) | y < x}.ncard =
      (s.2.val - s.1.val) + {y ∈ covered m | y < x}.ncard := by
  have hparts : {y ∈ covered (s :: m) | y < x} = Set.Ico s.1 s.2 ∪ {y ∈ covered m | y < x} := by
    ext y
    rw [covered_cons]
    constructor
    · rintro ⟨hy | hy, hlt⟩
      · exact .inl hy
      · exact .inr ⟨hy, hlt⟩
    · rintro (hy | ⟨hy, hlt⟩)
      · exact ⟨.inl hy, hy.2.trans_le hx⟩
      · exact ⟨.inr hy, hlt⟩
  have hlater : ∀ z ∈ Set.Ico s.1 s.2, ∀ y ∈ {y ∈ covered m | y < x}, z < y :=
    fun z hz y hy => h.Ico_lt_covered z hz y hy.1
  rw [hparts, ncard_union_of_lt hlater (Set.toFinite _) (Set.toFinite _), ncard_Ico]

theorem ncard_below_first {a b : Number w} (h : Separated ((a, b) :: m)) :
    {y ∈ covered ((a, b) :: m) | y < a}.ncard = 0 := by
  have hab : a < b := h.nonempty (a, b) (by simp)
  rw [Set.ncard_eq_zero (Set.toFinite _), Set.eq_empty_iff_forall_notMem, covered_cons]
  rintro y ⟨hy | hy, hlt⟩
  · exact hy.1.not_gt hlt
  · exact (hab.trans (h.lt_of_covered hy)).not_gt hlt

theorem room_iff (hm : Separated m) {n : ℕ} : Room m n ↔
    ∀ s ∈ m, {y ∈ covered m | y < s.1}.ncard < n →
      s.1.val + (n - {y ∈ covered m | y < s.1}.ncard) < 2 ^ w := by
  induction m generalizing n with
  | nil => simp [Room]
  | cons s m ih =>
    obtain ⟨a, b⟩ := s
    obtain ⟨-, hgap, hm'⟩ := separated_cons.mp hm
    have hbelow : ∀ t ∈ m, {y ∈ covered ((a, b) :: m) | y < t.1}.ncard =
        (b.val - a.val) + {y ∈ covered m | y < t.1}.ncard :=
      fun t ht => ncard_below_cons hm (hgap t ht).le
    rw [Room, ih hm', List.forall_mem_cons, ncard_below_first hm, Nat.sub_zero]
    refine and_congr Iff.rfl (forall₂_congr fun t ht => ?_)
    rw [hbelow t ht, Nat.sub_sub, Nat.lt_sub_iff_add_lt, Nat.add_comm _ (b.val - a.val)]

/-- Where an addition passes the greatest number, the range it is made for is left out, although
fewer elements are below it than are to be taken. -/
theorem lowestLoop_misses (hm : Separated m) (hret : ∀ s ∈ ret, ∀ t ∈ m, s.1 < t.1)
    (hroom : ¬Room m items.val) (all : Unsigned × Unsigned) :
    ∃ a ∈ covered m, {y ∈ covered m | y < a}.ncard < items.val ∧
      ¬(RangeMask.mk all (lowestLoop ret items m)).contains a := by
  induction m generalizing ret items with
  | nil => exact absurd trivial hroom
  | cons s m ih =>
    obtain ⟨a, b⟩ := s
    obtain ⟨(hab : a < b), -, hm'⟩ := separated_cons.mp hm
    have hret' : ∀ s ∈ ret, s.1 < a := fun s hs => hret s hs (a, b) (by simp)
    have hpos := pos_of_not_room hroom
    have hitems : items ≠ 0 := by
      rintro rfl
      exact lt_irrefl 0 hpos
    by_cases hadd : a.val + items.val < 2 ^ w
    · have hrest : ¬Room m (items.val - (b.val - a.val)) := fun hrest =>
        hroom ⟨fun _ => hadd, hrest⟩
      have hmore : b.val - a.val < items.val := Nat.lt_of_sub_pos (pos_of_not_room hrest)
      have hleft := val_sub_length hab hmore
      rw [← hleft] at hrest
      obtain ⟨x, hx, hfew, hout⟩ := ih hm' (begins_before_rest hm hret) hrest
      have hbx : b ≤ x := (hm.lt_of_covered hx).le
      refine ⟨x, ?_, ?_, ?_⟩
      · rw [covered_cons]
        exact .inr hx
      · have hcount : {y ∈ covered ((a, b) :: m) | y < x}.ncard =
            (b.val - a.val) + {y ∈ covered m | y < x}.ncard := ncard_below_cons hm hbx
        rw [hcount]
        omega
      · rwa [lowestLoop_cons hab hitems hadd hret', if_neg (not_le.mpr hmore)]
    · have hwrap := add_lt_of_wrap hadd
      refine ⟨a, ⟨(a, b), by simp, le_rfl, hab⟩, ?_, ?_⟩
      · rwa [ncard_below_first hm]
      · rw [lowestLoop, if_neg hitems, put_last hret', min_eq_left (hwrap.trans hab).le,
          add_sub_cancel_left, sub_self, lowestLoop_zero]
        exact not_contains_last hret' hwrap.le

end Lowest

section Ends

variable {w : ℕ} {hw : 32 ≤ w} {r : RangeMask (Number w)}

theorem size_t_of_number (u : Unsigned) : size_t u.val = ((numbers hw).toElement u).val :=
  size_t_of_lt (u.isLt.trans (by decide))

/-- The least element of the ground range that the mask does not have. -/
theorem Represented.firstOut (h : Represented (numbers hw) r) :
    ∃ x, firstOut hw r = x.val ∧
      LeastOr {y | InGround (numbers hw).toConversions r.m_all y ∧ ¬r.contains y}
        (groundEnd hw r) x := by
  have hordered : (numbers hw).toElement r.m_all.1 ≤ groundEnd hw r :=
    toElement_mono (numbers hw) h.ordered
  have hset : {y | InGround (numbers hw).toConversions r.m_all y ∧ ¬r.contains y} =
      {y | ((numbers hw).toElement r.m_all.1 ≤ y ∧ y < groundEnd hw r) ∧ y ∉ covered r.m_ranges} := by
    ext y
    rw [Set.mem_ofPred_eq, inGround_iff, contains_iff h.separated]
    rfl
  rw [hset]
  unfold RangeMask.firstOut
  cases hfind : r.m_ranges.find? fun s => s.1 = (numbers hw).toElement r.m_all.1 with
  | none =>
    refine ⟨(numbers hw).toElement r.m_all.1, size_t_of_number _,
      leastOr_gap le_rfl hordered (fun y hle hlt => absurd hle hlt.not_ge) ?_⟩
    -- A range over the first element would begin there.
    rintro ⟨s, hs, hle, -⟩
    have hkey : s.1 = (numbers hw).toElement r.m_all.1 := le_antisymm hle (h.within s hs).1
    have hnone := List.find?_eq_none.mp hfind s hs
    simp [hkey] at hnone
  | some s =>
    obtain ⟨a, b⟩ := s
    have hmem := List.mem_of_find?_eq_some hfind
    have hkey : a = (numbers hw).toElement r.m_all.1 := by
      simpa using List.find?_some hfind
    have hab : a < b := h.separated.nonempty (a, b) hmem
    have hend : b ≤ groundEnd hw r := (h.within (a, b) hmem).2
    have hsize : size_t b.val = b.val := by
      have hlt : (groundEnd hw r).val < 2 ^ 32 := groundEnd_lt
      exact size_t_of_lt (by
        rw [Fin.le_def] at hend
        omega)
    rw [← hkey]
    exact ⟨b, hsize, leastOr_gap hab.le hend (fun y hay hyb => ⟨(a, b), hmem, hay, hyb⟩)
      (h.separated.end_not_covered hmem)⟩

theorem val_pred (hw : 32 ≤ w) {b : Number w} (h : 0 < b.val) : (b - 1).val = b.val - 1 := by
  have hone : (1 : Number w).val = 1 := by
    rw [Fin.val_one', Nat.mod_eq_of_lt (Nat.one_lt_two_pow (by omega))]
  have hle : 1 ≤ b := by
    rw [Fin.le_def, hone]
    exact h
  rw [Fin.sub_val_of_le hle, hone]

/-- The greatest element of a mask that is not empty. -/
theorem Represented.lastIn (h : Represented (numbers hw) r) (hne : (members r).Nonempty) :
    ∃ x, r.lastIn = x.val ∧ IsGreatest (members r) x := by
  obtain ⟨y, hy⟩ := hne
  rw [members_eq h.separated] at hy ⊢
  unfold RangeMask.lastIn
  cases hlast : r.m_ranges.getLast? with
  | none =>
    rw [List.getLast?_eq_none_iff.mp hlast, covered_nil] at hy
    exact hy.elim
  | some s =>
    obtain ⟨a, b⟩ := s
    obtain ⟨pre, hpre⟩ := List.getLast?_eq_some_iff.mp hlast
    have hmem : (a, b) ∈ r.m_ranges := by simp [hpre]
    have hab : a < b := h.separated.nonempty (a, b) hmem
    have hends : ∀ s ∈ r.m_ranges, s.2 ≤ b := by
      have hsep := h.separated
      rw [hpre] at hsep ⊢
      exact hsep.ends_le
    have hend : b.val < 2 ^ 32 :=
      lt_of_le_of_lt (Fin.le_def.mp (h.within (a, b) hmem).2) groundEnd_lt
    have hlt := Fin.lt_def.mp hab
    have hval : (b - 1).val = b.val - 1 := val_pred hw (by omega)
    refine ⟨b - 1, size_t_of_lt (by omega), ⟨(a, b), hmem, ?_, ?_⟩, ?_⟩
    · rw [Fin.le_def, hval]
      exact Nat.le_sub_one_of_lt hlt
    · rw [Fin.lt_def, hval]
      show b.val - 1 < b.val
      omega
    · rintro x ⟨s, hs, -, hx⟩
      have hxb := Fin.lt_def.mp (hx.trans_le (hends s hs))
      rw [Fin.le_def, hval]
      exact Nat.le_sub_one_of_lt hxb

end Ends

section Agreement

variable {w : ℕ}

/-- What the queries say of a mask is what its set of elements has. -/
structure Agrees (hw : 32 ≤ w) (r : RangeMask (Number w)) (n t : Number w) : Prop where
  iteration : ∃ l, (∀ fuel, l.length < fuel → visit hw r fuel (first hw r) = some l) ∧
    l.Pairwise (· < ·) ∧ ∀ x, x ∈ l ↔ r.contains x
  size : r.size = (members r).ncard
  lowest : Represented (numbers hw) (lowest r n) ∧ (lowest r n).m_all = r.m_all ∧
    Lowest (members r) n.val (members (lowest r n))
  firstOut : ∃ x, firstOut hw r = x.val ∧
    LeastOr {y | InGround (numbers hw).toConversions r.m_all y ∧ ¬r.contains y}
      (groundEnd hw r) x
  lastIn : (members r).Nonempty → ∃ x, r.lastIn = x.val ∧ IsGreatest (members r) x
  next : LeastOr {x ∈ members r | t < x} (groundEnd hw r) (next hw r t)

variable {hw : 32 ≤ w} {r : RangeMask (Number w)}

theorem Represented.room_iff (h : Represented (numbers hw) r) (n : ℕ) :
    Room r.m_ranges n ↔ ∀ s ∈ r.m_ranges, below r s.1 < n →
      s.1.val + (n - below r s.1) < 2 ^ w := by
  rw [RangeMask.room_iff h.separated]
  simp only [below, members_eq h.separated]

theorem Represented.lowest (h : Represented (numbers hw) r) {n : Number w}
    (hroom : Room r.m_ranges n.val) : Represented (numbers hw) (lowest r n) ∧
      Lowest (members r) n.val (members (lowest r n)) := by
  have hnone : ∀ s ∈ ([] : List (Number w × Number w)), ∀ t ∈ r.m_ranges, s.1 < t.1 := by simp
  obtain ⟨l, hloop, ⟨hl, hcuts⟩, hlow⟩ := lowestLoop_lowest h.separated hnone hroom
  have hranges : (RangeMask.lowest r n).m_ranges = l := hloop
  have hsep : Separated (RangeMask.lowest r n).m_ranges := by rwa [hranges]
  refine ⟨⟨⟨hsep, fun x hx => ?_⟩, h.ordered⟩, ?_⟩
  · rw [hranges] at hx
    exact h.inside x (hlow.subset hx)
  · rwa [members_eq h.separated, members_eq hsep, hranges]

theorem Represented.lowest_misses (h : Represented (numbers hw) r) {n : Number w}
    (hroom : ¬Room r.m_ranges n.val) :
    ¬Lowest (members r) n.val (members (RangeMask.lowest r n)) := by
  have hnone : ∀ s ∈ ([] : List (Number w × Number w)), ∀ t ∈ r.m_ranges, s.1 < t.1 := by simp
  obtain ⟨a, ha, hfew, hout⟩ := lowestLoop_misses h.separated hnone hroom r.m_all
  intro hlow
  rw [members_eq h.separated] at hlow
  exact hout (hlow.mem_of_few (Set.toFinite _) ha hfew)

theorem succ_greatest (hw : 32 ≤ w) {t : Number w} (ht : ¬t.val + 1 < 2 ^ w) : t + 1 = 0 := by
  have htop : t.val + 1 = 2 ^ w := by omega
  have hwide : 1 < 2 ^ w := Nat.one_lt_two_pow (by omega)
  apply Fin.ext
  rw [Fin.val_add, Fin.val_one', Nat.mod_eq_of_lt hwide, htop, Nat.mod_self]
  rfl

/-- Behind the greatest number comes zero, and so the first element of the mask. -/
theorem Represented.next_wraps (h : Represented (numbers hw) r) {t : Number w}
    (ht : ¬t.val + 1 < 2 ^ w) (hne : r.m_ranges ≠ []) :
    ¬LeastOr {x ∈ members r | t < x} (groundEnd hw r) (RangeMask.next hw r t) := by
  have hzero : t + 1 = 0 := succ_greatest hw ht
  have hfirst := firstFrom_leastOr h.separated (t + 1) (groundEnd hw r)
  obtain ⟨s, m, hm⟩ := List.exists_cons_of_ne_nil hne
  have hs : r.contains s.1 := by
    rw [contains_iff h.separated]
    have hmem : s ∈ r.m_ranges := by simp [hm]
    exact ⟨s, hmem, le_rfl, h.separated.nonempty s hmem⟩
  intro hleast
  have hnone : {x ∈ members r | t < x} = ∅ := by
    ext x
    simp only [Set.mem_empty_iff_false, iff_false]
    rintro ⟨-, hx⟩
    have hlt := Fin.lt_def.mp hx
    have hxlt := x.isLt
    omega
  rw [hnone] at hleast
  have hend : RangeMask.next hw r t = groundEnd hw r := by
    rcases hleast with hleast | ⟨-, hend⟩
    · exact hleast.1.elim
    · exact hend
  rcases hfirst with hfirst | ⟨hempty, -⟩
  · have hlt := h.lt_groundEnd hfirst.1.1
    have hsame : firstFrom r.m_ranges (t + 1) (groundEnd hw r) = groundEnd hw r := hend
    exact hlt.ne hsame
  · have hin : s.1 ∈ {x | r.contains x ∧ t + 1 ≤ x} := ⟨hs, by rw [hzero]; exact Fin.zero_le _⟩
    rw [hempty] at hin
    exact hin.elim

/-- The queries agree with the set as long as no addition passes the greatest number: where the
element behind the greatest number is asked for in a mask that is not empty, or where a range
with fewer than `n` elements below is too high for the elements that are still to be taken. -/
theorem agrees_iff (h : Represented (numbers hw) r) (n t : Number w) : Agrees hw r n t ↔
    (t.val + 1 < 2 ^ w ∨ r.m_ranges = []) ∧
      ∀ s ∈ r.m_ranges, below r s.1 < n.val → s.1.val + (n.val - below r s.1) < 2 ^ w := by
  rw [← h.room_iff]
  constructor
  · intro hagrees
    constructor
    · by_contra hout
      push Not at hout
      exact h.next_wraps (not_lt.mpr hout.1) hout.2 hagrees.next
    · by_contra hroom
      exact h.lowest_misses hroom hagrees.lowest.2.2
  · rintro ⟨ht, hroom⟩
    obtain ⟨hlowest, hlow⟩ := h.lowest hroom
    refine ⟨⟨elements r, fun fuel hfuel => h.visit_first hfuel, pairwise_elements, mem_elements⟩,
      h.size, ⟨hlowest, rfl, hlow⟩, h.firstOut, h.lastIn, ?_⟩
    rcases ht with ht | hempty
    · exact h.next ht
    · have hnone : members r = ∅ := by
        rw [members_eq h.separated, hempty, covered_nil]
      refine .inr ⟨by rw [hnone]; simp, ?_⟩
      simp [RangeMask.next, firstFrom, nextBegin, upTo, behind, hempty]

attribute [local instance] neZero_unsigned

def fiveToTen : RangeMask (Number 32) := ⟨(0, 20), [(5, 10)]⟩

theorem represented_fiveToTen : Represented (numbers le_rfl) fiveToTen where
  separated := ⟨by simp [fiveToTen], by simp [fiveToTen]⟩
  inside := by
    rintro x ⟨s, hs, hle, hlt⟩
    simp only [fiveToTen, List.mem_singleton] at hs
    subst hs
    apply (inGround_iff _ x).mpr
    exact ⟨hle.trans' (by decide), hlt.trans_le (by decide)⟩
  ordered := by decide

theorem agrees_three : Agrees le_rfl fiveToTen 3 7 := by
  refine (agrees_iff represented_fiveToTen 3 7).mpr ⟨.inl (by decide), fun s hs _ => ?_⟩
  simp only [fiveToTen, List.mem_singleton] at hs
  have hten : s.1.val = 5 := by rw [hs]; rfl
  have hthree : (3 : Number 32).val = 3 := rfl
  omega

/-- Of the greatest number of least elements nothing is left. -/
theorem not_agrees_greatest : ¬Agrees le_rfl fiveToTen 4294967295 7 := by
  intro h
  have hnone : {y ∈ members fiveToTen | y < 5} = ∅ := by
    rw [members_eq represented_fiveToTen.separated]
    ext y
    simp only [Set.mem_empty_iff_false, iff_false]
    rintro ⟨⟨s, hs, hle, -⟩, hlt⟩
    simp only [fiveToTen, List.mem_singleton] at hs
    subst hs
    exact hle.not_gt hlt
  have hfive : (5 : Number 32) ∈ members fiveToTen := by
    show fiveToTen.contains 5
    decide
  have hin := h.lowest.2.2.mem_of_few (Set.toFinite _) hfive (by
    rw [hnone, Set.ncard_empty]
    decide)
  have hout : ¬(RangeMask.lowest fiveToTen 4294967295).contains 5 := by decide
  exact hout hin

end Agreement

end RangeMask
end XChain
