import Mathlib.Algebra.Order.Ring.Nat
import Mathlib.Data.List.TakeWhile
import Mathlib.Order.Fin.Basic
import XChain.GuardedRuns
import XChain.SeparatedRanges

/-!
# Range masks

A subset of a ground range as a map from the begin to the end of its ranges. A range is added
from left to right: each turn either puts down what is left of it or swallows the next range of
the map, and goes on behind that one.
-/
namespace XChain
namespace RangeMask

/-- The ground range is held in this type, whatever the type of the elements. -/
abbrev Unsigned := Fin (2 ^ 32)

/-- The type in which elements are compared with the ends of the ground range. -/
structure Conversions (T C : Type*) [LinearOrder C] where
  ofElement : T → C
  ofUnsigned : Unsigned → C
  monotone : Monotone ofUnsigned

/-- Why a call does not end as it should. -/
inductive Stop where
  | assertion
  | outOfFuel

section Map

variable {T : Type*} [LinearOrder T]

/-- The entries up to a key, and those behind it: `upper_bound` stands between them. -/
def upTo (m : List (T × T)) (i : T) : List (T × T) := m.takeWhile fun r => r.1 ≤ i

def behind (m : List (T × T)) (i : T) : List (T × T) := m.dropWhile fun r => r.1 ≤ i

/-- Sets the value of a key, which is added if it is not there. -/
def put (k v : T) : List (T × T) → List (T × T)
  | [] => [(k, v)]
  | (q, w) :: m =>
    if k < q then (k, v) :: (q, w) :: m
    else if k = q then (q, v) :: m
    else (q, w) :: put k v m

def erase (k : T) (m : List (T × T)) : List (T × T) := m.filter fun r => r.1 ≠ k

/-- A turn of the loop ends it, or goes on from a later element. -/
inductive Turn (T : Type*) where
  | stop (m : List (T × T))
  | again (m : List (T × T)) (i : T)

/-- No range before `i` reaches it. -/
def separate (m : List (T × T)) (i second : T) : Turn T :=
  match (behind m i).head? with
  | none => .stop (put i second m)
  | some (a, b) =>
    if second < a then .stop (put i second m)
    else if a = i then .again m b
    else .again (erase a (put i b m)) b

/-- The range that begins at `c` ends at `i`. -/
def extend (m : List (T × T)) (c i second : T) : Turn T :=
  match (behind m i).head? with
  | none => .stop (put c second m)
  | some (a, b) =>
    if second < a then .stop (put c second m)
    else .again (erase a (put c b m)) b

def turn (m : List (T × T)) (i second : T) : Turn T :=
  match (upTo m i).getLast? with
  | none => separate m i second
  | some (c, d) =>
    if d < i then separate m i second
    else if d = i then extend m c i second
    else .again m d

end Map

section Mask

variable {T C : Type*} [LinearOrder T] [LinearOrder C] (conv : Conversions T C)

/-- An element lies in a ground range. -/
def InGround (all : Unsigned × Unsigned) (x : T) : Prop :=
  conv.ofUnsigned all.1 ≤ conv.ofElement x ∧ conv.ofElement x < conv.ofUnsigned all.2

instance (all : Unsigned × Unsigned) (x : T) : Decidable (InGround conv all x) :=
  inferInstanceAs (Decidable (_ ∧ _))

/-- The loop over a range, which asserts in each turn that it is inside of the ground range. -/
def loop (all : Unsigned × Unsigned) : ℕ → List (T × T) → T → T → Except Stop (List (T × T))
  | fuel, m, i, second =>
    if i < second then
      if InGround conv all i then
        match fuel with
        | 0 => .error .outOfFuel
        | fuel + 1 =>
          match turn m i second with
          | .stop m' => .ok m'
          | .again m' j => loop all fuel m' j second
      else .error .assertion
    else .ok m

end Mask

end RangeMask

/-- A set of elements of a ground range. -/
structure RangeMask (T : Type*) where
  m_all : RangeMask.Unsigned × RangeMask.Unsigned
  m_ranges : List (T × T)

namespace RangeMask

variable {T C : Type*} [LinearOrder T] [LinearOrder C]

section Operations

variable (conv : Conversions T C) (r : RangeMask T)

/-- Adds a range. Every turn but the last one passes a range of the mask. -/
def unionWithRange (x : T × T) : Except Stop (RangeMask T) :=
  match loop conv r.m_all (r.m_ranges.length + 1) r.m_ranges x.1 x.2 with
  | .ok m => .ok { r with m_ranges := m }
  | .error e => .error e

/-- Adds ranges one after the other. -/
def unionWithRanges (r : RangeMask T) : List (T × T) → Except Stop (RangeMask T)
  | [] => .ok r
  | x :: xs =>
    match unionWithRange conv r x with
    | .ok r' => unionWithRanges r' xs
    | .error e => .error e

/-- The smallest ground range around two. -/
def groundUnion (a b : Unsigned × Unsigned) : Unsigned × Unsigned :=
  (min b.1 a.1, max b.2 a.2)

def unionWithMask (o : RangeMask T) : Except Stop (RangeMask T) :=
  unionWithRanges conv { r with m_all := groundUnion r.m_all o.m_all } o.m_ranges

def contains (x : T) : Bool :=
  match (upTo r.m_ranges x).getLast? with
  | none => false
  | some (_, d) => x < d

def empty (all : Unsigned × Unsigned) : RangeMask T := ⟨all, []⟩

end Operations

section Map

variable {m pre rest : List (T × T)} {i k v lo hi : T}

theorem upTo_append_behind : upTo m i ++ behind m i = m := List.takeWhile_append_dropWhile

theorem le_of_mem_upTo {r : T × T} (h : r ∈ upTo m i) : r.1 ≤ i := by
  have hp := List.mem_takeWhile_imp h
  simpa using hp

theorem put_append (h : ∀ r ∈ pre, r.1 < k) : put k v (pre ++ rest) = pre ++ put k v rest := by
  induction pre with
  | nil => simp
  | cons r pre ih =>
    have hlt : r.1 < k := h r (by simp)
    have hne : k ≠ r.1 := hlt.ne'
    simp [put, hlt.not_gt, hne, ih fun s hs => h s (List.mem_cons_of_mem r hs)]

theorem put_cons_of_lt (h : ∀ r ∈ rest, k < r.1) : put k v rest = (k, v) :: rest := by
  cases rest with
  | nil => simp [put]
  | cons r rest =>
    have hlt : k < r.1 := h r (by simp)
    simp [put, hlt]

theorem put_cons_self {w : T} : put k v ((k, w) :: rest) = (k, v) :: rest := by
  simp [put]

/-- The entry behind a new one is erased. -/
theorem erase_next {w : T} (hpre : ∀ r ∈ pre, r.1 < k) (hlo : lo < k) (hrest : ∀ r ∈ rest, k < r.1) :
    erase k (pre ++ (lo, hi) :: (k, w) :: rest) = pre ++ (lo, hi) :: rest := by
  have hkeep : pre.filter (fun r => r.1 ≠ k) = pre := by
    apply List.filter_eq_self.mpr
    intro r hr
    simpa using (hpre r hr).ne
  have hkeep' : rest.filter (fun r => r.1 ≠ k) = rest := by
    apply List.filter_eq_self.mpr
    intro r hr
    simpa using (hrest r hr).ne'
  simp only [erase, List.filter_append, List.filter_cons, hkeep, hkeep']
  simp [hlo.ne]

end Map

section Separated

variable {m : List (T × T)} {i second : T}

/-- In separated ranges the keys grow. -/
theorem lt_of_mem_behind (h : Separated m) {r : T × T} (hr : r ∈ behind m i) : i < r.1 := by
  induction m with
  | nil => simp [behind] at hr
  | cons s m ih =>
    obtain ⟨hne, hgap, hm⟩ := separated_cons.mp h
    by_cases hs : s.1 ≤ i
    · apply ih hm
      simpa [behind, hs] using hr
    · simp only [behind, List.dropWhile_cons, decide_eq_true_eq, if_neg hs] at hr
      have hlt : i < s.1 := not_le.mp hs
      rcases List.mem_cons.mp hr with rfl | hr
      · exact hlt
      · exact (hlt.trans hne).trans (hgap r hr)

/-- Ranges that end behind an element. -/
def remaining (m : List (T × T)) (i : T) : ℕ := m.countP fun r => i < r.2

/-- What a turn from `i` may do: the rest of the range is added, or all of it up to a later
element, and fewer ranges end behind that one. -/
def Turn.Adds (m : List (T × T)) (i second : T) : Turn T → Prop
  | .stop m' => Separated m' ∧ covered m' = covered m ∪ Set.Ico i second
  | .again m' j => Separated m' ∧ i < j ∧ remaining m' j < remaining m i ∧
      covered m' ∪ Set.Ico j second = covered m ∪ Set.Ico i second

theorem remaining_mono {j : T} (h : i ≤ j) : remaining m j ≤ remaining m i := by
  apply List.countP_mono_left
  intro r _ hr
  simp only [decide_eq_true_eq] at hr ⊢
  exact h.trans_lt hr

@[simp] theorem remaining_append {l : List (T × T)} :
    remaining (m ++ l) i = remaining m i + remaining l i := List.countP_append

theorem remaining_cons {r : T × T} :
    remaining (r :: m) i = remaining m i + if i < r.2 then 1 else 0 := by
  simp [remaining, List.countP_cons]

theorem remaining_le : remaining m i ≤ m.length := List.countP_le_length

theorem remaining_lt {c d : T} (h : (c, d) ∈ m) (hi : i < d) : remaining m d < remaining m i := by
  obtain ⟨l, l', rfl⟩ := List.append_of_mem h
  have hl := remaining_mono (m := l) hi.le
  have hl' := remaining_mono (m := l') hi.le
  simp only [remaining_append, remaining_cons, lt_irrefl, if_false, if_pos hi]
  omega

/-- The last range is put down between its neighbours. -/
theorem stop_adds {pre rest : List (T × T)} {lo : T} (mid : List (T × T)) (hpre : Separated pre)
    (hrest : Separated rest) (hlo : ∀ r ∈ pre, r.2 < lo) (hne : lo < second)
    (hhi : ∀ s ∈ rest, second < s.1) (hm : m = pre ++ mid ++ rest)
    (hmid : Set.Ico lo second = covered mid ∪ Set.Ico i second) :
    Turn.Adds m i second (.stop (pre ++ (lo, second) :: rest)) := by
  refine ⟨hpre.put hrest hlo hne hhi, ?_⟩
  simp only [hm, covered_append, covered_cons, hmid]
  ac_rfl

/-- A range that reaches up to the next one is put in its place. -/
theorem again_adds {pre rest : List (T × T)} {lo a b : T} (mid : List (T × T))
    (hpre : Separated pre) (hrest : Separated ((a, b) :: rest)) (hlo : ∀ r ∈ pre, r.2 < lo)
    (hle : lo ≤ i) (hia : i < a) (has : a ≤ second) (hm : m = pre ++ mid ++ (a, b) :: rest)
    (hmid : Set.Ico lo b = covered mid ∪ Set.Ico i b) :
    Turn.Adds m i second (.again (pre ++ (lo, b) :: rest) b) := by
  obtain ⟨hab, hgap, hrest'⟩ := separated_cons.mp hrest
  have hib : i < b := hia.trans hab
  refine ⟨hpre.put hrest' hlo (hle.trans_lt hib) hgap, hib, ?_, ?_⟩
  · have hpre_le := remaining_mono (m := pre) hib.le
    have hrest_le := remaining_mono (m := rest) hib.le
    simp only [hm, remaining_append, remaining_cons, lt_irrefl, if_false, if_pos hib]
    omega
  · have hmeet := Ico_union_of_meet hia.le has hab.le
    calc covered (pre ++ (lo, b) :: rest) ∪ Set.Ico b second
        = covered pre ∪ covered mid ∪ covered rest ∪ (Set.Ico i b ∪ Set.Ico b second) := by
          simp only [covered_append, covered_cons, hmid]
          ac_rfl
      _ = covered m ∪ Set.Ico i second := by
          rw [hmeet]
          simp only [hm, covered_append, covered_cons]
          ac_rfl

/-- Where the next range begins too late, nothing behind is reached. -/
theorem lt_behind {a b : T} {rest : List (T × T)} (h : Separated ((a, b) :: rest))
    (hhigh : second < a) : ∀ s ∈ (a, b) :: rest, second < s.1 := by
  obtain ⟨hab, hgap, -⟩ := separated_cons.mp h
  intro s hs
  rcases List.mem_cons.mp hs with rfl | hs
  · exact hhigh
  · exact (hhigh.trans hab).trans (hgap s hs)

theorem Separated.keys_lt {lo : T} (h : Separated m) (hlo : ∀ r ∈ m, r.2 < lo) :
    ∀ r ∈ m, r.1 < lo := fun r hr => (h.nonempty r hr).trans (hlo r hr)

/-- A range that begins at `lo`, in place of ranges that reach from there up to `i`, is put down
in front of those that begin behind `i`. -/
theorem reach_adds {pre : List (T × T)} {lo : T} (mid : List (T × T)) (h : Separated m)
    (hi : i < second) (hm : m = pre ++ mid ++ behind m i) (hends : ∀ r ∈ pre, r.2 < lo)
    (hlo : lo ≤ i) (hput : ∀ v, put lo v m = pre ++ (lo, v) :: behind m i)
    (hmid : ∀ v, i ≤ v → Set.Ico lo v = covered mid ∪ Set.Ico i v) :
    (extend m lo i second).Adds m i second := by
  have hsplit := h
  rw [hm] at hsplit
  obtain ⟨hfront, hright, -⟩ := separated_append.mp hsplit
  have hleft := (separated_append.mp hfront).1
  have hkeys := Separated.keys_lt hleft hends
  have hstop (hhi : ∀ s ∈ behind m i, second < s.1) :
      Turn.Adds m i second (.stop (put lo second m)) := by
    rw [hput]
    exact stop_adds mid hleft hright hends (hlo.trans_lt hi) hhi hm (hmid second hi.le)
  unfold extend
  cases hb : behind m i with
  | nil =>
    apply hstop
    simp [hb]
  | cons s rest =>
    obtain ⟨a, b⟩ := s
    have hia : i < a := lt_of_mem_behind h (r := (a, b)) (by simp [hb])
    rw [hb] at hright hm
    simp only [List.head?_cons]
    by_cases hhigh : second < a
    · rw [if_pos hhigh]
      apply hstop
      rw [hb]
      exact lt_behind hright hhigh
    · obtain ⟨hab, hnext, -⟩ := separated_cons.mp hright
      have hla : lo < a := hlo.trans_lt hia
      have herase : erase a (put lo b m) = pre ++ (lo, b) :: rest := by
        rw [hput, hb]
        apply erase_next (fun r hr => (hkeys r hr).trans hla) hla
        exact fun r hr => hab.trans (hnext r hr)
      rw [if_neg hhigh, herase]
      exact again_adds mid hleft hright hends hlo hia (not_lt.mp hhigh) hm
        (hmid b (hia.trans hab).le)

/-- A range of its own begins where it is put down. -/
theorem separate_eq (h : Separated m) : separate m i second = extend m i i second := by
  unfold separate extend
  cases hb : behind m i with
  | nil => rfl
  | cons s rest =>
    have hia : i < s.1 := lt_of_mem_behind h (by simp [hb])
    simp [hia.ne']

theorem separate_adds (h : Separated m) (hi : i < second) (hpre : ∀ r ∈ upTo m i, r.2 < i) :
    (separate m i second).Adds m i second := by
  have hm : m = upTo m i ++ behind m i := upTo_append_behind.symm
  have hleft : Separated (upTo m i) := by
    rw [hm] at h
    exact (separated_append.mp h).1
  rw [separate_eq h]
  apply reach_adds [] h hi (by simpa using hm) hpre le_rfl
  · intro v
    calc put i v m = put i v (upTo m i ++ behind m i) := by rw [← hm]
      _ = upTo m i ++ (i, v) :: behind m i := by
        rw [put_append (Separated.keys_lt hleft hpre),
          put_cons_of_lt fun r hr => lt_of_mem_behind h hr]
  · intro v _
    simp

theorem extend_adds {pre : List (T × T)} {c : T} (h : Separated m) (hi : i < second)
    (hpre : upTo m i = pre ++ [(c, i)]) : (extend m c i second).Adds m i second := by
  have hm : m = pre ++ (c, i) :: behind m i := by
    have hsplit := upTo_append_behind (m := m) (i := i)
    rw [hpre] at hsplit
    simpa using hsplit.symm
  have hsplit := h
  rw [hm] at hsplit
  obtain ⟨hleft, hcons, hgap⟩ := separated_append.mp hsplit
  have hci : c < i := (separated_cons.mp hcons).1
  have hends : ∀ r ∈ pre, r.2 < c := fun r hr => hgap r hr (c, i) (by simp)
  apply reach_adds [(c, i)] h hi (by simpa using hm) hends hci.le
  · intro v
    rw [hm, put_append (Separated.keys_lt hleft hends), put_cons_self, ← hm]
  · intro v hv
    simp [Set.Ico_union_Ico_eq_Ico hci.le hv]

/-- Each turn adds a part of the range. -/
theorem turn_adds (h : Separated m) (hi : i < second) : (turn m i second).Adds m i second := by
  unfold turn
  cases hlast : (upTo m i).getLast? with
  | none =>
    have hnil : upTo m i = [] := List.getLast?_eq_none_iff.mp hlast
    apply separate_adds h hi
    simp [hnil]
  | some r =>
    obtain ⟨c, d⟩ := r
    obtain ⟨pre, hpre⟩ := List.getLast?_eq_some_iff.mp hlast
    have hsplit := upTo_append_behind (m := m) (i := i)
    have hleft : Separated (upTo m i) := by
      rw [← hsplit] at h
      exact (separated_append.mp h).1
    have hends : ∀ r ∈ upTo m i, r.2 ≤ d := by
      rw [hpre] at hleft ⊢
      exact hleft.ends_le
    have hlastmem : (c, d) ∈ upTo m i := by simp [hpre]
    have hci : c ≤ i := le_of_mem_upTo hlastmem
    simp only
    by_cases hd : d < i
    · rw [if_pos hd]
      exact separate_adds h hi fun r hr => (hends r hr).trans_lt hd
    · rw [if_neg hd]
      by_cases hdi : d = i
      · rw [if_pos hdi]
        apply extend_adds h hi
        rw [hpre, hdi]
      · -- The range before `i` goes on behind it, so that `i` up to its end is there already.
        have hid : i < d := lt_of_le_of_ne (not_lt.mp hd) (Ne.symm hdi)
        have hmem : (c, d) ∈ m := by
          rw [← hsplit]
          exact List.mem_append_left _ hlastmem
        rw [if_neg hdi]
        exact ⟨h, hid, remaining_lt hmem hid, covered_union_Ico hmem hci hid.le⟩

end Separated

section Runs

variable (conv : Conversions T C)

/-- The loop ends without a failed assertion and has added its range. -/
theorem loop_ok {all : Unsigned × Unsigned} {fuel : ℕ} {m : List (T × T)} {i second : T}
    (h : Separated m) (hin : ∀ x, i ≤ x → x < second → InGround conv all x)
    (hfuel : remaining m i < fuel) :
    ∃ m', loop conv all fuel m i second = .ok m' ∧ Separated m' ∧
      covered m' = covered m ∪ Set.Ico i second := by
  induction fuel generalizing m i with
  | zero => omega
  | succ fuel ih =>
    unfold loop
    by_cases hi : i < second
    · have hturn := turn_adds h hi
      rw [if_pos hi, if_pos (hin i le_rfl hi)]
      cases hres : turn m i second with
      | stop m' =>
        rw [hres] at hturn
        exact ⟨m', by simp, hturn.1, hturn.2⟩
      | again m' j =>
        rw [hres] at hturn
        obtain ⟨hm', hij, hfew, hcov⟩ := hturn
        obtain ⟨m'', hok, hm'', hcov'⟩ :=
          ih hm' (fun x hx hs => hin x (hij.le.trans hx) hs) (by omega)
        exact ⟨m'', by simpa using hok, hm'', hcov'.trans hcov⟩
    · rw [if_neg hi]
      refine ⟨m, by simp, h, ?_⟩
      simp [Set.Ico_eq_empty hi]

/-- Separated ranges inside of the ground range. -/
structure Valid (r : RangeMask T) : Prop where
  separated : Separated r.m_ranges
  inside : ∀ x ∈ covered r.m_ranges, InGround conv r.m_all x

theorem valid_empty (all : Unsigned × Unsigned) : Valid conv (empty all : RangeMask T) :=
  ⟨separated_nil, by simp [empty]⟩

variable {conv} {r : RangeMask T}

theorem contains_iff (h : Separated r.m_ranges) (x : T) :
    r.contains x ↔ x ∈ covered r.m_ranges := by
  have hsplit := upTo_append_behind (m := r.m_ranges) (i := x)
  unfold contains
  cases hlast : (upTo r.m_ranges x).getLast? with
  | none =>
    -- All ranges begin behind the element.
    rw [List.getLast?_eq_none_iff.mp hlast, List.nil_append] at hsplit
    simp only [Bool.false_eq_true, false_iff]
    rintro ⟨s, hs, hle, -⟩
    rw [← hsplit] at hs
    exact (lt_of_mem_behind h hs).not_ge hle
  | some last =>
    obtain ⟨c, d⟩ := last
    obtain ⟨pre, hpre⟩ := List.getLast?_eq_some_iff.mp hlast
    have hmem : (c, d) ∈ upTo r.m_ranges x := by simp [hpre]
    simp only [decide_eq_true_eq]
    constructor
    · intro hd
      refine ⟨(c, d), ?_, le_of_mem_upTo hmem, hd⟩
      rw [← hsplit]
      exact List.mem_append_left _ hmem
    · rintro ⟨s, hs, hle, hlt⟩
      have hin : s ∈ upTo r.m_ranges x := by
        rw [← hsplit] at hs
        rcases List.mem_append.mp hs with hs | hs
        · exact hs
        · exact absurd hle (lt_of_mem_behind h hs).not_ge
      have hleft : Separated (upTo r.m_ranges x) := by
        rw [← hsplit] at h
        exact (separated_append.mp h).1
      rw [hpre] at hleft hin
      exact hlt.trans_le (hleft.ends_le s hin)

theorem Valid.unionWithRange (h : Valid conv r) {x : T × T}
    (hx : ∀ y ∈ Set.Ico x.1 x.2, InGround conv r.m_all y) :
    ∃ r', unionWithRange conv r x = .ok r' ∧ Valid conv r' ∧ r'.m_all = r.m_all ∧
      covered r'.m_ranges = covered r.m_ranges ∪ Set.Ico x.1 x.2 := by
  obtain ⟨m, hok, hm, hcov⟩ := loop_ok conv h.separated (fun y hy hs => hx y ⟨hy, hs⟩)
    (Nat.lt_succ_of_le remaining_le)
  refine ⟨{ r with m_ranges := m }, by simp [RangeMask.unionWithRange, hok], ⟨hm, ?_⟩, rfl, hcov⟩
  intro y hy
  rw [hcov] at hy
  rcases hy with hy | hy
  · exact h.inside y hy
  · exact hx y hy

theorem Valid.unionWithRanges (h : Valid conv r) {xs : List (T × T)}
    (hxs : ∀ y ∈ covered xs, InGround conv r.m_all y) :
    ∃ r', unionWithRanges conv r xs = .ok r' ∧ Valid conv r' ∧ r'.m_all = r.m_all ∧
      covered r'.m_ranges = covered r.m_ranges ∪ covered xs := by
  induction xs generalizing r with
  | nil => exact ⟨r, by simp [RangeMask.unionWithRanges], h, rfl, by simp⟩
  | cons x xs ih =>
    simp only [covered_cons] at hxs
    obtain ⟨r₁, hok₁, h₁, hall₁, hcov₁⟩ := h.unionWithRange fun y hy => hxs y (.inl hy)
    obtain ⟨r₂, hok₂, h₂, hall₂, hcov₂⟩ := ih h₁ fun y hy => by
      rw [hall₁]
      exact hxs y (.inr hy)
    refine ⟨r₂, by simp [RangeMask.unionWithRanges, hok₁, hok₂], h₂, hall₂.trans hall₁, ?_⟩
    rw [hcov₂, hcov₁, covered_cons, Set.union_assoc]

omit [LinearOrder T] in
theorem InGround.left {a b : Unsigned × Unsigned} {x : T} (h : InGround conv a x) :
    InGround conv (groundUnion a b) x :=
  ⟨(conv.monotone (min_le_right b.1 a.1)).trans h.1,
    h.2.trans_le (conv.monotone (le_max_right b.2 a.2))⟩

omit [LinearOrder T] in
theorem InGround.right {a b : Unsigned × Unsigned} {x : T} (h : InGround conv b x) :
    InGround conv (groundUnion a b) x :=
  ⟨(conv.monotone (min_le_left b.1 a.1)).trans h.1,
    h.2.trans_le (conv.monotone (le_max_left b.2 a.2))⟩

theorem Valid.unionWithMask (h : Valid conv r) {o : RangeMask T} (ho : Valid conv o) :
    ∃ r', unionWithMask conv r o = .ok r' ∧ Valid conv r' ∧
      r'.m_all = groundUnion r.m_all o.m_all ∧
      covered r'.m_ranges = covered r.m_ranges ∪ covered o.m_ranges := by
  have hwide : Valid conv { r with m_all := groundUnion r.m_all o.m_all } :=
    ⟨h.separated, fun y hy => (h.inside y hy).left⟩
  exact hwide.unionWithRanges fun y hy => (ho.inside y hy).right

variable (conv)

/-- A mask whose ranges are as they should be. -/
structure ValidMask extends RangeMask T where
  valid : Valid conv toRangeMask

/-- What is added by one call. -/
inductive Addition where
  | range (x : T × T)
  | mask (o : ValidMask conv)

variable {conv}

def Addition.points : Addition conv → Set T
  | .range x => Set.Ico x.1 x.2
  | .mask o => covered o.m_ranges

/-- The ground range after a call. -/
def Addition.ground (all : Unsigned × Unsigned) : Addition conv → Unsigned × Unsigned
  | .range _ => all
  | .mask o => groundUnion all o.m_all

/-- A single range lies inside of the ground range; a mask brings its own. -/
def Addition.Fits (all : Unsigned × Unsigned) : Addition conv → Prop
  | .range x => ∀ y ∈ Set.Ico x.1 x.2, InGround conv all y
  | .mask _ => True

def add (r : RangeMask T) : Addition conv → Except Stop (RangeMask T)
  | .range x => unionWithRange conv r x
  | .mask o => unionWithMask conv r o.toRangeMask

/-- Calls one after the other. -/
def unionWithAll (r : RangeMask T) : List (Addition conv) → Except Stop (RangeMask T)
  | [] => .ok r
  | x :: xs =>
    match add r x with
    | .ok r' => unionWithAll r' xs
    | .error e => .error e

theorem Valid.add (h : Valid conv r) {x : Addition conv} (hx : x.Fits r.m_all) :
    ∃ r', add r x = .ok r' ∧ Valid conv r' ∧ r'.m_all = x.ground r.m_all ∧
      covered r'.m_ranges = covered r.m_ranges ∪ x.points := by
  cases x with
  | range x => exact h.unionWithRange hx
  | mask o => exact h.unionWithMask o.valid

theorem Valid.unionWithAll (h : Valid conv r) {xs : List (Addition conv)}
    (hxs : Guarded Addition.ground Addition.Fits r.m_all xs) :
    ∃ r', unionWithAll r xs = .ok r' ∧ Valid conv r' ∧
      covered r'.m_ranges = covered r.m_ranges ∪ {y | ∃ x ∈ xs, y ∈ x.points} := by
  induction xs generalizing r with
  | nil => exact ⟨r, by simp [RangeMask.unionWithAll], h, by simp⟩
  | cons x xs ih =>
    obtain ⟨hfits, hrest⟩ := hxs
    obtain ⟨r₁, hok₁, h₁, hall₁, hcov₁⟩ := h.add hfits
    rw [← hall₁] at hrest
    obtain ⟨r₂, hok₂, h₂, hcov₂⟩ := ih h₁ hrest
    refine ⟨r₂, by simp [RangeMask.unionWithAll, hok₁, hok₂], h₂, ?_⟩
    rw [hcov₂, hcov₁]
    ext y
    simp [or_assoc]

/-- Calls on an empty mask, with single ranges inside of the ground range of the moment. -/
theorem unionWith_run (all : Unsigned × Unsigned) (xs : List (Addition conv))
    (h : Guarded Addition.ground Addition.Fits all xs) :
    ∃ r, unionWithAll (empty all) xs = .ok r ∧ Valid conv r ∧
      covered r.m_ranges = {y | ∃ x ∈ xs, y ∈ x.points} ∧
      ∀ y, r.contains y ↔ ∃ x ∈ xs, y ∈ x.points := by
  obtain ⟨r, hok, hr, hcov⟩ := (valid_empty conv all).unionWithAll h
  have hcov' : covered r.m_ranges = {y | ∃ x ∈ xs, y ∈ x.points} := by
    simpa [empty] using hcov
  refine ⟨r, hok, hr, hcov', fun y => ?_⟩
  rw [contains_iff hr.separated, hcov']
  simp

/-- Elements of the type in which the ground range is held. -/
def unsignedConversions : Conversions Unsigned Unsigned := ⟨id, id, monotone_id⟩

theorem inGround_of_Ico {all : Unsigned × Unsigned} {a b : Unsigned} (hlo : all.1 ≤ a)
    (hhi : b ≤ all.2) : ∀ y ∈ Set.Ico a b, InGround unsignedConversions all y :=
  fun _ hy => ⟨hlo.trans hy.1, hy.2.trans_le hhi⟩

def sevenMask : ValidMask unsignedConversions where
  m_all := (6, 9)
  m_ranges := [(7, 8)]
  valid :=
    { separated := ⟨by simp, by simp⟩
      inside := by
        have hin : ∀ y ∈ Set.Ico (7 : Unsigned) 8, InGround unsignedConversions (6, 9) y :=
          inGround_of_Ico (by decide) (by decide)
        simpa using hin }

/-- Two ranges that touch, and a mask behind the ground range. -/
theorem unionWith_run_three : ∃ r, unionWithAll (empty (1, 6))
      [.range (4, 5), .range (2, 4), .mask sevenMask] = .ok r ∧ Valid unsignedConversions r ∧
    ∀ y : Unsigned, r.contains y ↔ ∃ x ∈ [Addition.range (4, 5), .range (2, 4), .mask sevenMask],
      y ∈ x.points := by
  have hfits : Guarded Addition.ground Addition.Fits (1, 6)
      [Addition.range (4, 5), .range (2, 4), .mask sevenMask] :=
    ⟨inGround_of_Ico (by decide) (by decide), inGround_of_Ico (by decide) (by decide), trivial,
      trivial⟩
  obtain ⟨r, hok, hr, -, hcontains⟩ := unionWith_run (1, 6) _ hfits
  exact ⟨r, hok, hr, hcontains⟩

end Runs

end RangeMask
end XChain
