import XChain.KeyedOrder
import XChain.NodeTableRuns

/-!
# The nodes nearest to a target

The buckets are walked from the one at the distance of the target on, to both sides at once or
to one side only, and what is found is ordered by its own distance from the target. The count
that is to end the walk stays zero.
-/
namespace XChain

namespace P2P

/-- What was found, by distance. -/
abbrev Found := ℕ → List ℕ

def Found.pushBack (found : Found) (d p : ℕ) : Found := Function.update found d (found d ++ [p])

namespace NodeTable

section Walk

variable (sha3 : Bytes → FixedHash 32) (t : NodeTable) (target : Public)

/-- The distance of a node from the target. -/
def distanceOf (n : ℕ) : ℕ := distance sha3 target (t.entries n).id

/-- The nodes of a bucket, if there is one at the place. -/
def nodesAt (i : ℕ) : Option (List ℕ) := if h : i < s_bins then some (t.m_state ⟨i, h⟩) else none

/-- Takes the nodes of a bucket that are alive. -/
def gather (count : ℕ) : Found → List ℕ → Found
  | found, [] => found
  | found, n :: nodes =>
    match t.lock n with
    | none => gather count found nodes
    | some p =>
      if count < s_bucketSize then
        gather count (found.pushBack (t.distanceOf sha3 target p) p) nodes
      else found

/-- The walk to both sides. -/
def spread (count head tail : ℕ) (found : Found) : Option Found :=
  if _h : head ≠ tail ∧ head < s_bins ∧ count < s_bucketSize then
    match t.nodesAt head with
    | none => none
    | some nodes =>
      let found := t.gather sha3 target count found nodes
      let rest := if count < s_bucketSize ∧ tail ≠ 0 then
        (t.nodesAt tail).map (t.gather sha3 target count found) else some found
      match rest with
      | none => none
      | some found => spread count (head + 1) (if tail ≠ 0 then tail - 1 else tail) found
  else some found
termination_by s_bins - head

/-- The walk away from the own bucket. -/
def forward (count head : ℕ) (found : Found) : Option Found :=
  if _h : head < s_bins ∧ count < s_bucketSize then
    match t.nodesAt head with
    | none => none
    | some nodes => forward count (head + 1) (t.gather sha3 target count found nodes)
  else some found
termination_by s_bins - head

/-- The walk back from the last bucket. -/
def reverse (count : ℕ) : ℕ → Found → Option Found
  | 0, found => some found
  | tail + 1, found =>
    if count < s_bucketSize then
      match t.nodesAt (tail + 1) with
      | none => none
      | some nodes => reverse count tail (t.gather sha3 target count found nodes)
    else some found

/-- What the walk finds. It fails where it goes out of bounds. -/
def walk : Option Found :=
  let lastBin := s_bins - 1
  let head := distance sha3 t.id target
  let tail := if head = 0 then lastBin else (head - 1) % s_bins
  let count := 0
  if 1 < head ∧ tail ≠ lastBin then t.spread sha3 target count head tail fun _ => []
  else if head < 2 then t.forward sha3 target count head fun _ => []
  else t.reverse sha3 target count tail fun _ => []

variable (test_allowLocal : Bool)

def isAllowed (n : ℕ) : Bool :=
  (t.entries n).endpoint.isSet && (t.entries n).endpoint.isAllowed test_allowLocal

/-- The first nodes in the order of distance that may be told to others. A distance has
fewer than 256 values. -/
def nearestNodeEntries : Option (List ℕ) :=
  (t.walk sha3 target).map fun found =>
    ((List.range 256).flatMap found).foldl
      (fun ret n => if ret.length < s_bucketSize ∧ t.isAllowed test_allowLocal n then ret ++ [n]
        else ret) []

/-- The buckets that are walked, for a target at a distance. -/
def Walked (d i : ℕ) : Prop := (d = 0 ∨ 1 ≤ i) ∧ (d = s_bins ∨ 2 * d ≤ i + s_bins)

instance (d i : ℕ) : Decidable (Walked d i) := inferInstanceAs (Decidable (_ ∧ _))

/-- The nodes of some buckets that are alive and may be told to others. -/
def servable (buckets : List (Fin s_bins)) : List ℕ :=
  (buckets.flatMap t.m_state).filter fun n => t.alive n && t.isAllowed test_allowLocal n

/-- The nodes that a search has to look among, and those among which it looks. -/
def liveAllowed : List ℕ := t.servable test_allowLocal (List.finRange s_bins)

def liveWalked : List ℕ :=
  t.servable test_allowLocal
    ((List.finRange s_bins).filter fun i => Walked (distance sha3 t.id target) i)

/-- What a search has to return. -/
def IsNearest (ret : List ℕ) : Prop :=
  IsFront (t.distanceOf sha3 target) (t.liveAllowed test_allowLocal) s_bucketSize ret

end Walk

section Loops

variable {sha3 : Bytes → FixedHash 32} {t : NodeTable} {target : Public}

variable (sha3 t target) in
/-- What is found in some nodes. -/
def collect (nodes : List ℕ) : Found := fun d =>
  (nodes.filter fun n => t.alive n).filter (t.distanceOf sha3 target · = d)

theorem gather_collect (l nodes : List ℕ) :
    t.gather sha3 target 0 (t.collect sha3 target l) nodes
      = t.collect sha3 target (l ++ nodes) := by
  induction nodes generalizing l with
  | nil => simp [gather]
  | cons n nodes ih =>
    have hassoc : l ++ n :: nodes = (l ++ [n]) ++ nodes := List.append_cons l n nodes
    rw [hassoc, ← ih]
    cases hn : t.alive n with
    | false =>
      have hskip : t.collect sha3 target (l ++ [n]) = t.collect sha3 target l := by
        funext d
        simp [collect, hn]
      simp [gather, lock, hn, hskip]
    | true =>
      have hpush : (t.collect sha3 target l).pushBack (t.distanceOf sha3 target n) n
          = t.collect sha3 target (l ++ [n]) := by
        funext d
        by_cases hd : d = t.distanceOf sha3 target n
        · simp [Found.pushBack, collect, hn, hd]
        · have hne : t.distanceOf sha3 target n ≠ d := fun h => hd h.symm
          simp [Found.pushBack, collect, hn, hd, hne]
      simp [gather, lock, hn, s_bucketSize, hpush]

variable (sha3 t target) in
/-- A part of the walk visits certain buckets, each of them once. -/
def Visits (part : Found → Option Found) (P : Fin s_bins → Prop) : Prop :=
  ∃ order : List (Fin s_bins), order.Nodup ∧ (∀ i, i ∈ order ↔ P i) ∧
    ∀ l, part (t.collect sha3 target l) = some (t.collect sha3 target (l ++ order.flatMap t.m_state))

theorem Visits.congr {part : Found → Option Found} {P Q : Fin s_bins → Prop}
    (h : t.Visits sha3 target part P) (hiff : ∀ i, P i ↔ Q i) : t.Visits sha3 target part Q := by
  obtain ⟨order, hnodup, hmem, hpart⟩ := h
  exact ⟨order, hnodup, fun i => (hmem i).trans (hiff i), hpart⟩

/-- The end of a walk, where no bucket is left. -/
theorem visits_nothing {part : Found → Option Found} {P : Fin s_bins → Prop}
    (hend : ∀ found, part found = some found) (hP : ∀ i, ¬P i) : t.Visits sha3 target part P :=
  ⟨[], by simp, by simp [hP], by simp [hend]⟩

/-- A bucket is visited before the rest. -/
theorem Visits.cons {part part' : Found → Option Found} {P Q : Fin s_bins → Prop} {i : Fin s_bins}
    (h : t.Visits sha3 target part P) (hi : ¬P i) (hQ : ∀ j, Q j ↔ j = i ∨ P j)
    (hpart : ∀ found, part' found = part (t.gather sha3 target 0 found (t.m_state i))) :
    t.Visits sha3 target part' Q := by
  obtain ⟨order, hnodup, hmem, hrun⟩ := h
  refine ⟨i :: order, ?_, fun j => ?_, fun l => ?_⟩
  · exact List.nodup_cons.mpr ⟨fun hin => hi ((hmem i).mp hin), hnodup⟩
  · simp [hmem, hQ]
  · rw [hpart, gather_collect, hrun]
    simp

theorem nodesAt_of_lt {i : ℕ} (h : i < s_bins) : t.nodesAt i = some (t.m_state ⟨i, h⟩) := by
  simp [nodesAt, h]

theorem forward_visits {head k : ℕ} (h : head + k = s_bins) :
    t.Visits sha3 target (t.forward sha3 target 0 head) fun i => head ≤ i := by
  induction k generalizing head with
  | zero =>
    apply visits_nothing
    · intro found
      rw [forward, dif_neg (by omega)]
    · intro i
      have hi := i.isLt
      omega
  | succ k ih =>
    have hhead : head < s_bins := by omega
    have hrest : t.Visits sha3 target (t.forward sha3 target 0 (head + 1)) fun i => head + 1 ≤ i :=
      ih (by omega)
    apply hrest.cons (i := ⟨head, hhead⟩)
    · simp
    · intro i
      simp [Fin.ext_iff]
      omega
    · intro found
      rw [forward, dif_pos ⟨hhead, by decide⟩, nodesAt_of_lt hhead]

theorem reverse_visits {tail : ℕ} (h : tail < s_bins) :
    t.Visits sha3 target (t.reverse sha3 target 0 tail) fun i => 1 ≤ i.val ∧ i ≤ tail := by
  induction tail with
  | zero =>
    apply visits_nothing
    · intro found
      rw [reverse]
    · intro i
      omega
  | succ tail ih =>
    have hrest := ih (by omega)
    apply hrest.cons (i := ⟨tail + 1, h⟩)
    · simp
    · intro i
      simp [Fin.ext_iff]
      omega
    · intro found
      rw [reverse, if_pos (by decide), nodesAt_of_lt h]

theorem spread_visits {head tail k : ℕ} (h : head + k = s_bins) (ht : tail < head) :
    t.Visits sha3 target (t.spread sha3 target 0 head tail) fun i =>
      head ≤ i ∨ 1 ≤ i.val ∧ i ≤ tail ∧ tail < i + k := by
  induction k generalizing head tail with
  | zero =>
    apply visits_nothing
    · intro found
      rw [spread, dif_neg (by omega)]
    · intro i
      have hi := i.isLt
      omega
  | succ k ih =>
    have hhead : head < s_bins := by omega
    have hloop : head ≠ tail ∧ head < s_bins ∧ 0 < s_bucketSize := ⟨by omega, hhead, by decide⟩
    cases tail with
    | zero =>
      have hrest : t.Visits sha3 target (t.spread sha3 target 0 (head + 1) 0) _ :=
        ih (by omega) (by omega)
      apply hrest.cons (i := ⟨head, hhead⟩)
      · simp
        omega
      · intro i
        simp [Fin.ext_iff]
        omega
      · intro found
        rw [spread, dif_pos hloop, nodesAt_of_lt hhead]
        simp
    | succ tail =>
      have htail : tail + 1 < s_bins := by omega
      have hrest : t.Visits sha3 target (t.spread sha3 target 0 (head + 1) tail) _ :=
        ih (by omega) (by omega)
      -- the bucket on the side of the target is visited second
      have hsecond : t.Visits sha3 target (fun found => t.spread sha3 target 0 (head + 1) tail
          (t.gather sha3 target 0 found (t.m_state ⟨tail + 1, htail⟩))) fun i =>
            head + 1 ≤ i ∨ 1 ≤ i.val ∧ i ≤ tail + 1 ∧ tail < i + k := by
        apply hrest.cons (i := ⟨tail + 1, htail⟩)
        · simp
          omega
        · intro i
          simp [Fin.ext_iff]
          omega
        · simp
      apply hsecond.cons (i := ⟨head, hhead⟩)
      · simp
        omega
      · intro i
        simp [Fin.ext_iff]
        omega
      · intro found
        rw [spread, dif_pos hloop, nodesAt_of_lt hhead, nodesAt_of_lt htail]
        simp [s_bucketSize]

variable (sha3 t target) in
/-- The whole walk stays inside of the buckets. -/
theorem walk_visits : t.Visits sha3 target (fun found =>
    let lastBin := s_bins - 1
    let head := distance sha3 t.id target
    let tail := if head = 0 then lastBin else (head - 1) % s_bins
    if 1 < head ∧ tail ≠ lastBin then t.spread sha3 target 0 head tail found
    else if head < 2 then t.forward sha3 target 0 head found
    else t.reverse sha3 target 0 tail found) fun i => Walked (distance sha3 t.id target) i := by
  have hd : distance sha3 t.id target ≤ s_bins := distance_le sha3 t.id target
  generalize distance sha3 t.id target = d at hd
  by_cases hsmall : d < 2
  · have hvisits : t.Visits sha3 target (t.forward sha3 target 0 d) _ :=
      forward_visits (k := s_bins - d) (by omega)
    simp [hsmall, show ¬1 < d by omega]
    apply hvisits.congr
    intro i
    simp only [Walked, s_bins] at *
    omega
  · have htail : (if d = 0 then s_bins - 1 else (d - 1) % s_bins) = d - 1 := by
      rw [if_neg (by omega), Nat.mod_eq_of_lt (by omega)]
    simp only [htail]
    by_cases hlast : d = s_bins
    · have hvisits : t.Visits sha3 target (t.reverse sha3 target 0 (s_bins - 1)) _ :=
        reverse_visits (by decide)
      simp [hsmall, show d - 1 = s_bins - 1 by omega]
      apply hvisits.congr
      intro i
      have hi := i.isLt
      simp only [Walked, s_bins] at *
      omega
    · have hvisits : t.Visits sha3 target (t.spread sha3 target 0 d (d - 1)) _ :=
        spread_visits (k := s_bins - d) (by omega) (by omega)
      simp [show 1 < d by omega, show d - 1 ≠ s_bins - 1 by omega]
      apply hvisits.congr
      intro i
      have hi := i.isLt
      simp only [Walked, s_bins] at *
      omega

/-- The first elements with a property. -/
theorem foldl_limit {p : ℕ → Bool} {limit : ℕ} (l ret : List ℕ) :
    l.foldl (fun ret n => if ret.length < limit ∧ p n then ret ++ [n] else ret) ret
      = ret ++ (l.filter p).take (limit - ret.length) := by
  induction l generalizing ret with
  | nil => simp
  | cons n l ih =>
    rw [List.foldl_cons, ih]
    cases hn : p n with
    | false => simp [hn]
    | true =>
      by_cases hlimit : ret.length < limit
      · have hmore : limit - ret.length = (limit - (ret.length + 1)) + 1 := by omega
        simp [hn, hlimit, hmore]
      · have hnone : limit - ret.length = 0 := by omega
        simp [hlimit, hnone]

variable (sha3 t target) in
/-- The answer is the front of what is found in the buckets of the walk. -/
theorem nearestNodeEntries_eq (test_allowLocal : Bool) : ∃ order : List (Fin s_bins),
    order.Nodup ∧ (∀ i : Fin s_bins, i ∈ order ↔ Walked (distance sha3 t.id target) i) ∧
      t.nearestNodeEntries sha3 target test_allowLocal
        = some ((byKey (t.distanceOf sha3 target) (t.servable test_allowLocal order) 256).take
          s_bucketSize) := by
  obtain ⟨order, hnodup, hmem, hrun⟩ := walk_visits sha3 t target
  refine ⟨order, hnodup, hmem, ?_⟩
  have hwalk : t.walk sha3 target = some (t.collect sha3 target (order.flatMap t.m_state)) := by
    have hempty : (fun _ => []) = t.collect sha3 target [] := by
      funext d
      simp [collect]
    rw [walk, hempty]
    exact hrun []
  have hfound : (List.range 256).flatMap (t.collect sha3 target (order.flatMap t.m_state))
      = byKey (t.distanceOf sha3 target) ((order.flatMap t.m_state).filter fun n => t.alive n) 256 :=
    rfl
  have hserve : ((order.flatMap t.m_state).filter fun n => t.alive n).filter
      (t.isAllowed test_allowLocal) = t.servable test_allowLocal order := by
    rw [servable, List.filter_filter]
    simp only [Bool.and_comm]
  rw [nearestNodeEntries, hwalk, Option.map_some, foldl_limit, hfound, filter_byKey, hserve]
  simp

end Loops

section Contents

variable {sha3 : Bytes → FixedHash 32} {t : NodeTable} {target : Public} {test_allowLocal : Bool}

theorem mem_servable {buckets : List (Fin s_bins)} {n : ℕ} :
    n ∈ t.servable test_allowLocal buckets ↔
      (∃ i ∈ buckets, n ∈ t.m_state i) ∧ t.alive n = true ∧ t.isAllowed test_allowLocal n = true := by
  simp [servable]

theorem servable_perm {buckets buckets' : List (Fin s_bins)} (h : buckets.Perm buckets') :
    (t.servable test_allowLocal buckets).Perm (t.servable test_allowLocal buckets') :=
  (h.flatMap_right _).filter _

theorem servable_append (buckets buckets' : List (Fin s_bins)) :
    t.servable test_allowLocal (buckets ++ buckets')
      = t.servable test_allowLocal buckets ++ t.servable test_allowLocal buckets' := by
  simp [servable]

/-- A node lies in one bucket only. -/
theorem Buckets.liveAllowed_nodup (hb : t.Buckets sha3) : (t.liveAllowed test_allowLocal).Nodup := by
  apply List.Nodup.filter
  rw [List.nodup_flatMap]
  refine ⟨fun i _ => hb.nodup i, ?_⟩
  apply (List.nodup_finRange s_bins).imp
  intro i j hij n hi hj
  apply hij
  exact Option.some.inj ((hb.place i n hi).symm.trans (hb.place j n hj))

/-- The answer is right if and only if the buckets that the walk leaves out have nothing to
add. -/
theorem Buckets.nearest_iff (hb : t.Buckets sha3) :
    (∃ ret, t.nearestNodeEntries sha3 target test_allowLocal = some ret ∧
      t.IsNearest sha3 target test_allowLocal ret) ↔
    ∀ i m, m ∈ t.m_state i → t.alive m = true → t.isAllowed test_allowLocal m = true →
      ¬Walked (distance sha3 t.id target) i →
        s_bucketSize ≤ ((t.liveWalked sha3 target test_allowLocal).filter
          (t.distanceOf sha3 target · ≤ t.distanceOf sha3 target m)).length := by
  obtain ⟨order, hnodup, hmem, hret⟩ := nearestNodeEntries_eq sha3 t target test_allowLocal
  let d := distance sha3 t.id target
  let left := t.servable test_allowLocal ((List.finRange s_bins).filter fun i => ¬Walked d i)
  have hwalked : (byKey (t.distanceOf sha3 target) (t.servable test_allowLocal order) 256).Perm
      (t.liveWalked sha3 target test_allowLocal) := by
    apply (byKey_perm _).trans
    · apply servable_perm
      rw [List.perm_ext_iff_of_nodup hnodup ((List.nodup_finRange s_bins).filter _)]
      intro i
      simp [hmem]
    · intro n _
      have hle := distance_le sha3 target (t.entries n).id
      rw [distanceOf]
      omega
  have hall : (t.liveAllowed test_allowLocal).Perm (t.liveWalked sha3 target test_allowLocal ++ left) := by
    rw [liveWalked, ← servable_append]
    apply servable_perm
    have hsplit := List.filter_append_perm (fun i : Fin s_bins => Walked d i) (List.finRange s_bins)
    simpa using hsplit.symm
  have hfront := isFront_take_iff (n := s_bucketSize) (byKey_sorted 256) hwalked hall
    hb.liveAllowed_nodup
  have hleft : ∀ m, m ∈ left ↔ ∃ i : Fin s_bins, ¬Walked d i ∧ m ∈ t.m_state i ∧
      t.alive m = true ∧ t.isAllowed test_allowLocal m = true := by
    intro m
    simp [left, mem_servable, ← and_assoc]
  simp only [hret, Option.some.injEq, exists_eq_left']
  rw [IsNearest, hfront]
  constructor
  · intro h i m hm halive hallowed hout
    exact h m ((hleft m).mpr ⟨i, hout, hm, halive, hallowed⟩)
  · intro h m hm
    obtain ⟨i, hout, hin, halive, hallowed⟩ := (hleft m).mp hm
    exact h i m hin halive hallowed hout

end Contents

section Runs

variable {sha3 : Bytes → FixedHash 32} {test_allowLocal : Bool} {t t' : NodeTable}

theorem step_buckets {op : Op} (ht : t.Held) (hb : t.Buckets sha3)
    (h : t.step sha3 test_allowLocal op = some t') : t'.Held ∧ t'.Buckets sha3 := by
  obtain ⟨⟨t₁, x⟩, hprep, hnote⟩ := Option.bind_eq_some_iff.mp h
  have hkeeps := prepare_keeps hprep
  have hheld := hkeeps.held' ht
  have hbuckets := hkeeps.buckets ht hb
  cases x with
  | none =>
    obtain rfl := Option.some.inj hnote
    exact ⟨hheld, hbuckets⟩
  | some y => exact ⟨note_held hnote hheld, note_buckets hnote hheld hbuckets⟩

/-- The buckets are as they should be after every run that stays in bounds. -/
theorem run_buckets {ops : List Op} (ht : t.Held) (hb : t.Buckets sha3)
    (h : t.run sha3 test_allowLocal ops = some t') : t'.Buckets sha3 := by
  induction ops generalizing t with
  | nil =>
    obtain rfl := Option.some.inj h
    exact hb
  | cons op ops ih =>
    obtain ⟨t₁, hstep, hrun⟩ := Option.bind_eq_some_iff.mp h
    obtain ⟨ht₁, hb₁⟩ := step_buckets ht hb hstep
    exact ih ht₁ hb₁ hrun

end Runs

section Example

/-- An id near to zero, and one that is not. -/
def nearId : Public := .ofRef 64 (List.replicate 31 0 ++ 8 :: List.replicate 32 0)

def awayId : Public := .ofRef 64 (List.replicate 6 0 ++ 1 :: List.replicate 57 0)

def addNear : Op := .addKnownNode nearId publicEndpoint 0 true

/-- The table with one node, which is near. -/
def oneNear : NodeTable := (after [addNear]).get (by decide +kernel)

theorem after_near : after [addNear] = some oneNear := (Option.some_get _).symm

end Example

end NodeTable

end P2P
end XChain
