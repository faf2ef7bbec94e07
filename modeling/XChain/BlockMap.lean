import Mathlib.Data.List.Sort
import Mathlib.Data.List.TakeWhile
import XChain.BlockQueue

/-!
# Maps of blocks with their size

A map holds blocks under keys that may repeat, in the order of the keys, and removes ranges
of keys. The removed blocks are the right ones in every run. The size of a block is looked
up after the block was moved into the map, when there is nothing left of it, so the size of
the map is right only in runs whose blocks are all empty.
-/
namespace XChain

/-- A block with its hash. -/
abbrev HashAndBlock := H256 × Bytes

/-- A multimap in the order of its keys, with the size that was noted. -/
structure SizedBlockMap (K : Type) where
  map : List (K × HashAndBlock)
  size : BitVec 64

namespace SizedBlockMap

variable {K : Type} [LinearOrder K]

/-- Inserts behind the entries whose keys are not greater. -/
def insertEntry (e : K × HashAndBlock) : List (K × HashAndBlock) → List (K × HashAndBlock)
  | [] => [e]
  | x :: m => if e.1 < x.1 then e :: x :: m else x :: insertEntry e m

/-- The size of a vector after it was moved from. -/
def movedSize (_ : Bytes) : ℕ := 0

variable (s : SizedBlockMap K)

def count : ℕ := s.map.length

def clear (_ : SizedBlockMap K) : SizedBlockMap K := ⟨[], 0⟩

def insert (key : K) (hash : H256) (blockData : Bytes) : SizedBlockMap K :=
  ⟨insertEntry (key, hash, blockData) s.map, s.size + .ofNat 64 (movedSize blockData)⟩

def removedSize (removed : List (K × HashAndBlock)) : ℕ :=
  removed.foldl (fun n e => n + e.2.2.length) 0

/-- Removes the entries between two others. -/
def removeRange (before removed after : List (K × HashAndBlock)) :
    List HashAndBlock × SizedBlockMap K :=
  (removed.map Prod.snd, ⟨before ++ after, s.size - .ofNat 64 (removedSize removed)⟩)

/-- The entries up to `lower_bound`, up to `upper_bound` and behind it. -/
def removeByKeyEqual (key : K) : List HashAndBlock × SizedBlockMap K :=
  let notLess := s.map.dropWhile fun e => e.1 < key
  s.removeRange (s.map.takeWhile fun e => e.1 < key) (notLess.takeWhile fun e => ¬ key < e.1)
    (notLess.dropWhile fun e => ¬ key < e.1)

def removeByKeyNotGreater (key : K) : List HashAndBlock × SizedBlockMap K :=
  s.removeRange [] (s.map.takeWhile fun e => ¬ key < e.1) (s.map.dropWhile fun e => ¬ key < e.1)

inductive Op (K : Type) where
  | insert (key : K) (hash : H256) (blockData : Bytes)
  | removeByKeyEqual (key : K)
  | removeByKeyNotGreater (key : K)
  | clear

/-- What a call hands out, and the map after it. -/
def step : Op K → List HashAndBlock × SizedBlockMap K
  | .insert key hash blockData => ([], s.insert key hash blockData)
  | .removeByKeyEqual key => s.removeByKeyEqual key
  | .removeByKeyNotGreater key => s.removeByKeyNotGreater key
  | .clear => ([], s.clear)

/-- The map after the calls. -/
def run (ops : List (Op K)) : SizedBlockMap K := runFrom (fun s op => (step s op).2) ⟨[], 0⟩ ops

/-- The keys that a call removes. -/
def removes : Op K → K → Bool
  | .removeByKeyEqual key, k => k = key
  | .removeByKeyNotGreater key, k => k ≤ key
  | _, _ => false

/-- What a map is for: the entries, in the order in which they came. -/
def abstractStep (l : List (K × HashAndBlock)) : Op K → List (K × HashAndBlock)
  | .insert key hash blockData => l ++ [(key, hash, blockData)]
  | .clear => []
  | op => l.filter fun e => !removes op e.1

/-- The entries that are in the map after the calls. -/
def stored (ops : List (Op K)) : List (K × HashAndBlock) := runFrom abstractStep [] ops

/-- The bytes of the blocks of a map. -/
def totalSize (m : List (K × HashAndBlock)) : ℕ := (m.map fun e => e.2.2.length).sum

/-- At every time the size is that of the stored blocks, and every removal hands out the
stored blocks under its keys without wrapping the size. -/
structure Accounted (ops : List (Op K)) : Prop where
  size : ∀ before after, ops = before ++ after →
    (run before).size.toNat = totalSize (stored before)
  count : ∀ before after, ops = before ++ after → (run before).count = (stored before).length
  noWrap : ∀ before op after, ops = before ++ op :: after →
    totalSize ((stored before).filter fun e => removes op e.1) ≤ (run before).size.toNat
  removed : ∀ before op after, ops = before ++ op :: after →
    ((run before).step op).1.Perm
      (((stored before).filter fun e => removes op e.1).map Prod.snd)

/-- Every key stands before the keys that are not smaller. -/
def Sorted (m : List (K × HashAndBlock)) : Prop := m.Pairwise fun a b => a.1 ≤ b.1

section Ranges

variable {m : List (K × HashAndBlock)} {e : K × HashAndBlock} {s : SizedBlockMap K}

theorem mem_insertEntry {x : K × HashAndBlock} : x ∈ insertEntry e m ↔ x = e ∨ x ∈ m := by
  induction m with
  | nil => simp [insertEntry]
  | cons y m ih =>
    unfold insertEntry
    split_ifs
    · simp
    · simp only [List.mem_cons, ih]
      tauto

theorem sorted_insertEntry (h : Sorted m) : Sorted (insertEntry e m) := by
  induction m with
  | nil => exact List.pairwise_singleton _ _
  | cons y m ih =>
    obtain ⟨hy, hm⟩ := List.pairwise_cons.mp h
    unfold insertEntry
    split_ifs with hlt
    · refine List.pairwise_cons.mpr ⟨fun x hx => ?_, h⟩
      rcases List.mem_cons.mp hx with rfl | hx
      · exact hlt.le
      · exact hlt.le.trans (hy x hx)
    · refine List.pairwise_cons.mpr ⟨fun x hx => ?_, ih hm⟩
      rcases mem_insertEntry.mp hx with rfl | hx
      · exact not_lt.mp hlt
      · exact hy x hx

/-- Behind the entries in front that satisfy a downward closed predicate there are none. -/
theorem not_of_mem_dropWhile (h : Sorted m) {p : K × HashAndBlock → Bool}
    (hp : ∀ a b : K × HashAndBlock, a.1 ≤ b.1 → p b = true → p a = true) {x : K × HashAndBlock}
    (hx : x ∈ m.dropWhile p) : p x = false := by
  induction m with
  | nil => cases hx
  | cons y m ih =>
    obtain ⟨hy, hm⟩ := List.pairwise_cons.mp h
    by_cases hpy : p y = true
    · rw [List.dropWhile_cons_of_pos hpy] at hx
      exact ih hm hx
    · rw [List.dropWhile_cons_of_neg hpy] at hx
      rcases List.mem_cons.mp hx with rfl | hx
      · exact Bool.eq_false_iff.mpr hpy
      · exact Bool.eq_false_iff.mpr fun hpx => hpy (hp _ _ (hy x hx) hpx)

/-- A removal hands out the entries that it picks, and leaves the others in order. -/
structure Picks (s : SizedBlockMap K) (r : K → Bool) (res : List HashAndBlock × SizedBlockMap K) :
    Prop where
  removed : res.1 = (s.map.filter fun e => r e.1).map Prod.snd
  left : res.2.map = s.map.filter fun e => !r e.1
  size : res.2.size = s.size - .ofNat 64 (totalSize (s.map.filter fun e => r e.1))

omit [LinearOrder K] in
theorem removedSize_eq (removed : List (K × HashAndBlock)) :
    removedSize removed = totalSize removed := by
  unfold removedSize totalSize
  rw [← List.foldl_map (f := fun e : K × HashAndBlock => e.2.2.length), ← List.sum_eq_foldl]

omit [LinearOrder K] in
theorem picks_removeRange {r : K → Bool} {before removed after : List (K × HashAndBlock)}
    (hmap : s.map = before ++ (removed ++ after)) (hb : ∀ e ∈ before, r e.1 = false)
    (hr : ∀ e ∈ removed, r e.1 = true) (ha : ∀ e ∈ after, r e.1 = false) :
    Picks s r (s.removeRange before removed after) := by
  have hnone : ∀ l : List (K × HashAndBlock), (∀ e ∈ l, r e.1 = false) →
      (l.filter fun e => r e.1) = [] ∧ (l.filter fun e => !r e.1) = l := by
    intro l hl
    exact ⟨List.filter_eq_nil_iff.mpr fun e he => by simp [hl e he],
      List.filter_eq_self.mpr fun e he => by simp [hl e he]⟩
  have hpicked : (s.map.filter fun e => r e.1) = removed := by
    rw [hmap, List.filter_append, List.filter_append, (hnone before hb).1, (hnone after ha).1,
      List.filter_eq_self.mpr hr, List.nil_append, List.append_nil]
  have hleft : (s.map.filter fun e => !r e.1) = before ++ after := by
    rw [hmap, List.filter_append, List.filter_append, (hnone before hb).2, (hnone after ha).2,
      List.filter_eq_nil_iff.mpr fun e he => by simp [hr e he], List.nil_append]
  exact ⟨congrArg _ hpicked.symm, hleft.symm, by rw [hpicked, ← removedSize_eq]; rfl⟩

theorem picks_removeByKeyEqual (h : Sorted s.map) (key : K) :
    Picks s (removes (.removeByKeyEqual key)) (s.removeByKeyEqual key) := by
  have hnotLess : ∀ e ∈ s.map.dropWhile fun e => e.1 < key, ¬ e.1 < key := by
    intro e he
    simpa using not_of_mem_dropWhile h
      (fun a b hab hb => by simpa using hab.trans_lt (by simpa using hb)) he
  have hsorted : Sorted (s.map.dropWhile fun e => e.1 < key) :=
    List.Pairwise.sublist (List.dropWhile_sublist _) h
  refine picks_removeRange ?_ ?_ ?_ ?_
  · rw [List.takeWhile_append_dropWhile, List.takeWhile_append_dropWhile]
  · intro e he
    have hlt := List.mem_takeWhile_imp he
    simpa [removes] using (of_decide_eq_true hlt).ne
  · intro e he
    have hle := List.mem_takeWhile_imp he
    have hge := hnotLess e ((List.takeWhile_sublist _).subset he)
    simpa [removes] using le_antisymm (by simpa using hle) (not_lt.mp hge)
  · intro e he
    have hgt := not_of_mem_dropWhile hsorted
      (fun a b hab hb => by simpa using hab.trans (by simpa using hb)) he
    simpa [removes] using (show key < e.1 by simpa using hgt).ne'

theorem picks_removeByKeyNotGreater (h : Sorted s.map) (key : K) :
    Picks s (removes (.removeByKeyNotGreater key)) (s.removeByKeyNotGreater key) := by
  refine picks_removeRange ?_ ?_ ?_ ?_
  · rw [List.nil_append, List.takeWhile_append_dropWhile]
  · intro e he
    cases he
  · intro e he
    simpa [removes] using List.mem_takeWhile_imp he
  · intro e he
    have hgt := not_of_mem_dropWhile h
      (fun a b hab hb => by simpa using hab.trans (by simpa using hb)) he
    simpa [removes] using hgt

end Ranges

section Runs

variable {s : SizedBlockMap K} {ops : List (Op K)} {op : Op K}

theorem run_concat : run (ops ++ [op]) = ((run ops).step op).2 := runFrom_append

theorem stored_concat : stored (ops ++ [op]) = abstractStep (stored ops) op := runFrom_append

/-- The entries stay sorted and are those that are stored. -/
theorem step_stored {l : List (K × HashAndBlock)} (h : Sorted s.map) (hl : s.map.Perm l) :
    Sorted (s.step op).2.map ∧ (s.step op).2.map.Perm (abstractStep l op) := by
  have hpicks : ∀ {r : K → Bool} {res : List HashAndBlock × SizedBlockMap K}, Picks s r res →
      Sorted res.2.map ∧ res.2.map.Perm (l.filter fun e => !r e.1) := by
    intro r res hres
    rw [hres.left]
    exact ⟨h.sublist List.filter_sublist, hl.filter _⟩
  cases op with
  | insert key hash blockData =>
    refine ⟨sorted_insertEntry h, ?_⟩
    have hinsert : ∀ m : List (K × HashAndBlock), ∀ e, (insertEntry e m).Perm (e :: m) := by
      intro m e
      induction m with
      | nil => exact List.Perm.refl _
      | cons y m ih =>
        unfold insertEntry
        split_ifs
        · exact List.Perm.refl _
        · exact (ih.cons y).trans (List.Perm.swap _ _ _)
    exact (hinsert _ _).trans ((hl.cons _).trans (List.perm_append_singleton _ _).symm)
  | removeByKeyEqual key => exact hpicks (picks_removeByKeyEqual h key)
  | removeByKeyNotGreater key => exact hpicks (picks_removeByKeyNotGreater h key)
  | clear => exact ⟨List.Pairwise.nil, List.Perm.nil⟩

theorem run_stored (ops : List (Op K)) : Sorted (run ops).map ∧ (run ops).map.Perm (stored ops) := by
  induction ops using List.reverseRecOn with
  | nil => exact ⟨List.Pairwise.nil, List.Perm.nil⟩
  | append_singleton ops op ih =>
    rw [run_concat, stored_concat]
    exact step_stored ih.1 ih.2

/-- A removal hands out the stored blocks under its keys, in every run. -/
theorem run_removed (ops : List (Op K)) (op : Op K) : ((run ops).step op).1.Perm
    (((stored ops).filter fun e => removes op e.1).map Prod.snd) := by
  obtain ⟨hsorted, hperm⟩ := run_stored ops
  have hpicks : ∀ {r : K → Bool} {res : List HashAndBlock × SizedBlockMap K},
      Picks (run ops) r res → res.1.Perm (((stored ops).filter fun e => r e.1).map Prod.snd) := by
    intro r res hres
    rw [hres.removed]
    exact (hperm.filter _).map _
  cases op with
  | insert key hash blockData => simp [step, removes]
  | removeByKeyEqual key => exact hpicks (picks_removeByKeyEqual hsorted key)
  | removeByKeyNotGreater key => exact hpicks (picks_removeByKeyNotGreater hsorted key)
  | clear => simp [step, removes]

/-- Blocks without bytes. -/
def AllEmpty (l : List (K × HashAndBlock)) : Prop := ∀ e ∈ l, e.2.2 = []

omit [LinearOrder K] in
theorem AllEmpty.filter {l : List (K × HashAndBlock)} (h : AllEmpty l)
    (r : K × HashAndBlock → Bool) : AllEmpty (l.filter r) :=
  fun e he => h e (List.mem_of_mem_filter he)

omit [LinearOrder K] in
theorem AllEmpty.totalSize {l : List (K × HashAndBlock)} (h : AllEmpty l) :
    SizedBlockMap.totalSize l = 0 := by
  refine List.sum_eq_zero fun n hn => ?_
  obtain ⟨e, he, rfl⟩ := List.mem_map.mp hn
  simp [h e he]

/-- The size stays zero while every inserted block is empty. -/
theorem run_empty (h : ∀ key hash blockData, Op.insert key hash blockData ∈ ops → blockData = []) :
    (run ops).size = 0 ∧ AllEmpty (stored ops) := by
  induction ops using List.reverseRecOn with
  | nil => exact ⟨rfl, fun e he => absurd he (by simp [stored])⟩
  | append_singleton ops op ih =>
    obtain ⟨hsize, hempty⟩ := ih fun key hash blockData hmem => h key hash blockData (by simp [hmem])
    obtain ⟨hsorted, hperm⟩ := run_stored ops
    rw [run_concat, stored_concat]
    have hmap : AllEmpty (run ops).map := fun e he => hempty e (hperm.mem_iff.mp he)
    have hpicks : ∀ {r : K → Bool} {res : List HashAndBlock × SizedBlockMap K},
        Picks (run ops) r res →
          res.2.size = 0 ∧ AllEmpty ((stored ops).filter fun e => !r e.1) := by
      intro r res hres
      rw [hres.size, (hmap.filter _).totalSize, hsize]
      exact ⟨rfl, hempty.filter _⟩
    cases op with
    | insert key hash blockData =>
      refine ⟨?_, fun e he => ?_⟩
      · show (run ops).size + _ = _
        rw [hsize]
        rfl
      · rcases List.mem_append.mp he with he | he
        · exact hempty e he
        · rw [List.mem_singleton.mp he]
          exact h key hash blockData (by simp)
    | removeByKeyEqual key => exact hpicks (picks_removeByKeyEqual hsorted key)
    | removeByKeyNotGreater key => exact hpicks (picks_removeByKeyNotGreater hsorted key)
    | clear => exact ⟨rfl, fun e he => by cases he⟩

theorem Accounted.before {ops after : List (Op K)} (h : Accounted (ops ++ after)) :
    Accounted ops where
  size before rest hops := h.size before (rest ++ after) (by rw [hops, List.append_assoc])
  count before rest hops := h.count before (rest ++ after) (by rw [hops, List.append_assoc])
  noWrap before op rest hops := h.noWrap before op (rest ++ after) (by rw [hops]; simp)
  removed before op rest hops := h.removed before op (rest ++ after) (by rw [hops]; simp)

/-- The size of a map is right throughout a run exactly when every inserted block is empty. -/
theorem map_accounted_iff (ops : List (Op K)) : Accounted ops ↔
    ∀ key hash blockData, Op.insert key hash blockData ∈ ops → blockData = [] := by
  constructor
  · intro h
    induction ops using List.reverseRecOn with
    | nil => simp
    | append_singleton ops op ih =>
      intro key hash blockData hmem
      rcases List.mem_append.mp hmem with hops | hop
      · exact ih h.before key hash blockData hops
      · obtain rfl := List.mem_singleton.mp hop
        obtain ⟨hsize, -⟩ := run_empty (ih h.before)
        have htotal := h.size _ [] (List.append_nil _).symm
        rw [run_concat, stored_concat] at htotal
        have hzero : ((run ops).step (.insert key hash blockData)).2.size = 0 := by
          show (run ops).size + _ = _
          rw [hsize]
          rfl
        rw [hzero] at htotal
        simp only [abstractStep, totalSize, List.map_append, List.map_cons, List.map_nil,
          List.sum_append, List.sum_singleton] at htotal
        exact List.eq_nil_of_length_eq_zero (by simp at htotal; omega)
  · intro h
    have hbefore : ∀ {before after : List (Op K)}, ops = before ++ after →
        (run before).size = 0 ∧ AllEmpty (stored before) := by
      rintro before after rfl
      exact run_empty fun key hash blockData hmem => h key hash blockData (by simp [hmem])
    refine ⟨?_, ?_, ?_, fun before op after _ => run_removed before op⟩
    · intro before after hops
      obtain ⟨hsize, hempty⟩ := hbefore hops
      rw [hsize, hempty.totalSize]
      rfl
    · intro before after _
      exact (run_stored before).2.length_eq
    · intro before op after hops
      rw [((hbefore hops).2.filter _).totalSize]
      exact Nat.zero_le _

end Runs

/-- A block of one byte is inserted and removed again. -/
def inserted : List (Op ℕ) := [.insert 1 (.ofNat 1) [7], .removeByKeyEqual 1]

/-- The size is zero while the byte is stored, and wraps when it is removed. -/
theorem map_unaccounted : (run inserted).size = BitVec.allOnes 64 ∧ ¬ Accounted inserted := by
  refine ⟨by decide, fun h => ?_⟩
  exact absurd (h.size inserted [] rfl) (by decide)

end SizedBlockMap
end XChain
