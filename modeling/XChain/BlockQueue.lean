import Mathlib.Algebra.BigOperators.Group.List.Basic
import XChain.Common
import XChain.GuardedRuns
import XChain.MemoryDB

/-!
# Queues of blocks with their size

A queue hands out blocks from the front, or those that a predicate picks, and keeps the
total size of what it holds. Picking moves the blocks that stay to the front and hands out
the rest of the slots, in which a block that was moved from is left without its data. The
picked blocks come out whole exactly when they are the last ones.
-/
namespace XChain

/-- What a queue knows of its blocks. A block that was moved from has no data. -/
class QueuedBlock (T : Type) where
  blockData : T → Bytes
  sha3Uncles : T → H256
  moved : T → T
  moved_blockData : ∀ t, blockData (moved t) = []

open QueuedBlock

/-- A queue with the size that it has noted. -/
structure SizedBlockQueue (T : Type) where
  queue : List T
  size : BitVec 64

namespace SizedBlockQueue

variable {T : Type} [QueuedBlock T]

/-- The number of bytes of the blocks. -/
def totalSize (l : List T) : ℕ := (l.map fun t => (blockData t).length).sum

section Removal

variable (p : T → Bool)

/-- The loop of `std::remove_if`. The slots are those of the blocks that stay, then those
that may be written, then those that were not looked at. -/
def removeLoop : List T → List T → List T → List T × List T
  | kept, free, [] => (kept, free)
  | kept, free, t :: rest =>
    if p t then removeLoop kept (free ++ [t]) rest
    else
      match free with
      | [] => removeLoop (kept ++ [t]) [] rest
      | _ :: free => removeLoop (kept ++ [t]) (free ++ [moved t]) rest

/-- The blocks that stay, and what is in the slots behind them. -/
def removeIfSlots (l : List T) : List T × List T := removeLoop p [] [] l

end Removal

variable (q : SizedBlockQueue T)

def count : ℕ := q.queue.length

def clear (_ : SizedBlockQueue T) : SizedBlockQueue T := ⟨[], 0⟩

def enqueue (t : T) : SizedBlockQueue T :=
  ⟨q.queue ++ [t], q.size + .ofNat 64 (blockData t).length⟩

/-- The first block; the queue must not be empty. -/
def dequeue : List T × SizedBlockQueue T :=
  match q.queue with
  | [] => ([], q)
  | t :: queue => ([t], ⟨queue, q.size - .ofNat 64 (blockData t).length⟩)

/-- The blocks of a range leave the queue: each takes its size with it. -/
def removeRange (queue removed : List T) : List T × SizedBlockQueue T :=
  (removed, ⟨queue, removed.foldl (fun size t => size - .ofNat 64 (blockData t).length) q.size⟩)

/-- The first blocks; there must be as many. -/
def dequeueMultiple (n : ℕ) : List T × SizedBlockQueue T :=
  q.removeRange (q.queue.drop n) (q.queue.take n)

def removeIf (p : T → Bool) : List T × SizedBlockQueue T :=
  q.removeRange (removeIfSlots p q.queue).1 (removeIfSlots p q.queue).2

def sha3UnclesEquals (hash : H256) (t : T) : Bool := sha3Uncles t = hash

/-- Whether a block was removed. -/
def remove (hash : H256) : Bool × SizedBlockQueue T :=
  let (removed, q') := q.removeIf (sha3UnclesEquals hash)
  (!removed.isEmpty, q')

/-- The size of the block at a place. -/
def sizeAt (l : List T) (i : ℕ) : ℕ := (l[i]?.map fun t => (blockData t).length).getD 0

/-- Puts a block in the place of the first one with the hash. -/
def replace (hash : H256) (t : T) : Bool × SizedBlockQueue T :=
  match q.queue.findIdx? (sha3UnclesEquals hash) with
  | none => (false, q)
  | some i => (true, ⟨q.queue.set i t,
      q.size - .ofNat 64 (sizeAt q.queue i) + .ofNat 64 (blockData t).length⟩)

inductive Op (T : Type) where
  | enqueue (t : T)
  | dequeue
  | dequeueMultiple (n : ℕ)
  | replace (hash : H256) (t : T)
  | clear
  | remove (hash : H256)
  | removeIf (p : T → Bool)

/-- What a call returns. -/
inductive Output (T : Type) where
  | nothing
  | blocks (l : List T)
  | flag (b : Bool)

def step : Op T → Output T × SizedBlockQueue T
  | .enqueue t => (.nothing, q.enqueue t)
  | .dequeue => (.blocks q.dequeue.1, q.dequeue.2)
  | .dequeueMultiple n => (.blocks (q.dequeueMultiple n).1, (q.dequeueMultiple n).2)
  | .replace hash t => (.flag (q.replace hash t).1, (q.replace hash t).2)
  | .clear => (.nothing, q.clear)
  | .remove hash => (.flag (q.remove hash).1, (q.remove hash).2)
  | .removeIf p => (.blocks (q.removeIf p).1, (q.removeIf p).2)

/-- The list with a block in the place of the first one with the hash, and whether there is one. -/
def replaced (l : List T) (hash : H256) (t : T) : Bool × List T :=
  match l.findIdx? (sha3UnclesEquals hash) with
  | none => (false, l)
  | some i => (true, l.set i t)

/-- What a queue is for: the list of its blocks, with nothing said about sizes. -/
def abstractStep (l : List T) : Op T → Output T × List T
  | .enqueue t => (.nothing, l ++ [t])
  | .dequeue => (.blocks (l.take 1), l.drop 1)
  | .dequeueMultiple n => (.blocks (l.take n), l.drop n)
  | .replace hash t => (.flag (replaced l hash t).1, (replaced l hash t).2)
  | .clear => (.nothing, [])
  | .remove hash => (.flag (l.any (sha3UnclesEquals hash)), l.filter fun t => !sha3UnclesEquals hash t)
  | .removeIf p => (.blocks (l.filter p), l.filter fun t => !p t)

/-- The picked blocks whose slots a block that stays is moved into. -/
def overwritten (p : T → Bool) (l : List T) : List T :=
  (l.take (l.length - l.countP p)).filter p

/-- A call on enough blocks. Blocks that are picked by a predicate are the last ones, and
those that are only removed are the last ones or empty. -/
def guard (q : SizedBlockQueue T) : Op T → Prop
  | .dequeue => 1 ≤ q.count
  | .dequeueMultiple n => n ≤ q.count
  | .remove hash => ∀ t ∈ overwritten (sha3UnclesEquals hash) q.queue, blockData t = []
  | .removeIf p => overwritten p q.queue = []
  | _ => True

section Slots

variable {p : T → Bool} {l kept free rest : List T} {t : T}

/-- What is left of a block in a slot that may be written. -/
def husk (p : T → Bool) (t : T) : T := if p t then t else moved t

theorem removeLoop_eq (seen : List T) (hfree : free.length = seen.countP p)
    (hslots : free = (seen.drop (seen.length - seen.countP p)).map (husk p)) :
    removeLoop p (seen.filter fun t => !p t) free rest =
      ((seen ++ rest).filter fun t => !p t,
        ((seen ++ rest).drop ((seen ++ rest).length - (seen ++ rest).countP p)).map (husk p)) := by
  induction rest generalizing seen free with
  | nil => rw [removeLoop, List.append_nil, hslots]
  | cons t rest ih =>
    have hcount : seen.countP p ≤ seen.length := List.countP_le_length
    have hseen : seen ++ t :: rest = (seen ++ [t]) ++ rest := by simp
    rw [hseen]
    by_cases hp : p t = true
    · have hloop : removeLoop p (seen.filter fun t => !p t) free (t :: rest) =
          removeLoop p (seen.filter fun t => !p t) (free ++ [t]) rest := by
        cases free <;> simp [removeLoop, hp]
      rw [hloop, ← ih (seen ++ [t])]
      · rw [List.filter_append, List.filter_cons_of_neg (by simpa using hp), List.filter_nil,
          List.append_nil]
      · simp [hfree, hp]
      · have hone : (seen ++ [t]).length - (seen ++ [t]).countP p =
            seen.length - seen.countP p := by
          simp [List.countP_append, hp]
        rw [hone, List.drop_append_of_le_length (by omega), List.map_append, ← hslots]
        simp [husk, hp]
    · have hlen : (seen ++ [t]).length - (seen ++ [t]).countP p =
          seen.length - seen.countP p + 1 := by
        simp [List.countP_append, hp]
        omega
      have hkept : (seen ++ [t]).filter (fun t => !p t) = seen.filter (fun t => !p t) ++ [t] := by
        simp [List.filter_append, hp]
      cases free with
      | nil =>
        have hzero : seen.countP p = 0 := hfree.symm
        rw [removeLoop, if_neg hp, ← hkept, ih (seen ++ [t])]
        · simp [hzero, List.countP_append, hp]
        · rw [hlen, hzero]
          simp
      | cons u free =>
        have htail : (seen.drop (seen.length - seen.countP p + 1)).map (husk p) = free := by
          rw [← List.tail_drop, List.map_tail, ← hslots, List.tail_cons]
        have hfits : seen.length - seen.countP p + 1 ≤ seen.length := by
          simp only [List.length_cons] at hfree
          omega
        rw [removeLoop, if_neg hp, ← hkept, ih (seen ++ [t])]
        · simp only [List.length_append, List.length_cons, List.length_nil, List.countP_append]
            at hfree ⊢
          simp [hp]
          omega
        · rw [hlen, List.drop_append_of_le_length hfits, List.map_append, htail]
          simp [husk, hp]

/-- The blocks that stay are in order, and the slots behind them hold what is left of the
last blocks. -/
theorem removeIfSlots_eq : removeIfSlots p l =
    (l.filter fun t => !p t, (l.drop (l.length - l.countP p)).map (husk p)) :=
  removeLoop_eq [] rfl rfl

end Slots

section Sizes

variable {q : SizedBlockQueue T} {p : T → Bool} {l l' : List T} {t : T} {hash : H256}

@[simp] theorem totalSize_nil : totalSize ([] : List T) = 0 := rfl

@[simp] theorem totalSize_cons :
    totalSize (t :: l) = (blockData t).length + totalSize l := by
  simp [totalSize]

@[simp] theorem totalSize_append : totalSize (l ++ l') = totalSize l + totalSize l' := by
  simp [totalSize]

theorem totalSize_filter_add (p : T → Bool) (l : List T) :
    totalSize (l.filter fun t => !p t) + totalSize (l.filter p) = totalSize l := by
  induction l with
  | nil => rfl
  | cons t l ih =>
    by_cases hp : p t = true
    · simp only [List.filter_cons, hp, Bool.not_true, Bool.false_eq_true, if_false, if_true,
        totalSize_cons]
      omega
    · simp only [List.filter_cons, hp, Bool.not_false, Bool.false_eq_true, if_false, if_true,
        totalSize_cons]
      omega

/-- The slots weigh as much as the picked blocks in them. -/
theorem totalSize_husks : totalSize (l.map (husk p)) = totalSize (l.filter p) := by
  induction l with
  | nil => rfl
  | cons t l ih =>
    by_cases hp : p t = true
    · simp [husk, hp, ih]
    · simp [husk, hp, ih, moved_blockData]

theorem totalSize_eq_zero : totalSize l = 0 ↔ ∀ t ∈ l, blockData t = [] := by
  induction l with
  | nil => simp
  | cons t l ih => simp [ih]

theorem totalSize_set {i : ℕ} (h : i < l.length) :
    totalSize (l.set i t) + sizeAt l i = totalSize l + (blockData t).length := by
  have hsize : sizeAt l i = (blockData l[i]).length := by
    rw [sizeAt, List.getElem?_eq_getElem h]
    rfl
  have hl : totalSize l = totalSize (l.take i) + ((blockData l[i]).length +
      totalSize (l.drop (i + 1))) := by
    rw [← totalSize_cons, ← List.drop_eq_getElem_cons h, ← totalSize_append,
      List.take_append_drop]
  rw [List.set_eq_take_append_cons_drop, if_pos h, totalSize_append, totalSize_cons, hsize, hl]
  omega

/-- What a removal takes off the size. -/
theorem removeRange_size (queue removed : List T) :
    (q.removeRange queue removed).2.size = q.size - .ofNat 64 (totalSize removed) := by
  show removed.foldl _ q.size = _
  generalize q.size = size
  induction removed generalizing size with
  | nil => simp
  | cons t removed ih =>
    rw [List.foldl_cons, ih, totalSize_cons, BitVec.ofNat_add, BitVec.sub_sub]

/-- The size is the one of the blocks. -/
def Counted (q : SizedBlockQueue T) : Prop := q.size = .ofNat 64 (totalSize q.queue)

theorem counted_removeRange {queue removed : List T} (h : Counted q)
    (hsize : totalSize q.queue = totalSize queue + totalSize removed) :
    Counted (q.removeRange queue removed).2 := by
  unfold Counted
  rw [removeRange_size, h, hsize, BitVec.ofNat_add, BitVec.add_sub_cancel]
  rfl

theorem removeIf_queue : (q.removeIf p).2.queue = q.queue.filter fun t => !p t := by
  show (removeIfSlots p q.queue).1 = _
  rw [removeIfSlots_eq]

theorem counted_removeIf (h : Counted q)
    (hover : ∀ t ∈ overwritten p q.queue, blockData t = []) : Counted (q.removeIf p).2 := by
  refine counted_removeRange h ?_
  have hslots : totalSize (q.queue.filter p) = totalSize (overwritten p q.queue) +
      totalSize ((q.queue.drop (q.queue.length - q.queue.countP p)).filter p) := by
    rw [overwritten, ← totalSize_append, ← List.filter_append, List.take_append_drop]
  rw [totalSize_eq_zero.mpr hover, Nat.zero_add] at hslots
  rw [removeIfSlots_eq, totalSize_husks, ← hslots, totalSize_filter_add]

/-- Picked blocks at the end come out whole. -/
theorem removeIf_blocks (hover : overwritten p q.queue = []) :
    (q.removeIf p).1 = q.queue.filter p := by
  show (removeIfSlots p q.queue).2 = _
  rw [removeIfSlots_eq]
  have hsplit : q.queue.filter p =
      (q.queue.drop (q.queue.length - q.queue.countP p)).filter p := by
    rw [← List.nil_append (List.filter p (List.drop _ _)), ← hover, overwritten,
      ← List.filter_append, List.take_append_drop]
  have hall : ∀ t ∈ q.queue.drop (q.queue.length - q.queue.countP p), p t = true := by
    rw [← List.filter_eq_self, ← List.filter_sublist.length_eq, ← hsplit,
      ← List.countP_eq_length_filter, List.length_drop]
    have := List.countP_le_length (p := p) (l := q.queue)
    omega
  rw [hsplit, List.filter_eq_self.mpr hall]
  refine (List.map_congr_left fun t ht => ?_).trans (List.map_id _)
  simp [husk, hall t ht]

theorem remove_flag : (q.remove hash).1 = q.queue.any (sha3UnclesEquals hash) := by
  show (!(removeIfSlots (sha3UnclesEquals hash) q.queue).2.isEmpty) = _
  have hle := List.countP_le_length (p := sha3UnclesEquals hash) (l := q.queue)
  rw [removeIfSlots_eq, Bool.eq_iff_iff]
  simp only [Bool.not_eq_true', List.isEmpty_eq_false_iff, ne_eq, List.map_eq_nil_iff,
    List.drop_eq_nil_iff, List.any_eq_true]
  rw [← List.countP_pos_iff]
  omega

end Sizes

section Runs

variable {q : SizedBlockQueue T} {op : Op T}

theorem counted_replace (hash : H256) (t : T) (h : Counted q) :
    Counted (q.replace hash t).2 ∧
      ((q.replace hash t).1, (q.replace hash t).2.queue) = replaced q.queue hash t := by
  unfold SizedBlockQueue.replace replaced
  cases hfind : q.queue.findIdx? (sha3UnclesEquals hash) with
  | none => exact ⟨h, rfl⟩
  | some i =>
    obtain ⟨hlt, -⟩ := List.findIdx?_eq_some_iff_getElem.mp hfind
    have hset := congrArg (BitVec.ofNat 64) (totalSize_set (t := t) hlt)
    rw [BitVec.ofNat_add, BitVec.ofNat_add] at hset
    refine ⟨?_, rfl⟩
    show q.size - _ + _ = _
    rw [h, BitVec.sub_add_comm, ← hset, BitVec.add_sub_cancel]

/-- A guarded call returns and leaves what the abstract queue does, and keeps the size. -/
theorem step_spec (h : Counted q) (hg : guard q op) : Counted (q.step op).2 ∧
    ((q.step op).1, (q.step op).2.queue) = abstractStep q.queue op := by
  cases op with
  | enqueue t =>
    refine ⟨?_, rfl⟩
    show q.size + _ = BitVec.ofNat 64 (totalSize (q.queue ++ [t]))
    rw [h, totalSize_append, totalSize_cons, totalSize_nil, Nat.add_zero, BitVec.ofNat_add]
  | dequeue =>
    obtain ⟨queue, size⟩ := q
    cases queue with
    | nil => cases hg
    | cons t queue =>
      refine ⟨?_, rfl⟩
      have hsize : size = .ofNat 64 (totalSize (t :: queue)) := h
      show size - _ = BitVec.ofNat 64 (totalSize queue)
      rw [hsize, totalSize_cons, Nat.add_comm, BitVec.ofNat_add, BitVec.add_sub_cancel]
  | dequeueMultiple n =>
    refine ⟨counted_removeRange h ?_, rfl⟩
    rw [← Nat.add_comm, ← totalSize_append, List.take_append_drop]
  | replace hash t =>
    obtain ⟨hcounted, hreplaced⟩ := counted_replace hash t h
    refine ⟨hcounted, ?_⟩
    show _ = (Output.flag (replaced q.queue hash t).1, (replaced q.queue hash t).2)
    rw [← hreplaced]
    rfl
  | clear => exact ⟨rfl, rfl⟩
  | remove hash =>
    refine ⟨counted_removeIf h hg, ?_⟩
    show (Output.flag (q.remove hash).1, (q.removeIf _).2.queue) = _
    rw [remove_flag, removeIf_queue]
    rfl
  | removeIf p =>
    have hover : overwritten p q.queue = [] := hg
    refine ⟨counted_removeIf h (by simp [hover]), ?_⟩
    show (Output.blocks (q.removeIf p).1, (q.removeIf p).2.queue) = _
    rw [removeIf_blocks hover, removeIf_queue]
    rfl

/-- The queue after the calls. -/
def run (ops : List (Op T)) : SizedBlockQueue T := runFrom (fun q op => (q.step op).2) ⟨[], 0⟩ ops

/-- The blocks that are in the queue after the calls. -/
def abstractRun (ops : List (Op T)) : List T := runFrom (fun l op => (abstractStep l op).2) [] ops

/-- After the calls the queue holds the right blocks and their size, and every call returned
the right blocks. -/
structure Accounted (ops : List (Op T)) : Prop where
  queue : (run ops).queue = abstractRun ops
  count : (run ops).count = (abstractRun ops).length
  size : (run ops).size = .ofNat 64 (totalSize (abstractRun ops))
  outputs : ∀ before op after, ops = before ++ op :: after →
    ((run before).step op).1 = (abstractStep (abstractRun before) op).1

theorem run_queue {ops : List (Op T)}
    (h : Guarded (fun q op => (SizedBlockQueue.step q op).2) guard ⟨[], 0⟩ ops) :
    Counted (run ops) ∧ (run ops).queue = abstractRun ops := by
  induction ops using List.reverseRecOn with
  | nil => exact ⟨rfl, rfl⟩
  | append_singleton ops op ih =>
    obtain ⟨hops, hop, -⟩ := guarded_append.mp h
    obtain ⟨hcounted, hqueue⟩ := ih hops
    obtain ⟨hcounted', hstep⟩ := step_spec hcounted hop
    have hrun : run (ops ++ [op]) = ((run ops).step op).2 := runFrom_append
    have habstract : abstractRun (ops ++ [op]) = (abstractStep (abstractRun ops) op).2 :=
      runFrom_append
    rw [hrun, habstract, ← hqueue]
    exact ⟨hcounted', (Prod.ext_iff.mp hstep).2⟩

/-- In a run in which removals only pick the last blocks, the queue is right throughout. -/
theorem queue_accounted (ops : List (Op T))
    (h : Guarded (fun q op => (SizedBlockQueue.step q op).2) guard ⟨[], 0⟩ ops) :
    Accounted ops := by
  obtain ⟨hcounted, hqueue⟩ := run_queue h
  refine ⟨hqueue, congrArg List.length hqueue, hqueue ▸ hcounted, ?_⟩
  rintro before op after rfl
  obtain ⟨hbefore, hop, -⟩ := guarded_append.mp h
  obtain ⟨hcounted, hqueue⟩ := run_queue hbefore
  rw [← hqueue]
  exact (Prod.ext_iff.mp (step_spec hcounted hop).2).1

end Runs

/-- A verified block, as far as a queue looks at it. -/
structure VerifiedEntry where
  sha3Uncles : H256
  blockData : Bytes
  deriving DecidableEq

instance : QueuedBlock VerifiedEntry where
  blockData := VerifiedEntry.blockData
  sha3Uncles := VerifiedEntry.sha3Uncles
  moved t := { t with blockData := [] }
  moved_blockData _ := rfl

def entryA : VerifiedEntry := ⟨.ofNat 1, [1, 2]⟩

def entryB : VerifiedEntry := ⟨.ofNat 2, [3]⟩

/-- Two blocks are queued, and the last one is removed. -/
def lastRemoved : List (Op VerifiedEntry) :=
  [.enqueue entryA, .enqueue entryB, .removeIf fun t => t = entryB, .dequeue]

theorem queue_accounted_last : Accounted lastRemoved :=
  queue_accounted lastRemoved ⟨trivial, trivial, rfl, Nat.le_refl 1, trivial⟩

/-- When the first of two blocks is picked, the other one is handed out without its data, and
the size of the picked one stays. -/
theorem queue_unaccounted :
    ((run [.enqueue entryA, .enqueue entryB]).removeIf fun t => t = entryA).1 =
        [{ entryB with blockData := [] }] ∧
      ¬ Accounted [.enqueue entryA, .enqueue entryB, .removeIf fun t => t = entryA] := by
  refine ⟨by decide +kernel, ?_⟩
  intro h
  exact absurd h.size (by decide +kernel)

end SizedBlockQueue
end XChain
