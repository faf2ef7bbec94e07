import XChain.LogFilter

/-!
# Looking for logs

The client goes through the pending block, the blocks that were reverted and those of
the main chain whose bloom covers something that the filter asks for. The chain is a
parameter; of its index of blooms it is taken that it finds exactly the blocks whose
bloom covers the given one.
-/
namespace XChain

open LogBloom LogFilter

def PendingBlockHash : H256 := .ofNat 0

def EarliestBlockHash : H256 := .ofNat 1

def LatestBlockHash : H256 := .ofNat 2

inductive BlockPolarity where
  | Unknown
  | Dead
  | Live
  deriving DecidableEq

/-- Where a mined entry stands. -/
structure LogPlace where
  blockHash : H256
  blockNumber : ℕ
  transactionHash : H256
  transactionIndex : ℕ
  logIndex : ℕ
  polarity : BlockPolarity

/-- An entry, with its place when it is mined. -/
structure LocalisedLogEntry where
  entry : LogEntry
  place : Option LogPlace

/-- What the client asks the chain. The two largest block numbers stand for the latest and
the pending block. -/
structure BlockChain where
  number : ℕ
  number_lt : number + 2 < 2 ^ 32
  numberOf : H256 → ℕ
  numberHash : ℕ → H256
  receipts : H256 → List TransactionReceipt
  transactionHash : H256 → ℕ → H256
  treeRoute : H256 → H256 → List H256 × H256 × ℕ
  blockBloom : ℕ → LogBloom

namespace BlockChain

variable (c : BlockChain) (sha3 : Bytes → H256) (f : LogFilter)

/-- The blocks from `earliest` to `latest` whose bloom covers the given one. -/
def withBlockBloom (b : LogBloom) (earliest latest : ℕ) : List ℕ :=
  (List.range' earliest (latest + 1 - earliest)).filter fun n => contains (c.blockBloom n) b

def numberFromHash (h : H256) : ℕ :=
  if h = PendingBlockHash then (c.number + 1) % 2 ^ 32
  else if h = LatestBlockHash then c.number
  else if h = EarliestBlockHash then 0
  else c.numberOf h

/-- The number to begin with, which is past the chain for the pending block. -/
def first : ℕ := min ((c.number + 1) % 2 ^ 32) (c.numberFromHash f.latest)

/-- The number to end with. -/
def last : ℕ :=
  min (min c.number (min (c.first f) (c.numberFromHash f.earliest)))
    ((c.numberFromHash (c.treeRoute f.earliest f.latest).2.1 + 1) % 2 ^ 32)

/-- The blocks of the main chain that are looked at. -/
def matchingBlocks : Finset ℕ :=
  let first := if c.number < c.first f then c.number else c.first f
  if f.isRangeFilter then (List.range' (c.last f) (first + 1 - c.last f)).toFinset
  else ((f.bloomPossibilities sha3).flatMap fun b => c.withBlockBloom b (c.last f) first).toFinset

/-- The matching entries of a block, the last one first, in front of those found before. -/
def prependLogsFromBlock (blockHash : H256) (polarity : BlockPolarity)
    (ret : List LocalisedLogEntry) : Option (List LocalisedLogEntry) :=
  (c.receipts blockHash).zipIdx.foldlM (fun ret r => do
    let le ← f.matchesReceipt sha3 r.1
    pure (le.foldl (fun ret e => ⟨e, some
      { blockHash := blockHash
        blockNumber := c.numberOf blockHash
        transactionHash := c.transactionHash blockHash r.2
        transactionIndex := r.2
        logIndex := 0
        polarity := polarity }⟩ :: ret) ret)) ret

/-- The matching entries of the pending block. -/
def pendingLogs (pending : List TransactionReceipt) : Option (List LocalisedLogEntry) :=
  pending.foldlM (fun ret r => do
    let le ← f.matchesReceipt sha3 r
    pure (le.foldl (fun ret e => ⟨e, none⟩ :: ret) ret)) []

def logs (pending : List TransactionReceipt) : Option (List LocalisedLogEntry) := do
  let ret ← (if c.number < c.first f then pendingLogs sha3 f pending else some [])
  let (blocks, _, ancestorIndex) := c.treeRoute f.earliest f.latest
  let ret ← (blocks.take ancestorIndex).foldlM (fun ret b => c.prependLogsFromBlock sha3 f b .Dead ret) ret
  let ret ← ((c.matchingBlocks sha3 f).sort (· ≤ ·)).foldlM
    (fun ret n => c.prependLogsFromBlock sha3 f (c.numberHash n) .Live ret) ret
  pure ret.reverse

/-- The entries of a block of the main chain. -/
def logsOf (n : ℕ) : List LogEntry := (c.receipts (c.numberHash n)).flatMap TransactionReceipt.log

/-- The blooms of the blocks are those of their entries. -/
def Blooms : Prop :=
  ∀ n ≤ c.number, c.blockBloom n = join ((c.logsOf n).map (LogEntry.bloom sha3))

section Range

variable {c sha3 f} {n : ℕ}

theorem last_le (he : c.numberFromHash f.earliest ≤ n) : c.last f ≤ n := by
  unfold last
  omega

theorem le_first (hn : n ≤ c.number) (hl : n ≤ c.numberFromHash f.latest) :
    n ≤ if c.number < c.first f then c.number else c.first f := by
  have hlt := c.number_lt
  have hmod : (c.number + 1) % 2 ^ 32 = c.number + 1 := Nat.mod_eq_of_lt (by omega)
  unfold first
  rw [hmod]
  split_ifs
  · exact hn
  · omega

/-- The blocks of the range are looked at if their bloom covers something that is asked for. -/
theorem mem_matchingBlocks (hn : n ≤ c.number) (he : c.numberFromHash f.earliest ≤ n)
    (hl : n ≤ c.numberFromHash f.latest) : n ∈ c.matchingBlocks sha3 f ↔
      f.isRangeFilter = true ∨ ∃ p ∈ f.bloomPossibilities sha3, contains (c.blockBloom n) p = true := by
  have hlast := last_le he
  have hfirst := le_first hn hl
  have hrange : ∀ m, n ≤ m → n ∈ List.range' (c.last f) (m + 1 - c.last f) := by
    intro m hm
    rw [List.mem_range'_1]
    omega
  unfold matchingBlocks
  dsimp only
  by_cases hf : f.isRangeFilter = true
  · rw [if_pos hf, List.mem_toFinset]
    exact iff_of_true (hrange _ hfirst) (Or.inl hf)
  · rw [if_neg hf, List.mem_toFinset, List.mem_flatMap]
    simp only [withBlockBloom, List.mem_filter, hrange _ hfirst, true_and, hf, Bool.false_eq_true,
      false_or]

end Range

section Complete

variable {f}

theorem contains_join_mem {l : List LogEntry} {e : LogEntry} (he : e ∈ l) :
    contains (join (l.map (LogEntry.bloom sha3))) (e.bloom sha3) = true :=
  join_contains (List.mem_map_of_mem he)

theorem join_singleton (b : LogBloom) : join [b] = b := by
  simp [join]

/-- A chain of one block with one entry. -/
def single (b : LogBloom) (e : LogEntry) : BlockChain where
  number := 0
  number_lt := by norm_num
  numberOf := fun _ => 0
  numberHash := fun _ => .zero
  receipts := fun _ => [⟨.zero, 0, b, [e]⟩]
  transactionHash := fun _ _ => .zero
  treeRoute := fun _ _ => ([], .zero, 0)
  blockBloom := fun _ => b

theorem single_numberFromHash (b : LogBloom) (e : LogEntry) {h : H256} (hh : h ≠ PendingBlockHash) :
    (single b e).numberFromHash h = 0 := by
  unfold numberFromHash
  rw [if_neg hh]
  split_ifs <;> rfl

/-- Nothing that matches is overlooked, exactly when no set of topics splits the positions
of the filter. -/
theorem filter_complete_exact (f : LogFilter) :
    ((∀ (sha3 : Bytes → H256) (l : List LogEntry), (∃ e ∈ l, f.Matches e) →
      ∃ p ∈ f.bloomPossibilities sha3, contains (join (l.map (LogEntry.bloom sha3))) p = true) ↔
        f.isRangeFilter = false ∧ ¬ f.Splittable) ∧
    ((∀ (sha3 : Bytes → H256) (c : BlockChain), c.Blooms sha3 → ∀ n ≤ c.number,
      c.numberFromHash f.earliest ≤ n → n ≤ c.numberFromHash f.latest →
        (∃ e ∈ c.logsOf n, f.Matches e) → n ∈ c.matchingBlocks sha3 f) ↔
      f.earliest = PendingBlockHash ∨ ¬ f.Splittable) := by
  constructor
  · constructor
    · intro hall
      constructor
      · by_contra hrange
        rw [Bool.not_eq_false] at hrange
        obtain ⟨haddr, hpos⟩ := isRangeFilter_iff.mp hrange
        have hmatch : f.Matches ⟨0, [], []⟩ := by
          refine ⟨Or.inl haddr, fun i t hi hne => ?_⟩
          have ht := mem_positions.mpr ⟨List.mem_of_getElem? hi, hne⟩
          rw [hpos] at ht
          cases ht
        obtain ⟨p, hp, -⟩ := hall (fun _ => .zero) _ ⟨_, List.mem_singleton_self _, hmatch⟩
        rw [bloomPossibilities_topics haddr, hpos] at hp
        cases hp
      · rintro ⟨hpos, X, hX⟩
        obtain ⟨e, hmatch, hnone⟩ := hX.entry hpos
        obtain ⟨p, hp, hcover⟩ := hall (splitHash f X) [e] ⟨e, List.mem_singleton_self e, hmatch⟩
        rw [List.map_singleton, join_singleton, hnone p hp] at hcover
        cases hcover
    · rintro ⟨hrange, hsplit⟩ sha3 l ⟨e, he, hmatch⟩
      exact hmatch.possibility (contains_join_mem sha3 he) hrange hsplit
  · constructor
    · intro hall
      by_cases hpending : f.earliest = PendingBlockHash
      · exact Or.inl hpending
      refine Or.inr ?_
      rintro ⟨hpos, X, hX⟩
      obtain ⟨e, hmatch, hnone⟩ := hX.entry hpos
      let c := single (e.bloom (splitHash f X)) e
      have hearliest : c.numberFromHash f.earliest ≤ 0 :=
        (single_numberFromHash _ e hpending).le
      have hblooms : c.Blooms (splitHash f X) := fun n _ => (join_singleton _).symm
      have hmem := hall (splitHash f X) c hblooms 0 (Nat.zero_le _) hearliest (Nat.zero_le _)
        ⟨e, List.mem_singleton_self e, hmatch⟩
      rw [mem_matchingBlocks (Nat.zero_le _) hearliest (Nat.zero_le _)] at hmem
      rcases hmem with hrange | ⟨p, hp, hcover⟩
      · exact hpos (isRangeFilter_iff.mp hrange).2
      · have hfalse : contains (e.bloom (splitHash f X)) p = true := hcover
        rw [hnone p hp] at hfalse
        cases hfalse
    · intro hgood sha3 c hblooms n hn he hl hlog
      obtain ⟨e, hmem, hmatch⟩ := hlog
      rw [mem_matchingBlocks hn he hl]
      rcases hgood with hpending | hsplit
      · -- The pending block is none of the main chain.
        have hlt := c.number_lt
        rw [hpending, numberFromHash, if_pos rfl, Nat.mod_eq_of_lt (by omega)] at he
        omega
      · by_cases hrange : f.isRangeFilter = true
        · exact Or.inl hrange
        · refine Or.inr (hmatch.possibility ?_ (Bool.eq_false_iff.mpr hrange) hsplit)
          rw [hblooms n hn]
          exact contains_join_mem sha3 hmem

/-- Any entry whose first topic is one of two. -/
def oneOfTwo : LogFilter where
  addresses := []
  topics := #v[[.ofNat 10, .ofNat 11], [], [], []]
  earliest := EarliestBlockHash
  latest := LatestBlockHash

/-- An entry with the first of the topics. -/
def firstOfTwo : LogEntry := ⟨7, [.ofNat 10], []⟩

/-- A hash function that keeps the second topic from everything else. -/
def apart (b : Bytes) : H256 := if b = (H256.ofNat 11).bytes then nextHash else lowHash

/-- The entry matches, and the bloom of its block covers nothing that is asked for. -/
theorem oneOfTwo_overlooked : oneOfTwo.Matches firstOfTwo ∧
    ∀ p ∈ oneOfTwo.bloomPossibilities apart,
      contains (join ([firstOfTwo].map (LogEntry.bloom apart))) p = false := by
  have hfirst : apart (H256.ofNat 10).bytes = lowHash := by decide
  have hsecond : apart (H256.ofNat 11).bytes = nextHash := by decide
  have haddress : apart (Rlp.fixedBytes 20 firstOfTwo.address.toNat) = lowHash := by decide
  refine ⟨matchesEntry_eq_true.mp (by decide), fun p hp => ?_⟩
  obtain rfl : p = shiftTopics apart 0 [.ofNat 10, .ofNat 11] := by
    have hpossible : oneOfTwo.bloomPossibilities apart =
        [shiftTopics apart 0 [.ofNat 10, .ofNat 11]] := bloomPossibilities_topics rfl
    rw [hpossible] at hp
    exact List.mem_singleton.mp hp
  have hlow : contains (bloomPart lowHash) (firstOfTwo.bloom apart) = true := by
    refine contains_shiftTopics.mpr ⟨contains_or.mpr ⟨contains_zero _, ?_⟩, fun x hx => ?_⟩
    · rw [haddress]
      exact contains_refl _
    · obtain rfl : x = .ofNat 10 := List.mem_singleton.mp hx
      rw [hfirst]
      exact contains_refl _
  rw [List.map_singleton, join_singleton]
  by_contra hcover
  rw [Bool.not_eq_false, contains_shiftTopics] at hcover
  have hnext := hcover.2 (.ofNat 11) (by simp)
  rw [hsecond] at hnext
  have habsurd := contains_trans hlow hnext
  rw [lowHash_covers_not] at habsurd
  cases habsurd

end Complete

end BlockChain
end XChain
