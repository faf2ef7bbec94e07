import Mathlib.Algebra.BigOperators.Ring.Finset
import Mathlib.Algebra.Order.BigOperators.Group.List
import XChain.HeaderMemo
import XChain.KeyTally
import XChain.TransactionRlp

/-!
# The gas pricer

The prices of the last blocks are weighed by gas, and a price is suggested from their mean and
their deviation. The gas in a receipt is what the block had used up to it, and this is what a
price is weighed by.
-/
namespace XChain

open Rlp

/-- What the gas pricer asks the chain. There is no header of an unknown block. -/
structure PricedChain where
  currentHash : H256
  info : H256 → Option BlockHeader
  block : H256 → Bytes
  receipts : H256 → List TransactionReceipt

/-- The prices in their order, each with its weight. -/
abbrev Dist := List (Word × Word)

/-- The number of blocks that are looked at. -/
def c_sampledBlocks : ℕ := 1000

/-- The gas price and the receipt's gas of each transaction of a block. -/
abbrev SampledBlock := List (Word × Word)

structure BasicGasPricer where
  m_gasPerBlock : Word
  m_octiles : Fin 9 → Word

namespace BasicGasPricer

section Update

variable (sha3 : Bytes → H256) (recover : SignatureStruct → H256 → Option Address)

/-- The items of a block that are its transactions. There are none in what is no list. -/
def transactionItems (block : Bytes) : Option (List Item) :=
  (decodeStrict block).map fun r =>
    match get? r 1 with
    | some (.list l) => l
    | _ => []

/-- The gas price of the transaction in an item. -/
def priceOf (tr : Item) : Option Word :=
  match Transaction.ofBytes sha3 recover .None (encode tr) with
  | .ok tx => some tx.gasPrice
  | .error _ => none

/-- Weighs the transactions of a block from a place on. -/
def weigh (receipts : List TransactionReceipt) : ℕ → List Item → Dist × Word → Option (Dist × Word)
  | _, [], s => some s
  | i, tr :: trs, (dist, total) => do
    let gasPrice ← priceOf sha3 recover tr
    let brs ← receipts[i]?
    let gu := brs.gasUsed
    weigh receipts (i + 1) trs (addWeight gasPrice gu dist, total + gu)

/-- Weighs the blocks from one on, back to the first one or for a number of blocks. -/
def sample (bc : PricedChain) : ℕ → H256 → Dist × Word → Option (Dist × Word)
  | 0, _, s => some s
  | c + 1, p, s =>
    if p = .zero then some s
    else do
      let bi ← bc.info p
      let s ← if bi.transactionsRoot ≠ EmptyTrie sha3 then do
          let trs ← transactionItems (bc.block p)
          weigh sha3 recover (bc.receipts (bi.hash sha3 .WithSeal).1) 0 trs s
        else some s
      sample bc c bi.parentHash s

/-- The distribution of the prices, and the total. -/
def distribution (bc : PricedChain) : Option (Dist × Word) :=
  sample sha3 recover bc c_sampledBlocks bc.currentHash ([], 0)

def mean (dist : Dist) (total : Word) : Word := (dist.map fun i => i.1 * i.2).sum / total

/-- The sum of the squares of the deviations by their weights. -/
def deviations (dist : Dist) (mean : Word) : Word :=
  (dist.map fun i => i.2 * (i.1 - mean) * (i.1 - mean)).sum

/-- The octiles. `quantile` is computed in floating point from the mean and the square of the
deviation. -/
def octiles (quantile : Word → Word → Fin 9 → Word) (old : Fin 9 → Word) (dist : Dist)
    (total : Word) : Fin 9 → Word :=
  if 0 < total then
    let mean := mean dist total
    let sdSquared := deviations dist mean / total
    if sdSquared ≠ 0 then fun i =>
      if i = 0 then (dist.head?.map Prod.fst).getD 0
      else if i = 8 then (dist.getLast?.map Prod.fst).getD 0
      else quantile mean sdSquared i
    else fun i => BitVec.ofNat 256 (i + 1) * mean / 5
  else old

def update (quantile : Word → Word → Fin 9 → Word) (g : BasicGasPricer) (bc : PricedChain) :
    Option BasicGasPricer := do
  let bi ← bc.info bc.currentHash
  let (dist, total) ← distribution sha3 recover bc
  return ⟨bi.gasLimit, octiles quantile g.m_octiles dist total⟩

/-- The transactions of a block with their receipts, of which there is one for each. -/
def readBlock (receipts : List TransactionReceipt) (trs : List Item) : Option SampledBlock :=
  if receipts.length = trs.length then
    (trs.zip receipts).mapM fun x => (priceOf sha3 recover x.1).map fun p => (p, x.2.gasUsed)
  else none

/-- The blocks that are looked at, from one on. -/
def samplesFrom (bc : PricedChain) : ℕ → H256 → Option (List SampledBlock)
  | 0, _ => some []
  | c + 1, p =>
    if p = .zero then some []
    else do
      let bi ← bc.info p
      let rest ← samplesFrom bc c bi.parentHash
      if bi.transactionsRoot ≠ EmptyTrie sha3 then do
        let trs ← transactionItems (bc.block p)
        let b ← readBlock sha3 recover (bc.receipts (bi.hash sha3 .WithSeal).1) trs
        return b :: rest
      else return rest

def samples (bc : PricedChain) : Option (List SampledBlock) :=
  samplesFrom sha3 recover bc c_sampledBlocks bc.currentHash

end Update

section Consumed

/-- What each transaction consumed, after a given amount of gas. -/
def consumedFrom : ℤ → SampledBlock → List (Word × ℤ)
  | _, [] => []
  | before, (p, g) :: rest => (p, g.toNat - before) :: consumedFrom g.toNat rest

/-- The gas that a block used. -/
def blockGas (b : SampledBlock) : ℤ := ((b.getLast?.map fun x => x.2.toNat).getD 0 : ℕ)

variable (blocks : List SampledBlock)

/-- All transactions with what they consumed. -/
def consumed : List (Word × ℤ) := blocks.flatMap (consumedFrom 0)

def consumedAt (p : Word) : ℤ := (((consumed blocks).filter fun x => x.1 = p).map Prod.snd).sum

def totalGas : ℤ := (blocks.map blockGas).sum

/-- The mean of the prices, rounded down. -/
def exactMean : ℤ := ((consumed blocks).map fun x => (x.1.toNat : ℤ) * x.2).sum / totalGas blocks

def exactDeviations : ℤ :=
  ((consumed blocks).map fun x => (x.1.toNat - exactMean blocks) ^ 2 * x.2).sum

/-- The sum of what stands beside the prices. -/
def weightSum (l : List (Word × Word)) : ℕ := (l.map fun x => x.2.toNat).sum

/-- The sums that stay below the size of a word. -/
structure Small : Prop where
  gas : weightSum blocks.flatten < 2 ^ 256
  prices : ((consumed blocks).map fun x => (x.1.toNat : ℤ) * x.2).sum < 2 ^ 256
  deviations : exactDeviations blocks < 2 ^ 256

/-- Prices are weighed by what was consumed, and the mean and the deviations are exact. -/
structure Exact (dist : Dist) (total : Word) : Prop where
  ordered : Ordered dist
  weights : ∀ p, (weightAt dist p).toNat = consumedAt blocks p
  sumOfWeights : weightSum dist = totalGas blocks
  sampledGas : total.toNat = totalGas blocks
  rightMean : 0 < total → (mean dist total).toNat = exactMean blocks
  rightDeviations : 0 < total →
    (deviations dist (mean dist total)).toNat = exactDeviations blocks
  rightVariance : 0 < total → (deviations dist (mean dist total) / total).toNat
    = exactDeviations blocks / totalGas blocks

end Consumed

section Loops

variable {sha3 : Bytes → H256} {recover : SignatureStruct → H256 → Option Address}

/-- The loop over a block that can be read weighs what was read. -/
theorem weigh_of_readBlock (before : List TransactionReceipt) {after : List TransactionReceipt}
    {trs : List Item} {b : SampledBlock} (h : readBlock sha3 recover after trs = some b)
    (dist : Dist) (total : Word) :
    weigh sha3 recover (before ++ after) before.length trs (dist, total)
      = some (tally b dist, total + (b.map Prod.snd).sum) := by
  induction trs generalizing before after b dist total with
  | nil =>
    obtain ⟨-, h⟩ := Option.ite_none_right_eq_some.mp h
    obtain rfl : b = [] := by simpa using h.symm
    simp [weigh, tally]
  | cons tr trs ih =>
    obtain ⟨hlen, h⟩ := Option.ite_none_right_eq_some.mp h
    cases after with
    | nil => simp at hlen
    | cons r after =>
      rw [List.zip_cons_cons, List.mapM_cons] at h
      obtain ⟨x, hx, h⟩ := Option.bind_eq_some_iff.mp h
      obtain ⟨b', hb', h⟩ := Option.bind_eq_some_iff.mp h
      obtain rfl := Option.some.inj h
      obtain ⟨p, hp, rfl⟩ := Option.map_eq_some_iff.mp hx
      have hrest : readBlock sha3 recover after trs = some b' := by
        rw [readBlock, if_pos (by simpa using hlen)]
        exact hb'
      have hrun := ih (before ++ [r]) hrest (addWeight p r.gasUsed dist) (total + r.gasUsed)
      rw [List.append_assoc, List.length_append, List.length_singleton] at hrun
      have hget : (before ++ r :: after)[before.length]? = some r := by simp
      simp only [weigh, hp, hget, Option.bind_eq_bind, Option.bind_some]
      rw [List.map_cons, List.sum_cons, ← add_assoc]
      exact hrun

/-- The loop over blocks that can be read weighs what was read. -/
theorem sample_of_samples {bc : PricedChain} {c : ℕ} {p : H256} {blocks : List SampledBlock}
    (h : samplesFrom sha3 recover bc c p = some blocks) (dist : Dist) (total : Word) :
    sample sha3 recover bc c p (dist, total)
      = some (tally blocks.flatten dist, total + (blocks.flatten.map Prod.snd).sum) := by
  induction c generalizing p blocks dist total with
  | zero =>
    obtain rfl := Option.some.inj h
    simp [sample, tally]
  | succ c ih =>
    rw [samplesFrom] at h
    rw [sample]
    by_cases hp : p = .zero
    · rw [if_pos hp] at h ⊢
      obtain rfl := Option.some.inj h
      simp [tally]
    · rw [if_neg hp] at h ⊢
      obtain ⟨bi, hbi, h⟩ := Option.bind_eq_some_iff.mp h
      obtain ⟨rest, hrest, h⟩ := Option.bind_eq_some_iff.mp h
      by_cases hroot : bi.transactionsRoot ≠ EmptyTrie sha3
      · rw [if_pos hroot] at h
        obtain ⟨trs, htrs, h⟩ := Option.bind_eq_some_iff.mp h
        obtain ⟨b, hb, h⟩ := Option.bind_eq_some_iff.mp h
        obtain rfl := Option.some.inj h
        have hweigh := weigh_of_readBlock [] hb dist total
        rw [List.nil_append, List.length_nil] at hweigh
        simp only [hbi, if_pos hroot, htrs, hweigh, Option.bind_eq_bind, Option.bind_some]
        rw [ih hrest]
        simp [tally, add_assoc]
      · rw [if_neg hroot] at h
        obtain rfl := Option.some.inj h
        simp only [hbi, if_neg hroot, Option.bind_eq_bind, Option.bind_some]
        exact ih hrest dist total

theorem distribution_of_samples {bc : PricedChain} {blocks : List SampledBlock}
    (h : samples sha3 recover bc = some blocks) : distribution sha3 recover bc
      = some (tally blocks.flatten [], (blocks.flatten.map Prod.snd).sum) := by
  rw [distribution, sample_of_samples h, zero_add]

end Loops

section Sums

variable {blocks : List SampledBlock}

theorem sum_consumedFrom (before : ℤ) (b : SampledBlock) :
    ((consumedFrom before b).map Prod.snd).sum
      = (b.getLast?.map fun x => (x.2.toNat : ℤ)).getD before - before := by
  induction b generalizing before with
  | nil => simp [consumedFrom]
  | cons x b ih =>
    obtain ⟨p, g⟩ := x
    rw [consumedFrom, List.map_cons, List.sum_cons, ih, List.getLast?_cons]
    cases b.getLast? <;> simp

theorem sum_consumed : ((consumed blocks).map Prod.snd).sum = totalGas blocks := by
  induction blocks with
  | nil => simp [consumed, totalGas]
  | cons b blocks ih =>
    have hblock : blockGas b = ((consumedFrom 0 b).map Prod.snd).sum := by
      rw [sum_consumedFrom, blockGas]
      cases b.getLast? <;> simp
    rw [totalGas, List.map_cons, List.sum_cons, hblock, ← totalGas, ← ih, consumed, consumed,
      List.flatMap_cons, List.map_append, List.sum_append]

/-- What is added up for a block beside what it used. -/
theorem weightSum_eq (b : SampledBlock) : (weightSum b : ℤ) = blockGas b + weightSum b.dropLast := by
  rcases List.eq_nil_or_concat b with rfl | ⟨front, x, rfl⟩
  · simp [blockGas, weightSum]
  · simp [blockGas, weightSum, add_comm]

theorem weightSum_flatten : (weightSum blocks.flatten : ℤ)
    = totalGas blocks + (blocks.map fun b => weightSum b.dropLast).sum := by
  induction blocks with
  | nil => simp [weightSum, totalGas]
  | cons b blocks ih =>
    have hsplit : weightSum (b ++ blocks.flatten) = weightSum b + weightSum blocks.flatten := by
      simp [weightSum]
    rw [List.flatten_cons, hsplit, Nat.cast_add, ih, weightSum_eq]
    simp [totalGas]
    ring

/-- Where only the last receipts have gas, the receipts tell what was consumed. -/
theorem consumedFrom_eq {b : SampledBlock} (h : ∀ x ∈ b.dropLast, x.2 = 0) :
    consumedFrom 0 b = b.map fun x => (x.1, (x.2.toNat : ℤ)) := by
  induction b with
  | nil => simp [consumedFrom]
  | cons x b ih =>
    obtain ⟨p, g⟩ := x
    cases b with
    | nil => simp [consumedFrom]
    | cons y b =>
      have hzero : g = 0 := h (p, g) (by simp)
      rw [consumedFrom, hzero]
      have hrest := ih fun z hz => h z (by simp [hz])
      simpa using hrest

end Sums

section Exactness

variable {sha3 : Bytes → H256} {recover : SignatureStruct → H256 → Option Address}
  {bc : PricedChain} {blocks : List SampledBlock}

theorem toNat_sum {l : List (Word × Word)} (h : weightSum l < 2 ^ 256) :
    (l.map Prod.snd).sum.toNat = weightSum l := by
  have hcast : (l.map Prod.snd).sum = ((weightSum l : ℤ) : Word) := by
    rw [Int.cast_natCast]
    clear h
    induction l with
    | nil => simp [weightSum]
    | cons x l ih =>
      have hx : ((x.2.toNat : ℕ) : Word) = x.2 := by
        rw [← Int.cast_natCast, intCast_toNat]
      rw [List.map_cons, List.sum_cons, ih]
      simp [weightSum, hx]
  have hexact := toNat_of_cast hcast (Int.natCast_nonneg _) (by exact_mod_cast h)
  exact_mod_cast hexact

/-- If the total is right, only the last receipts of the blocks have gas. -/
theorem zero_of_total (hs : Small blocks)
    (h : ((blocks.flatten.map Prod.snd).sum.toNat : ℤ) = totalGas blocks) :
    ∀ b ∈ blocks, ∀ x ∈ b.dropLast, x.2 = 0 := by
  rw [toNat_sum hs.gas, weightSum_flatten] at h
  have hzero : (blocks.map fun b => weightSum b.dropLast).sum = 0 := by omega
  intro b hb x hx
  have hb0 : weightSum b.dropLast = 0 :=
    List.sum_eq_zero_iff_forall_eq_nat.mp hzero _ (List.mem_map_of_mem hb)
  have hx0 : x.2.toNat = 0 := List.sum_eq_zero_iff_forall_eq_nat.mp hb0 _ (List.mem_map_of_mem hx)
  exact BitVec.eq_of_toNat_eq hx0

/-- No weight of the distribution has wrapped. -/
theorem weightSum_tally (hs : Small blocks) :
    weightSum (tally blocks.flatten []) = weightSum blocks.flatten := by
  let exact := tally (blocks.flatten.map fun x => (x.1, x.2.toNat)) []
  have hcast : exact.map (fun x => (x.1, (x.2 : Word))) = tally blocks.flatten [] := by
    have hmap := tally_map (Nat.castAddMonoidHom Word)
      (blocks.flatten.map fun x => (x.1, x.2.toNat)) (l := [])
    rw [List.map_map] at hmap
    have hid : blocks.flatten.map ((fun x => (x.1, Nat.castAddMonoidHom Word x.2)) ∘
        fun x : Word × Word => (x.1, x.2.toNat)) = blocks.flatten := by
      simp [Function.comp_def]
    rw [hid] at hmap
    exact hmap.symm
  have hexact : (exact.map Prod.snd).sum = weightSum blocks.flatten := by
    have hsum := weighted_tally (fun _ : Word => (1 : ℕ))
      (blocks.flatten.map fun x => (x.1, x.2.toNat)) (l := [])
    simpa [weighted, weightSum, Function.comp_def, exact] using hsum
  rw [← hexact, ← hcast, weightSum, List.map_map]
  congr 1
  apply List.map_congr_left
  intro x hx
  have hle : x.2 ≤ (exact.map Prod.snd).sum := List.le_sum_of_mem (List.mem_map_of_mem hx)
  have hlt : x.2 < 2 ^ 256 := by
    rw [hexact] at hle
    exact hle.trans_lt hs.gas
  have hword : ((x.2 : Word)).toNat = x.2 := by
    rw [BitVec.natCast_eq_ofNat, BitVec.toNat_ofNat, Nat.mod_eq_of_lt hlt]
  exact hword

section LastOnly

variable (hlast : ∀ b ∈ blocks, ∀ x ∈ b.dropLast, x.2 = 0)
include hlast

theorem consumed_eq : consumed blocks = blocks.flatten.map fun x => (x.1, (x.2.toNat : ℤ)) := by
  rw [consumed, List.map_flatten, List.flatMap_def]
  congr 1
  apply List.map_congr_left
  intro b hb
  exact consumedFrom_eq (hlast b hb)

theorem weightSum_flatten_eq : (weightSum blocks.flatten : ℤ) = totalGas blocks := by
  rw [← sum_consumed, consumed_eq hlast, weightSum, Nat.cast_list_sum, List.map_map, List.map_map]
  rfl

theorem weight_eq (hs : Small blocks) (p : Word) :
    (weightAt (tally blocks.flatten []) p).toNat = consumedAt blocks p := by
  have hsum : consumedAt blocks p = weightSum (blocks.flatten.filter fun x => x.1 = p) := by
    rw [consumedAt, consumed_eq hlast, weightSum, Nat.cast_list_sum, List.filter_map, List.map_map,
      List.map_map]
    rfl
  have hle : weightSum (blocks.flatten.filter fun x => x.1 = p) ≤ weightSum blocks.flatten :=
    List.Sublist.sum_le_sum (List.filter_sublist.map _) fun _ _ => Nat.zero_le _
  rw [weightAt_tally (by simp [Ordered]), hsum, ← toNat_sum (hle.trans_lt hs.gas)]
  simp [weightAt]

theorem weighted_eq (g : Word → Word) (G : Word → ℤ) (hg : ∀ p, g p = (G p : Word))
    (hpos : ∀ p, 0 ≤ G p)
    (hlt : ((consumed blocks).map fun x => G x.1 * x.2).sum < 2 ^ 256) :
    ((weighted g (tally blocks.flatten [])).toNat : ℤ)
      = ((consumed blocks).map fun x => G x.1 * x.2).sum := by
  have hsum : ((consumed blocks).map fun x => G x.1 * x.2).sum
      = (blocks.flatten.map fun x => G x.1 * x.2.toNat).sum := by
    rw [consumed_eq hlast, List.map_map]
    rfl
  rw [hsum] at hlt ⊢
  apply toNat_of_cast
  · rw [weighted_tally, weighted_nil, zero_add, weighted_cast hg]
  · apply List.sum_nonneg
    intro z hz
    obtain ⟨x, -, rfl⟩ := List.mem_map.mp hz
    exact mul_nonneg (hpos x.1) (Int.natCast_nonneg _)
  · exact hlt

theorem mean_eq (hs : Small blocks) :
    ((mean (tally blocks.flatten []) (blocks.flatten.map Prod.snd).sum).toNat : ℤ)
      = exactMean blocks := by
  have hsum := weighted_eq hlast (fun p => p) (fun p => p.toNat) (fun p => (intCast_toNat p).symm)
    (fun p => Int.natCast_nonneg _) hs.prices
  have htotal : ((blocks.flatten.map Prod.snd).sum.toNat : ℤ) = totalGas blocks := by
    rw [toNat_sum hs.gas, weightSum_flatten_eq hlast]
  rw [exactMean, ← hsum, ← htotal, ← Int.natCast_ediv, ← BitVec.toNat_udiv]
  rfl

theorem deviations_eq (hs : Small blocks) :
    ((deviations (tally blocks.flatten [])
      (mean (tally blocks.flatten []) (blocks.flatten.map Prod.snd).sum)).toNat : ℤ)
      = exactDeviations blocks := by
  have hmean : mean (tally blocks.flatten []) (blocks.flatten.map Prod.snd).sum
      = ((exactMean blocks : ℤ) : Word) := by
    rw [← mean_eq hlast hs, intCast_toNat]
  -- a deviation below zero wraps, and its square does not
  have hsum := weighted_eq hlast (fun p => (p - (exactMean blocks : Word)) ^ 2)
    (fun p => (p.toNat - exactMean blocks) ^ 2) (fun p => by simp) (fun p => sq_nonneg _)
    hs.deviations
  have hsquare : ∀ dist m, deviations dist m = weighted (fun p => (p - m) ^ 2) dist := by
    intro dist m
    rw [deviations, weighted]
    congr 1
    apply List.map_congr_left
    intro x _
    ring
  rw [hmean, hsquare, hsum]
  rfl

/-- Where only the last receipts have gas, everything is exact. -/
theorem exact_of_last (hs : Small blocks) :
    Exact blocks (tally blocks.flatten []) (blocks.flatten.map Prod.snd).sum := by
  have htotal : ((blocks.flatten.map Prod.snd).sum.toNat : ℤ) = totalGas blocks := by
    rw [toNat_sum hs.gas, weightSum_flatten_eq hlast]
  constructor
  case ordered => exact Ordered.tally (by simp [Ordered]) _
  case weights => exact weight_eq hlast hs
  case sumOfWeights => rw [weightSum_tally hs, weightSum_flatten_eq hlast]
  case sampledGas => exact htotal
  case rightMean =>
    intro _
    exact mean_eq hlast hs
  case rightDeviations =>
    intro _
    exact deviations_eq hlast hs
  case rightVariance =>
    intro _
    rw [BitVec.toNat_udiv, Int.natCast_ediv, deviations_eq hlast hs, htotal]

end LastOnly

/-- For blocks that can be read, with sums that stay small, what the pricer computes is exact
if and only if in each block only the last receipt has gas. -/
theorem distribution_exact_iff (h : samples sha3 recover bc = some blocks) (hs : Small blocks) :
    (∃ dist total, distribution sha3 recover bc = some (dist, total) ∧ Exact blocks dist total) ↔
      ∀ b ∈ blocks, ∀ x ∈ b.dropLast, x.2 = 0 := by
  rw [distribution_of_samples h]
  constructor
  · rintro ⟨dist, total, heq, hexact⟩
    obtain ⟨rfl, rfl⟩ := Prod.mk.inj (Option.some.inj heq)
    exact zero_of_total hs hexact.sampledGas
  · intro hlast
    exact ⟨_, _, rfl, exact_of_last hlast hs⟩

section Example

/-- A creation of nothing at a gas price. -/
def priced (gasPrice : UInt8) : Item :=
  .list [.data [], .data [gasPrice], .data [], .data [], .data [], .data [], .data [], .data [],
    .data []]

def onlyHeader : BlockHeader :=
  { BlockHeader.empty with transactionsRoot := .ofNat 1, gasLimit := 100000 }

/-- A chain of one block beside the first. -/
def oneBlock (trs : List Item) (gas : List Word) : PricedChain where
  currentHash := .ofNat 1
  info p := if p = .ofNat 1 then some onlyHeader else none
  block _ := encode (.list [.list [], .list trs, .list []])
  receipts _ := gas.map fun g => ⟨.ofNat 0, g, 0, []⟩

theorem samples_oneBlock (trs : List Item) (gas : List Word) :
    samples Transaction.noHash Transaction.anySigner (oneBlock trs gas)
      = (readBlock Transaction.noHash Transaction.anySigner
        (gas.map fun g => ⟨.ofNat 0, g, 0, []⟩) trs).map ([·]) := by
  have hitems : transactionItems ((oneBlock trs gas).block (.ofNat 1)) = some trs := by
    simp [transactionItems, get?, oneBlock]
  have hroot : onlyHeader.transactionsRoot ≠ EmptyTrie Transaction.noHash := by
    show H256.ofNat 1 ≠ .ofNat 0
    decide
  have hstart : H256.ofNat 1 ≠ .zero := by decide
  have hinfo : (oneBlock trs gas).info (.ofNat 1) = some onlyHeader := by simp [oneBlock]
  have hparent : onlyHeader.parentHash = .zero := by rfl
  have hend : samplesFrom Transaction.noHash Transaction.anySigner (oneBlock trs gas) 999
      onlyHeader.parentHash = some [] := by
    rw [samplesFrom, if_pos hparent]
  show samplesFrom _ _ _ (999 + 1) (.ofNat 1) = _
  rw [samplesFrom, if_neg hstart, hinfo]
  simp only [Option.bind_eq_bind, Option.bind_some, hend, if_pos hroot, hitems]
  exact Option.map_eq_bind.symm

theorem priceOf_five :
    priceOf Transaction.noHash Transaction.anySigner (priced 5) = some 5 := by
  rw [priceOf, Transaction.ofBytes, decodeStrict_encode]
  rfl

theorem priceOf_seven :
    priceOf Transaction.noHash Transaction.anySigner (priced 7) = some 7 := by
  rw [priceOf, Transaction.ofBytes, decodeStrict_encode]
  rfl

/-- One transaction is weighed by what it consumed. -/
theorem distribution_exact_one : ∃ dist total,
    distribution Transaction.noHash Transaction.anySigner (oneBlock [priced 5] [21000])
      = some (dist, total) ∧ Exact [[(5, 21000)]] dist total := by
  apply (distribution_exact_iff _ _).mpr
  · simp
  · rw [samples_oneBlock]
    simp [readBlock, priceOf_five]
  · constructor <;> decide

/-- The second of two transactions is weighed by the gas of both. -/
theorem distribution_not_exact :
    samples Transaction.noHash Transaction.anySigner (oneBlock [priced 5, priced 7] [21000, 42000])
      = some [[(5, 21000), (7, 42000)]] ∧ Small [[(5, 21000), (7, 42000)]] ∧
      ∀ dist total, distribution Transaction.noHash Transaction.anySigner
        (oneBlock [priced 5, priced 7] [21000, 42000]) = some (dist, total) →
          ¬Exact [[(5, 21000), (7, 42000)]] dist total := by
  have hsamples : samples Transaction.noHash Transaction.anySigner
      (oneBlock [priced 5, priced 7] [21000, 42000]) = some [[(5, 21000), (7, 42000)]] := by
    rw [samples_oneBlock]
    simp [readBlock, priceOf_five, priceOf_seven]
  refine ⟨hsamples, ?_, ?_⟩
  · constructor <;> decide
  · intro dist total h hexact
    rw [distribution_of_samples hsamples] at h
    obtain ⟨rfl, rfl⟩ := Prod.mk.inj (Option.some.inj h)
    exact absurd hexact.sampledGas (by decide)

end Example

end Exactness

end BasicGasPricer
end XChain
