import Mathlib.Order.Bounds.Defs
import XChain.Executive

/-!
# Estimating the gas of a call

A call is executed with more and less gas until the bounds of a binary search meet. When
more gas never turns a sufficient amount into too little, the bounds meet at the least
amount that is not too little, or at the upper bound that the search began with.
-/
namespace XChain

inductive CodeDeposit where
  | None
  | Failed
  | Success
  deriving DecidableEq

structure ExecutionResult where
  gasUsed : Word := 0
  excepted : TransactionException := .Unknown
  newAddress : Address := 0
  output : Bytes := []
  codeDeposit : CodeDeposit := .None
  gasRefunded : Word := 0
  depositSize : ℕ := 0
  gasForDeposit : Word := 0

/-- Whether more gas is tried after a result. -/
def ExecutionResult.tooLittleGas (er : ExecutionResult) : Bool :=
  er.excepted = .OutOfGas ∨ er.excepted = .OutOfGasBase ∨ er.excepted = .OutOfGasIntrinsic ∨
    er.codeDeposit = .Failed ∨ er.excepted = .BadJumpDestination

/-- The call whose gas is estimated. -/
structure GasCall where
  from_ : Address
  value : Word
  dest : Address
  data : Bytes
  gasPrice : Word

/-- The block on which the call is executed. -/
structure EstimateBlock (S : Type) where
  info : EnvInfo
  state : S
  transactionsFrom : Address → Word

/-- The bounds of the search and what it has seen: the last result and the last good one,
the amounts that were tried and the progress that was reported. -/
structure GasSearch where
  lowerBound : ℤ
  upperBound : ℤ
  er : ExecutionResult
  lastGood : ExecutionResult
  good : Bool
  tried : List ℤ
  progress : List (ℤ × ℤ)

namespace GasCall

def c_maxGasEstimate : ℤ := 50000000

/-- The upper bound that the search begins with. -/
def clampedGas (maxGas : ℤ) : ℤ :=
  if BitVec.ofInt 256 maxGas = BitVec.allOnes 256 ∨ maxGas > c_maxGasEstimate then c_maxGasEstimate
  else maxGas

/-- The call with an amount of gas. -/
def transaction (c : GasCall) (gasPrice nonce : Word) (gas : ℤ) : Transaction where
  type := if c.dest ≠ 0 then .MessageCall else .ContractCreation
  nonce := nonce
  value := c.value
  receiveAddress := c.dest
  gasPrice := gasPrice
  gas := .ofInt 256 gas
  data := c.data
  vrs := ⟨0, 0, 0⟩
  chainId := -4
  sender := c.from_
  null_gas := fun h => absurd h (by split <;> decide)

/-- The lower bound that the search begins with. -/
def baseGas (c : GasCall) : ℤ := (c.transaction 0 0 0).baseGasRequired DefaultSchedule

variable {S : Type} (addBalance : S → Address → Word → S)
  (execute : S → EnvInfo → Transaction → Option ExecutionResult) (c : GasCall) (gasBidPrice : Word)
  (bk : EstimateBlock S)

/-- The call executed with an amount of gas, on accounts that can pay for it; nothing when
the execution throws. -/
def attempt (mid : ℤ) : Option ExecutionResult :=
  let gasPrice := if c.gasPrice = BitVec.allOnes 256 then gasBidPrice else c.gasPrice
  let t := c.transaction gasPrice (bk.transactionsFrom c.from_) mid
  execute (addBalance bk.state c.from_ (t.gas * t.gasPrice + t.value))
    { bk.info with gasLimit := .ofInt 256 mid, gasUsed := 0 } t

/-- The bounds after a result. -/
def narrow (s : GasSearch) (mid : ℤ) (er : ExecutionResult) : GasSearch :=
  if er.tooLittleGas then
    { s with er := er, lowerBound := if s.lowerBound = mid then s.upperBound else mid }
  else
    { s with
      er := er
      lastGood := er
      upperBound := if s.upperBound = mid then s.lowerBound else mid
      good := true }

/-- Notes the amount that was tried and reports the bounds. -/
def note (s : GasSearch) (mid : ℤ) : GasSearch :=
  { s with
    tried := s.tried ++ [mid]
    progress := s.progress ++ [(s.lowerBound, s.upperBound)] }

/-- One round of the loop. -/
def round (s : GasSearch) : Option GasSearch :=
  let mid := (s.lowerBound + s.upperBound).tdiv 2
  (attempt addBalance execute c gasBidPrice bk mid).map fun er => note (narrow s mid er) mid

/-- The loop, for a number of rounds; the inner option is empty when an execution throws. -/
def search : ℕ → GasSearch → Option (Option GasSearch)
  | 0, s => if s.upperBound = s.lowerBound then some (some s) else none
  | fuel + 1, s =>
    if s.upperBound = s.lowerBound then some (some s)
    else
      match round addBalance execute c gasBidPrice bk s with
      | some s' => search fuel s'
      | none => some none

def begin (maxGas : ℤ) : GasSearch where
  lowerBound := c.baseGas
  upperBound := clampedGas maxGas
  er := {}
  lastGood := {}
  good := false
  tried := []
  progress := []

/-- The estimate and the result that goes with it. There may be no block, or an execution
may throw; then the estimate is zero. -/
def estimateGas (block : Option (EstimateBlock S)) (maxGas : ℤ) (fuel : ℕ) :
    Option (Word × ExecutionResult) :=
  match block with
  | none => some (0, {})
  | some bk => (search addBalance execute c gasBidPrice bk fuel (c.begin maxGas)).map fun
    | some s => (.ofInt 256 s.upperBound, if s.good then s.lastGood else s.er)
    | none => (0, {})

/-- Executing the call with an amount of gas reports too little gas. -/
def TooLittle (g : ℤ) : Prop :=
  ∃ er, attempt addBalance execute c gasBidPrice bk g = some er ∧ er.tooLittleGas = true

section Search

variable {addBalance execute c gasBidPrice bk} {low : ℤ → Prop} {base limit : ℤ} {s : GasSearch}

/-- What the loop keeps: everything below the lower bound is too little, and the upper bound
is not, unless it is still the first one. -/
structure Bounds (low : ℤ → Prop) (base limit : ℤ) (s : GasSearch) : Prop where
  base_le : base ≤ s.lowerBound
  le : s.lowerBound ≤ s.upperBound
  le_limit : s.upperBound ≤ limit
  below : ∀ g, base ≤ g → g < s.lowerBound → low g
  top : s.upperBound = limit ∨ ¬ low s.upperBound
  tried : ∀ g ∈ s.tried, base ≤ g ∧ g ≤ limit

/-- The least amount of a range that is not too little, and the largest one if all are. -/
structure Estimated (low : ℤ → Prop) (base limit g : ℤ) : Prop where
  least : (∃ g', base ≤ g' ∧ g' ≤ limit ∧ ¬ low g') →
    IsLeast {g' | base ≤ g' ∧ g' ≤ limit ∧ ¬ low g'} g
  all : (∀ g', base ≤ g' → g' ≤ limit → low g') → g = limit

theorem Bounds.estimated (h : Bounds low base limit s) (heq : s.upperBound = s.lowerBound) :
    Estimated low base limit s.upperBound := by
  have hbase : base ≤ s.upperBound := h.base_le.trans h.le
  refine ⟨?_, fun hall => ?_⟩
  · rintro ⟨g, hg, hgl, hlow⟩
    have hle : ∀ g', base ≤ g' → ¬ low g' → s.upperBound ≤ g' := by
      intro g' hg' hlow'
      by_contra hlt
      exact hlow' (h.below g' hg' (by omega))
    refine ⟨⟨hbase, h.le_limit, ?_⟩, fun g' hg' => hle g' hg'.1 hg'.2.2⟩
    rcases h.top with htop | htop
    · have hgeq : g = s.upperBound := le_antisymm (htop ▸ hgl) (hle g hg hlow)
      exact hgeq ▸ hlow
    · exact htop
  · exact h.top.resolve_right fun htop => htop (hall _ hbase h.le_limit)

/-- The middle of two bounds. -/
theorem tdiv_two {a b : ℤ} (ha : 0 ≤ a) (hab : a < b) :
    a ≤ (a + b).tdiv 2 ∧ (a + b).tdiv 2 < b := by
  rw [Int.tdiv_eq_ediv_of_nonneg (by omega)]
  omega

theorem Bounds.note (h : Bounds low base limit s) {mid : ℤ} (hb : base ≤ mid) (hl : mid ≤ limit) :
    Bounds low base limit (GasCall.note s mid) := by
  refine ⟨h.base_le, h.le, h.le_limit, h.below, h.top, fun g hg => ?_⟩
  rcases List.mem_append.mp hg with hg | hg
  · exact h.tried g hg
  · rw [List.mem_singleton.mp hg]
    exact ⟨hb, hl⟩

/-- Either outcome keeps the bounds and brings them closer. -/
theorem Bounds.narrow (h : Bounds low base limit s) {mid : ℤ} (er : ExecutionResult)
    (hmid : s.lowerBound ≤ mid) (hmid' : mid < s.upperBound)
    (hadj : s.lowerBound = mid → s.upperBound = mid + 1)
    (hlow : er.tooLittleGas = true → ∀ g, base ≤ g → g ≤ mid → low g)
    (hnot : er.tooLittleGas = false → ¬ low mid) :
    Bounds low base limit (GasCall.narrow s mid er) ∧
      (GasCall.narrow s mid er).upperBound - (GasCall.narrow s mid er).lowerBound <
        s.upperBound - s.lowerBound := by
  obtain ⟨hb, hle, hlimit, hbelow, htop, htried⟩ := h
  unfold GasCall.narrow
  cases htoo : er.tooLittleGas with
  | true =>
    rw [if_pos rfl]
    by_cases heq : s.lowerBound = mid
    · rw [if_pos heq]
      refine ⟨⟨hb.trans hle, le_rfl, hlimit, fun g hg hlt => hlow htoo g hg ?_, htop, htried⟩, ?_⟩
      · have hlt' : g < s.upperBound := hlt
        have := hadj heq
        omega
      · show s.upperBound - s.upperBound < _
        omega
    · rw [if_neg heq]
      refine ⟨⟨hb.trans hmid, hmid'.le, hlimit, fun g hg hlt => hlow htoo g hg ?_, htop, htried⟩, ?_⟩
      · exact le_of_lt hlt
      · show s.upperBound - mid < _
        omega
  | false =>
    rw [if_neg (by decide), if_neg hmid'.ne']
    refine ⟨⟨hb, hmid, hmid'.le.trans hlimit, hbelow, Or.inr (hnot htoo), htried⟩, ?_⟩
    show mid - s.lowerBound < _
    omega

/-- A round keeps the bounds and brings them closer. -/
theorem round_bounds (hbase : 0 ≤ base)
    (hreturns : ∀ g, base ≤ g → g ≤ limit →
      (attempt addBalance execute c gasBidPrice bk g).isSome)
    (hmono : ∀ g g', base ≤ g → g ≤ g' → g' ≤ limit →
      TooLittle addBalance execute c gasBidPrice bk g' →
        TooLittle addBalance execute c gasBidPrice bk g)
    (h : Bounds (TooLittle addBalance execute c gasBidPrice bk) base limit s)
    (hne : s.upperBound ≠ s.lowerBound) :
    ∃ s', round addBalance execute c gasBidPrice bk s = some s' ∧
      Bounds (TooLittle addBalance execute c gasBidPrice bk) base limit s' ∧
        s'.upperBound - s'.lowerBound < s.upperBound - s.lowerBound := by
  have hb := h.base_le
  have hlimit := h.le_limit
  have hlower := hbase.trans hb
  obtain ⟨hmid, hmid'⟩ := tdiv_two hlower (lt_of_le_of_ne h.le (Ne.symm hne))
  have hadj : s.lowerBound = (s.lowerBound + s.upperBound).tdiv 2 →
      s.upperBound = (s.lowerBound + s.upperBound).tdiv 2 + 1 := by
    rw [Int.tdiv_eq_ediv_of_nonneg (by omega)] at hmid' ⊢
    omega
  unfold round
  generalize (s.lowerBound + s.upperBound).tdiv 2 = mid at hmid hmid' hadj ⊢
  obtain ⟨er, her⟩ := Option.isSome_iff_exists.mp (hreturns mid (hb.trans hmid) (by omega))
  have hnarrow := h.narrow er hmid hmid' hadj
    (fun htoo g hg hgm => hmono g mid hg hgm (by omega) ⟨er, her, htoo⟩) (by
      rintro htoo ⟨er', her', htoo'⟩
      rw [her] at her'
      rw [← Option.some.inj her', htoo] at htoo'
      cases htoo')
  simp only [her, Option.map_some]
  exact ⟨_, rfl, hnarrow.1.note (hb.trans hmid) (by omega), hnarrow.2⟩

/-- The loop ends within as many rounds as the bounds are apart. -/
theorem search_bounds (hbase : 0 ≤ base)
    (hreturns : ∀ g, base ≤ g → g ≤ limit →
      (attempt addBalance execute c gasBidPrice bk g).isSome)
    (hmono : ∀ g g', base ≤ g → g ≤ g' → g' ≤ limit →
      TooLittle addBalance execute c gasBidPrice bk g' →
        TooLittle addBalance execute c gasBidPrice bk g)
    (h : Bounds (TooLittle addBalance execute c gasBidPrice bk) base limit s) :
    ∃ s', (∀ fuel, (s.upperBound - s.lowerBound).toNat ≤ fuel →
        search addBalance execute c gasBidPrice bk fuel s = some (some s')) ∧
      Bounds (TooLittle addBalance execute c gasBidPrice bk) base limit s' ∧
        s'.upperBound = s'.lowerBound := by
  induction hn : (s.upperBound - s.lowerBound).toNat using Nat.strong_induction_on generalizing s with
  | _ n ih =>
    by_cases heq : s.upperBound = s.lowerBound
    · refine ⟨s, fun fuel _ => ?_, h, heq⟩
      cases fuel <;> exact if_pos heq
    · have hle := h.le
      obtain ⟨t, ht, hbounds, hcloser⟩ := round_bounds hbase hreturns hmono h heq
      have hle' := hbounds.le
      obtain ⟨s', hs', hend⟩ := ih _ (by omega) hbounds rfl
      refine ⟨s', fun fuel hfuel => ?_, hend⟩
      cases fuel with
      | zero => omega
      | succ fuel =>
        rw [search, if_neg heq, ht]
        exact hs' fuel (by omega)

end Search

/-- The estimate ends, tries amounts between the base gas and the clamped maximum, and gives
the least one of them that is not too little. -/
theorem estimateGas_least {S : Type} (addBalance : S → Address → Word → S)
    (execute : S → EnvInfo → Transaction → ExecutionResult) (c : GasCall) (gasBidPrice : Word)
    (bk : EstimateBlock S) (maxGas : ℤ) (hbase : c.baseGas ≤ clampedGas maxGas)
    (hmono : ∀ g g', c.baseGas ≤ g → g ≤ g' → g' ≤ clampedGas maxGas →
      TooLittle addBalance (fun s e t => some (execute s e t)) c gasBidPrice bk g' →
        TooLittle addBalance (fun s e t => some (execute s e t)) c gasBidPrice bk g) :
    ∃ s : GasSearch, (∀ fuel, (clampedGas maxGas - c.baseGas).toNat ≤ fuel →
        search addBalance (fun s e t => some (execute s e t)) c gasBidPrice bk fuel
            (c.begin maxGas) = some (some s) ∧
          estimateGas addBalance (fun s e t => some (execute s e t)) c gasBidPrice (some bk) maxGas
              fuel =
            some (.ofInt 256 s.upperBound, if s.good then s.lastGood else s.er)) ∧
      (∀ g ∈ s.tried, c.baseGas ≤ g ∧ g ≤ clampedGas maxGas) ∧
      Estimated (TooLittle addBalance (fun s e t => some (execute s e t)) c gasBidPrice bk)
        c.baseGas (clampedGas maxGas) s.upperBound := by
  have hstart : Bounds (TooLittle addBalance (fun s e t => some (execute s e t)) c gasBidPrice bk)
      c.baseGas (clampedGas maxGas) (c.begin maxGas) :=
    ⟨le_rfl, hbase, le_rfl, fun g hg hlt => absurd hg (not_le.mpr hlt), Or.inl rfl,
      fun g hg => by cases hg⟩
  obtain ⟨s, hs, hbounds, hend⟩ := search_bounds (Int.natCast_nonneg _)
    (fun g _ _ => rfl) hmono hstart
  refine ⟨s, fun fuel hfuel => ⟨hs fuel hfuel, ?_⟩, hbounds.tried, hbounds.estimated hend⟩
  rw [estimateGas, hs fuel hfuel]
  rfl

/-- A machine that needs 30000 gas for every call. -/
def thirtyThousand (_ : Unit) (_ : EnvInfo) (t : Transaction) : ExecutionResult :=
  if t.gas.toNat < 30000 then { excepted := .OutOfGas } else { excepted := .None }

/-- A call of account 1 without data. -/
def plainCall : GasCall where
  from_ := 1
  value := 0
  dest := 1
  data := []
  gasPrice := 1

def plainBlock : EstimateBlock Unit where
  info := ⟨0, 0, 0, 0⟩
  state := ()
  transactionsFrom _ := 0

theorem thirtyThousand_tooLittle {g : ℤ} (hg : 0 ≤ g) (hlt : g < 2 ^ 256) :
    TooLittle (fun _ _ _ => ()) (fun s e t => some (thirtyThousand s e t)) plainCall 0 plainBlock g ↔
      g < 30000 := by
  have hgas : (BitVec.ofInt 256 g).toNat = g.toNat := by
    rw [BitVec.toNat_ofInt]
    omega
  have hattempt : attempt (fun _ _ _ => ()) (fun s e t => some (thirtyThousand s e t)) plainCall 0
      plainBlock g = some (if (BitVec.ofInt 256 g).toNat < 30000 then { excepted := .OutOfGas }
        else { excepted := .None }) := rfl
  unfold TooLittle
  rw [hattempt, hgas]
  simp only [Option.some.injEq, exists_eq_left']
  split_ifs with hsmall
  · exact iff_of_true rfl (by omega)
  · exact iff_of_false (by decide) (by omega)

theorem estimateGas_least_plain : ∃ s : GasSearch,
    (∀ g ∈ s.tried, plainCall.baseGas ≤ g ∧ g ≤ clampedGas (-1)) ∧
      Estimated (TooLittle (fun _ _ _ => ()) (fun s e t => some (thirtyThousand s e t)) plainCall 0
        plainBlock) plainCall.baseGas (clampedGas (-1)) s.upperBound := by
  obtain ⟨s, -, htried, hleast⟩ := estimateGas_least (fun _ _ _ => ()) thirtyThousand plainCall 0
    plainBlock (-1) (by decide) (fun g g' hg hle hg' hlow => by
      have hbase : (0 : ℤ) ≤ plainCall.baseGas := Int.natCast_nonneg _
      have hlimit : clampedGas (-1) = 50000000 := by decide
      rw [thirtyThousand_tooLittle (by omega) (by omega)] at hlow ⊢
      omega)
  exact ⟨s, htried, hleast⟩

end GasCall
end XChain
