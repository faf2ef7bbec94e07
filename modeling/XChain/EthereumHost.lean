import Mathlib.Order.Bounds.Defs
import XChain.BlockHeader

/-!
# The headers that a host serves

A peer asks for headers from a start block upwards, named by its hash or by its number. The
host looks for the top one of the blocks to send and lowers the number of headers where the
chain ends before. A request by number ends at the last of the blocks asked for. A request by
hash ends one step short of the block behind it, which is another block unless the step is one.

Machine integers are read in two ways. One reduces what does not fit, as the machine does, and
the other one refuses it; where both give the same answer nothing was reduced.
-/
namespace XChain

inductive HeaderFault where
  | BadCast
  | assertion
  | wrapped
  deriving DecidableEq

/-- How an exact value becomes an unsigned number of a width. -/
abbrev Arithmetic := ℕ → ℤ → Except HeaderFault ℕ

namespace Arithmetic

def machine : Arithmetic := fun w x => .ok (x % 2 ^ w).toNat

def checked : Arithmetic := fun w x =>
  if 0 ≤ x ∧ x < 2 ^ w then .ok x.toNat else .error .wrapped

/-- Values that fit are kept. -/
def Keeps (fit : Arithmetic) : Prop := ∀ w (x : ℕ), x < 2 ^ w → fit w x = .ok x

theorem keeps_machine : machine.Keeps := by
  intro w x hx
  have hmod : ((x : ℤ) % 2 ^ w).toNat = x := by
    rw [Int.emod_eq_of_lt (by positivity) (by exact_mod_cast hx), Int.toNat_natCast]
  rw [machine, hmod]

theorem keeps_checked : checked.Keeps := by
  intro w x hx
  have hfits : (0 : ℤ) ≤ x ∧ (x : ℤ) < 2 ^ w := ⟨by positivity, by exact_mod_cast hx⟩
  rw [checked, if_pos hfits, Int.toNat_natCast]

theorem Keeps.eq_ok {fit : Arithmetic} (h : fit.Keeps) {w x : ℕ} {z : ℤ} (hz : z = x)
    (hx : x < 2 ^ w) : fit w z = .ok x := by
  rw [hz]
  exact h w x hx

end Arithmetic

namespace Rlp

/-- Reads a number of any size. -/
def toBigint : Item → Option ℕ
  | .data b => if b.head? = some 0 then none else some (ofBigEndian b)
  | .list _ => none

theorem toBigint_ofNat (n : ℕ) : toBigint (ofNat n) = some n := by
  have hhead : (bigEndian n).head? ≠ some 0 := by
    by_cases h0 : n = 0
    · simp [h0, bigEndian]
    · exact bigEndian_head_ne n h0
  rw [ofNat, toBigint, if_neg hhead, ofBigEndian_bigEndian]

theorem size_ofNat_le {n : ℕ} (h : n < 2 ^ 32) : size (ofNat n) ≤ 4 :=
  length_bigEndian_le (by simpa using h)

end Rlp

/-- What the host asks the chain. -/
structure HeaderChain where
  number : ℕ
  numberOf : H256 → ℕ
  numberHash : ℕ → H256
  isKnown : H256 → Bool
  genesisHash : H256

/-- The blocks up to the head are known and have the numbers that they are found under. -/
structure HeaderChain.Main (c : HeaderChain) : Prop where
  number_lt : c.number < 2 ^ 32
  isKnown : ∀ i ≤ c.number, c.isKnown (c.numberHash i) = true
  numberOf : ∀ i ≤ c.number, c.numberOf (c.numberHash i) = i
  genesisHash : c.numberHash 0 = c.genesisHash

theorem HeaderChain.Main.numberHash_inj {c : HeaderChain} (hc : c.Main) {i j : ℕ}
    (hi : i ≤ c.number) (hj : j ≤ c.number) (h : c.numberHash i = c.numberHash j) : i = j := by
  rw [← hc.numberOf i hi, h, hc.numberOf j hj]

namespace EthereumHostData

variable (fit : Arithmetic) (c : HeaderChain)

/-- The number of headers when the chain ends before the top block. -/
def headersLeft (n step : ℕ) : Except HeaderFault ℕ := do
  let left ← fit 32 ((c.number : ℤ) - n)
  fit 32 ((left / step : ℕ) + 1)

/-- The height of the top block and the number of headers, from the block with a hash. -/
def topOfHash (n step numHeadersToSend : ℕ) : Except HeaderFault (ℕ × ℕ) := do
  let all ← fit 64 ((step : ℤ) * numHeadersToSend)
  let behind ← fit 64 ((n : ℤ) + all)
  let top ← fit 64 ((behind : ℤ) - 1)
  if c.number < top then
    let numHeadersToSend ← headersLeft fit c n step
    let before ← fit 32 ((numHeadersToSend : ℤ) - 1)
    let steps ← fit 32 ((step : ℤ) * before)
    let top ← fit 32 ((n : ℤ) + steps)
    pure (top, numHeadersToSend)
  else
    pure (top, numHeadersToSend)

/-- The height of the top block and the number of headers, from the block with a number. -/
def topOfNumber (n step numHeadersToSend : ℕ) : Except HeaderFault (ℕ × ℕ) := do
  let before ← fit 32 ((numHeadersToSend : ℤ) - 1)
  let steps ← fit 64 ((step : ℤ) * before)
  if c.number < n + steps then
    let start ← fit 32 n
    let numHeadersToSend ← headersLeft fit c start step
    let before ← fit 32 ((numHeadersToSend : ℤ) - 1)
    let steps ← fit 32 ((step : ℤ) * before)
    pure (n + steps, numHeadersToSend)
  else
    pure (n + steps, numHeadersToSend)

/-- The top block by its height. -/
def topBlock (r : ℕ × ℕ) : Except HeaderFault (H256 × ℕ) := do
  if r.1 ≤ c.number then pure () else throw .assertion
  let top ← fit 32 r.1
  pure (c.numberHash top, r.2)

/-- The block that the headers start from, and their number. -/
def blockHeaders (blockId : Item) (maxHeaders skip : ℕ) (reverse : Bool) :
    Except HeaderFault (H256 × ℕ) := do
  let skip ← fit 32 skip
  let step ← fit 32 ((skip : ℤ) + 1)
  if 0 < step then pure () else throw .assertion
  if Rlp.size blockId = 32 then
    let blockHash ← (toH256 blockId).elim (throw .BadCast) pure
    if c.isKnown blockHash = false then pure (.zero, maxHeaders)
    else if reverse then pure (blockHash, maxHeaders)
    else if maxHeaders = 0 then pure (.zero, maxHeaders)
    else if c.numberOf blockHash ≠ 0 ∨ blockHash = c.genesisHash then
      topOfHash fit c (c.numberOf blockHash) step maxHeaders >>= topBlock fit c
    else pure (.zero, maxHeaders)
  else
    let n ← (Rlp.toBigint blockId).elim (throw .BadCast) pure
    if reverse then
      if n ≤ 2 ^ 32 - 1 then
        let start ← fit 32 n
        pure (c.numberHash start, maxHeaders)
      else pure (.zero, maxHeaders)
    else if c.number < n ∨ maxHeaders = 0 then pure (.zero, maxHeaders)
    else topOfNumber fit c n step maxHeaders >>= topBlock fit c

/-- The number of headers for a request. -/
def headerCount (n step maxHeaders : ℕ) : ℕ := min maxHeaders ((c.number - n) / step + 1)

/-- Both requests get as many headers as are asked for and the chain has, with the last of
their blocks; no assertion fails, and nothing is reduced. -/
def Answered (n maxHeaders skip : ℕ) : Prop :=
  ∃ k, IsGreatest {k | k ≤ maxHeaders ∧ n + (skip + 1) * (k - 1) ≤ c.number} k ∧
    ∀ fit ∈ [Arithmetic.machine, Arithmetic.checked],
      ∀ blockId ∈ [.data (c.numberHash n).bytes, Rlp.ofNat n],
        blockHeaders fit c blockId maxHeaders skip false =
          .ok (c.numberHash (n + (skip + 1) * (k - 1)), k)

variable {fit c} {n step maxHeaders : ℕ}

variable (step maxHeaders) in
theorem isGreatest_headerCount (hn : n ≤ c.number) (hstep : 0 < step) :
    IsGreatest {k | k ≤ maxHeaders ∧ n + step * (k - 1) ≤ c.number}
      (headerCount c n step maxHeaders) := by
  have hfar : ∀ j, n + step * j ≤ c.number ↔ j ≤ (c.number - n) / step := by
    intro j
    rw [Nat.le_div_iff_mul_le hstep, Nat.mul_comm j]
    omega
  refine ⟨⟨min_le_left _ _, (hfar _).mpr ?_⟩, ?_⟩
  · exact Nat.sub_le_iff_le_add.mpr (min_le_right _ _)
  · rintro k ⟨hk, hreach⟩
    have hleft := (hfar _).mp hreach
    exact le_min hk (Nat.sub_le_iff_le_add.mp hleft)

variable (step) in
theorem headersLeft_eq (hfit : fit.Keeps) (hn : n ≤ c.number) (hlt : c.number < 2 ^ 32)
    (hk : (c.number - n) / step + 1 < 2 ^ 32) :
    headersLeft fit c n step = .ok ((c.number - n) / step + 1) := by
  have hleft : fit 32 ((c.number : ℤ) - n) = .ok (c.number - n) :=
    hfit.eq_ok (by omega) (by omega)
  have hcount : fit 32 (((c.number - n) / step : ℕ) + 1) = .ok ((c.number - n) / step + 1) :=
    hfit.eq_ok (Nat.cast_succ _).symm hk
  rw [headersLeft, hleft]
  exact hcount

variable (step) in
/-- The steps to the last of the blocks that are left. -/
theorem fit_steps (hfit : fit.Keeps) (hn : n ≤ c.number) (hlt : c.number < 2 ^ 32) :
    fit 32 ((((c.number - n) / step + 1 : ℕ) : ℤ) - 1) = .ok ((c.number - n) / step) ∧
      fit 32 ((step : ℤ) * ((c.number - n) / step : ℕ)) =
        .ok (step * ((c.number - n) / step)) := by
  have hquot : (c.number - n) / step ≤ c.number - n := Nat.div_le_self _ _
  have hprod : step * ((c.number - n) / step) ≤ c.number - n := Nat.mul_div_le _ _
  refine ⟨hfit.eq_ok (by omega) (by omega), hfit.eq_ok ?_ (by omega)⟩
  push_cast
  rfl

/-- From a hash, the blocks asked for count up to one before the next block behind them. -/
theorem topOfHash_eq (hfit : fit.Keeps) (hn : n ≤ c.number) (hlt : c.number < 2 ^ 32)
    (hstep : 0 < step) (hstep32 : step < 2 ^ 32) (hmax : 0 < maxHeaders)
    (hmax32 : maxHeaders < 2 ^ 32) :
    topOfHash fit c n step maxHeaders =
      .ok (if c.number + 1 < n + step * maxHeaders
        then n + step * (headerCount c n step maxHeaders - 1) else n + step * maxHeaders - 1,
        headerCount c n step maxHeaders) := by
  have hpos : 0 < step * maxHeaders := Nat.mul_pos hstep hmax
  have hprod : step * maxHeaders ≤ (2 ^ 32 - 1) * (2 ^ 32 - 1) :=
    Nat.mul_le_mul (by omega) (by omega)
  have hall : fit 64 ((step : ℤ) * maxHeaders) = .ok (step * maxHeaders) :=
    hfit.eq_ok (by push_cast; rfl) (by omega)
  have hbehind : fit 64 ((n : ℤ) + (step * maxHeaders : ℕ)) = .ok (n + step * maxHeaders) :=
    hfit.eq_ok (by push_cast; rfl) (by omega)
  have htop : fit 64 (((n + step * maxHeaders : ℕ) : ℤ) - 1) = .ok (n + step * maxHeaders - 1) :=
    hfit.eq_ok (by omega) (by omega)
  simp only [topOfHash, hall, hbehind, htop, bind, Except.bind]
  by_cases hend : c.number + 1 < n + step * maxHeaders
  · have hfew : (c.number - n) / step < maxHeaders := Nat.div_lt_of_lt_mul (by omega)
    have hcount : headerCount c n step maxHeaders = (c.number - n) / step + 1 := min_eq_right hfew
    have hsteps := fit_steps step hfit hn hlt
    have hsum : fit 32 ((n : ℤ) + (step * ((c.number - n) / step) : ℕ)) =
        .ok (n + step * ((c.number - n) / step)) := by
      have hle : step * ((c.number - n) / step) ≤ c.number - n := Nat.mul_div_le _ _
      exact hfit.eq_ok (by push_cast; rfl) (by omega)
    rw [if_pos (by omega), if_pos hend, hcount, headersLeft_eq step hfit hn hlt (by omega)]
    simp only [hsteps, hsum, pure, Except.pure, Nat.add_sub_cancel]
  · have hmany : maxHeaders - 1 ≤ (c.number - n) / step := by
      rw [Nat.le_div_iff_mul_le hstep, Nat.mul_comm, Nat.mul_sub_one]
      omega
    have hcount : headerCount c n step maxHeaders = maxHeaders :=
      min_eq_left (Nat.sub_le_iff_le_add.mp hmany)
    rw [if_neg (by omega), if_neg hend, hcount]
    rfl

/-- From a number, they end at the last block. -/
theorem topOfNumber_eq (hfit : fit.Keeps) (hn : n ≤ c.number) (hlt : c.number < 2 ^ 32)
    (hstep : 0 < step) (hstep32 : step < 2 ^ 32) (hmax : 0 < maxHeaders)
    (hmax32 : maxHeaders < 2 ^ 32) :
    topOfNumber fit c n step maxHeaders =
      .ok (n + step * (headerCount c n step maxHeaders - 1), headerCount c n step maxHeaders) := by
  have hprod : step * (maxHeaders - 1) ≤ (2 ^ 32 - 1) * (2 ^ 32 - 1) :=
    Nat.mul_le_mul (by omega) (by omega)
  have hbefore : fit 32 ((maxHeaders : ℤ) - 1) = .ok (maxHeaders - 1) :=
    hfit.eq_ok (by omega) (by omega)
  have hall : fit 64 ((step : ℤ) * (maxHeaders - 1 : ℕ)) = .ok (step * (maxHeaders - 1)) :=
    hfit.eq_ok (by push_cast; rfl) (by omega)
  have hfar : c.number < n + step * (maxHeaders - 1) ↔ (c.number - n) / step < maxHeaders - 1 := by
    rw [Nat.div_lt_iff_lt_mul hstep, Nat.mul_comm _ step]
    omega
  simp only [topOfNumber, hbefore, hall, bind, Except.bind]
  by_cases hend : c.number < n + step * (maxHeaders - 1)
  · have hcount : headerCount c n step maxHeaders = (c.number - n) / step + 1 :=
      min_eq_right (by omega)
    have hstart : fit 32 (n : ℤ) = .ok n := hfit.eq_ok rfl (by omega)
    have hsteps := fit_steps step hfit hn hlt
    rw [if_pos hend, hstart, hcount, Nat.add_sub_cancel]
    simp only [headersLeft_eq step hfit hn hlt (by omega), hsteps, pure, Except.pure]
  · have hcount : headerCount c n step maxHeaders = maxHeaders := min_eq_left (by omega)
    rw [if_neg hend, hcount]
    rfl

variable {skip : ℕ}

theorem topBlock_eq (hfit : fit.Keeps) (hlt : c.number < 2 ^ 32) {top k : ℕ}
    (htop : top ≤ c.number) : topBlock fit c (top, k) = .ok (c.numberHash top, k) := by
  have hkeep : fit 32 (top : ℤ) = .ok top := hfit.eq_ok rfl (by omega)
  simp only [topBlock, if_pos htop, hkeep, bind, Except.bind, pure, Except.pure]

theorem fit_step (hfit : fit.Keeps) (hskip : skip ≤ 2 ^ 32 - 2) :
    fit 32 (skip : ℤ) = .ok skip ∧ fit 32 ((skip : ℤ) + 1) = .ok (skip + 1) :=
  ⟨hfit.eq_ok rfl (by omega), hfit.eq_ok (Nat.cast_succ skip).symm (by omega)⟩

theorem blockHeaders_hash (hfit : fit.Keeps) (hc : c.Main) (hn : n ≤ c.number)
    (hskip : skip ≤ 2 ^ 32 - 2) (hmax : 0 < maxHeaders) (hmax32 : maxHeaders < 2 ^ 32) :
    blockHeaders fit c (.data (c.numberHash n).bytes) maxHeaders skip false =
      .ok (c.numberHash (if c.number + 1 < n + (skip + 1) * maxHeaders
        then n + (skip + 1) * (headerCount c n (skip + 1) maxHeaders - 1)
        else n + (skip + 1) * maxHeaders - 1), headerCount c n (skip + 1) maxHeaders) := by
  have hstep := fit_step hfit hskip
  have hsize : Rlp.size (.data (c.numberHash n).bytes) = 32 := (c.numberHash n).size
  have hgenesis : n ≠ 0 ∨ c.numberHash n = c.genesisHash := by
    by_cases h0 : n = 0
    · rw [h0]
      exact .inr hc.genesisHash
    · exact .inl h0
  have hreach := (isGreatest_headerCount (skip + 1) maxHeaders hn skip.succ_pos).1.2
  have htop : (if c.number + 1 < n + (skip + 1) * maxHeaders
      then n + (skip + 1) * (headerCount c n (skip + 1) maxHeaders - 1)
      else n + (skip + 1) * maxHeaders - 1) ≤ c.number := by
    split_ifs
    · exact hreach
    · omega
  simp only [blockHeaders, hstep, hsize, toH256_bytes, hc.isKnown n hn, hc.numberOf n hn,
    bind, Except.bind, pure, Except.pure, Option.elim_some, if_true, skip.succ_pos,
    Bool.true_eq_false, Bool.false_eq_true, if_false, hmax.ne', if_pos hgenesis]
  rw [topOfHash_eq hfit hn hc.number_lt skip.succ_pos (by omega) hmax hmax32]
  exact topBlock_eq hfit hc.number_lt htop

theorem blockHeaders_number (hfit : fit.Keeps) (hc : c.Main) (hn : n ≤ c.number)
    (hskip : skip ≤ 2 ^ 32 - 2) (hmax : 0 < maxHeaders) (hmax32 : maxHeaders < 2 ^ 32) :
    blockHeaders fit c (Rlp.ofNat n) maxHeaders skip false =
      .ok (c.numberHash (n + (skip + 1) * (headerCount c n (skip + 1) maxHeaders - 1)),
        headerCount c n (skip + 1) maxHeaders) := by
  have hlt := hc.number_lt
  have hstep := fit_step hfit hskip
  have hsize : Rlp.size (Rlp.ofNat n) ≠ 32 := by
    have hle := Rlp.size_ofNat_le (n := n) (by omega)
    omega
  have hin : ¬ (c.number < n ∨ maxHeaders = 0) := by omega
  simp only [blockHeaders, hstep, hsize, Rlp.toBigint_ofNat, bind, Except.bind, pure, Except.pure,
    Option.elim_some, if_true, skip.succ_pos, Bool.false_eq_true, if_false, if_neg hin]
  rw [topOfNumber_eq hfit hn hlt skip.succ_pos (by omega) hmax hmax32]
  exact topBlock_eq hfit hlt (isGreatest_headerCount _ _ hn skip.succ_pos).1.2

/-- The answers agree when every block is asked for, or the chain ends before the block behind
the last one. -/
theorem answered_iff (hc : c.Main) (hn : n ≤ c.number) (hskip : skip ≤ 2 ^ 32 - 2)
    (hmax : 1 ≤ maxHeaders) (hmax32 : maxHeaders < 2 ^ 32) :
    Answered c n maxHeaders skip ↔
      skip = 0 ∨ c.number < n + (skip + 1) * maxHeaders - 1 := by
  have hgreatest := isGreatest_headerCount (skip + 1) maxHeaders hn skip.succ_pos
  have hfirst : (skip + 1) * (maxHeaders - 1) + (skip + 1) = (skip + 1) * maxHeaders := by
    rw [← Nat.mul_succ, Nat.succ_eq_add_one, Nat.sub_add_cancel hmax]
  constructor
  · rintro ⟨k, hk, hall⟩
    obtain rfl := hk.unique hgreatest
    have heq := (hall _ (.head _) _ (.head _)).symm.trans
      (blockHeaders_hash Arithmetic.keeps_machine hc hn hskip hmax hmax32)
    have hhash := congrArg Prod.fst (Except.ok.inj heq)
    by_contra hcon
    obtain ⟨hskip0, hmore⟩ := not_or.mp hcon
    rw [if_neg (by omega)] at hhash
    have htop := hc.numberHash_inj hk.1.2 (by omega) hhash
    have hcount : (skip + 1) * (headerCount c n (skip + 1) maxHeaders - 1) ≤
        (skip + 1) * (maxHeaders - 1) := Nat.mul_le_mul_left _ (Nat.sub_le_sub_right hk.1.1 1)
    omega
  · intro hend
    refine ⟨_, hgreatest, fun fit hfit blockId hid => ?_⟩
    have hkeeps : fit.Keeps := by
      obtain rfl | rfl : fit = .machine ∨ fit = .checked := by simpa using hfit
      · exact Arithmetic.keeps_machine
      · exact Arithmetic.keeps_checked
    obtain rfl | rfl : blockId = .data (c.numberHash n).bytes ∨ blockId = Rlp.ofNat n := by
      simpa using hid
    · rw [blockHeaders_hash hkeeps hc hn hskip hmax hmax32]
      split_ifs with hpast
      · rfl
      · -- Every block is asked for, and the chain has them all.
        have hevery : skip = 0 := by omega
        subst hevery
        have hcount : headerCount c n 1 maxHeaders = maxHeaders := by
          refine min_eq_left ?_
          rw [Nat.div_one]
          omega
        simp only [Nat.zero_add, Nat.one_mul, hcount, Nat.add_sub_assoc hmax]
    · exact blockHeaders_number hkeeps hc hn hskip hmax hmax32

/-- A chain with blocks up to number ten. -/
def tenBlocks : HeaderChain where
  number := 10
  numberOf h := Rlp.ofBigEndian h.bytes - 1
  numberHash i := .ofNat (i + 1)
  isKnown h := Rlp.ofBigEndian h.bytes - 1 ≤ 10
  genesisHash := .ofNat 1

theorem tenBlocks_main : tenBlocks.Main where
  number_lt := by decide
  isKnown := by decide +kernel
  numberOf := by decide +kernel
  genesisHash := rfl

theorem answered_five : Answered tenBlocks 2 5 1 :=
  (answered_iff tenBlocks_main (by decide) (by decide) (by decide) (by decide)).mpr
    (.inr (by decide))

/-- Of two headers, every second one from the genesis block, the request by hash ends at the
third block and the one by number at the second. -/
theorem not_answered_two : tenBlocks.Main ∧ ¬ Answered tenBlocks 0 2 1 := by
  refine ⟨tenBlocks_main, fun ⟨k, _, hall⟩ => ?_⟩
  have hhash := hall .machine (.head _) (.data (tenBlocks.numberHash 0).bytes) (.head _)
  have hnumber := hall .machine (.head _) (Rlp.ofNat 0) (.tail _ (.head _))
  have hne : blockHeaders .machine tenBlocks (.data (tenBlocks.numberHash 0).bytes) 2 1 false ≠
      blockHeaders .machine tenBlocks (Rlp.ofNat 0) 2 1 false := by
    decide +kernel
  exact hne (hhash.trans hnumber.symm)

end EthereumHostData
end XChain
