import XChain.VMRules

/-!
# The cases of the switch

What each case does to the machine that has fetched its instruction: no access is
out of range, the program counter goes on or to a jump destination, the stack gets
the height of the table of instructions, and gas is paid.
-/
namespace XChain
namespace VM

open Machine

variable {W : Type} {sha3 : Bytes → H256} {face : ExtVMFace W} {s s' : VM W} {op : Instruction}

/-- The schedule is a priced one, and what is called gives back no more gas than it
was given. -/
structure Metered (face : ExtVMFace W) : Prop where
  priced : face.evmSchedule.Priced
  create : ∀ ext endowment gas init, (face.create ext endowment gas init).2.1 ≤ gas
  call : ∀ ext params, (face.call ext params).2.2.1 ≤ params.gas

/-- A tier whose price is not left to the case. -/
def Charged : Tier → Bool
  | .Zero => false
  | .Special => false
  | .Invalid => false
  | _ => true

/-- The machine that has fetched an instruction of the table. -/
structure Fetched (face : ExtVMFace W) (op : Instruction) (s : VM W) : Prop where
  args : (instructionInfo (some op)).args ≤ s.sp.length
  ret : (instructionInfo (some op)).ret ≤ s.spp.length
  bytes : s.pc + (instructionInfo (some op)).additional < s.code.length
  ioGas : s.ioGas < 2 ^ 64
  price : s.runGas ≤ maxInt63
  charged : Metered face → Charged (instructionInfo (some op)).gasPriceTier = true → 1 ≤ s.runGas
  small : Metered face → s.runGas ≤ 20
  copyMemSize : s.copyMemSize = 0

/-- What no case changes. -/
structure Kept (s s' : VM W) : Prop where
  code : s'.code = s.code
  jumpDests : s'.jumpDests = s.jumpDests
  height : s'.spp.length = s.spp.length
  ioGas : s'.ioGas < 2 ^ 64

/-- Where the program counter is after an instruction that goes on. -/
def Lands (op : Instruction) (s s' : VM W) : Prop :=
  match op with
  | .STOP => False
  | .JUMP => s'.pc ∈ s.jumpDests
  | .JUMPI => if s.sp[1]? = some 0 then s'.pc = s.pc + 1 else s'.pc ∈ s.jumpDests
  | .PUSH n => s'.pc = s.pc + n.val + 2
  | _ => s'.pc = s.pc + 1

/-- The instruction is done, and the machine goes on. -/
structure Goes (face : ExtVMFace W) (op : Instruction) (s s' : VM W) : Prop where
  kept : Kept s s'
  lands : Lands op s s'
  paid : Metered face → s'.ioGas < s.ioGas

/-- What holds after a case, by where the trampoline goes. -/
def Bounces (face : ExtVMFace W) (op : Instruction) (s : VM W) : Bounce → VM W → Prop
  | .interpretCases, s' => Goes face op s s'
  | .caseCreate, s' => s' = s ∧ op = .CREATE
  | .caseCall, s' => s' = s ∧ (op = .CALL ∨ op = .CALLCODE ∨ op = .DELEGATECALL)
  | .stop, s' => Kept s s' ∧ s'.ioGas ≤ s.ioGas

/-- What holds after an exception. -/
def Fails (s : VM W) (e : VMException) (s' : VM W) : Prop := e ≠ .outOfBounds ∧ s'.ioGas ≤ s.ioGas

theorem fails_of {e : VMException} (he : e ≠ .outOfBounds) (hgas : s'.ioGas = s.ioGas) :
    Fails s e s' := ⟨he, hgas.le⟩

section Plain

/-- The last step of most cases. -/
theorem nextPC_spec {t : VM W} (hpc : t.pc = s.pc)
    (hlands : ∀ s' : VM W, s'.pc = s.pc + 1 → Lands op s s') (hkept : Kept s t)
    (hgas : Metered face → t.ioGas < s.ioGas) :
    Runs (nextPC 1) t (Bounces face op s) (Fails s) := by
  unfold nextPC
  refine runs_bind (runs_modify (runs_pure ?_))
  constructor
  · exact ⟨hkept.code, hkept.jumpDests, hkept.height, hkept.ioGas⟩
  · exact hlands _ (by rw [← hpc])
  · exact hgas

theorem ordinary_spec {t : VM W} {e : Exec W Word} (ht : t = { s with runGas := t.runGas })
    (hgas : s.ioGas < 2 ^ 64) (hspp : 0 < s.spp.length) (hpaid : Metered face → 1 ≤ t.runGas)
    (hlands : ∀ s' : VM W, s'.pc = s.pc + 1 → Lands op s s')
    (he : ∀ g r, Reads e { s with ioGas := g, runGas := r }) :
    Runs (ordinary e) t (Bounces face op s) (Fails s) := by
  rw [ht]
  unfold ordinary
  refine runs_bind (runs_updateIOGas (fun hle => ?_) (fails_of (by decide) rfl))
  refine runs_bind ((he _ _).runs fun w => ?_)
  refine runs_bind (runs_setTop hspp fun l hl => ?_)
  refine nextPC_spec rfl hlands ⟨rfl, rfl, hl, ?_⟩ fun hm => ?_
  · show s.ioGas - t.runGas < 2 ^ 64
    omega
  · have h1 := hpaid hm
    show s.ioGas - t.runGas < s.ioGas
    have hle' : t.runGas ≤ s.ioGas := hle
    omega

theorem Fetched.ordinary {e : Exec W Word} (h : Fetched face op s)
    (hret : 1 ≤ (instructionInfo (some op)).ret)
    (htier : Charged (instructionInfo (some op)).gasPriceTier = true)
    (hlands : ∀ s' : VM W, s'.pc = s.pc + 1 → Lands op s s')
    (he : ∀ g r, Reads e { s with ioGas := g, runGas := r }) :
    Runs (ordinary e) s (Bounces face op s) (Fails s) :=
  ordinary_spec rfl h.ioGas (hret.trans h.ret) (fun hm => h.charged hm htier) hlands he

theorem Fetched.priced {e : Exec W Word} {gas : ℕ} (h : Fetched face op s)
    (hret : 1 ≤ (instructionInfo (some op)).ret) (hgas : Metered face → 1 ≤ gas)
    (hlands : ∀ s' : VM W, s'.pc = s.pc + 1 → Lands op s s')
    (he : ∀ g r, Reads e { s with ioGas := g, runGas := r }) :
    Runs (priced gas e) s (Bounces face op s) (Fails s) := by
  unfold VM.priced
  refine runs_bind (runs_toInt63 (fun _ => ?_) (fails_of (by decide) rfl))
  refine runs_bind (runs_setRunGas ?_)
  exact ordinary_spec rfl h.ioGas (hret.trans h.ret) hgas hlands he

end Plain

section Memory

/-- Memory that is paid for at the price of the case. -/
theorem Fetched.runs_updateMem {newMem price : ℕ} {Q : Unit → VM W → Prop}
    (h : Fetched face op s) (hnew : newMem ≤ maxInt63 + 32) (hprice : price ≤ maxInt63)
    (hQ : ∀ r m (mem : Bytes), newMem ≤ mem.length → price ≤ r →
      Q () { s with runGas := r, newMemSize := m, mem := mem }) :
    Runs (updateMem face newMem) { s with runGas := price } Q (Fails s) := by
  have hcopy : copyCost face { s with runGas := price } = 0 := copyCost_zero h.copyMemSize
  refine VM.runs_updateMem hnew (fun r m mem hmem hr => hQ r m mem hmem (hr ?_)) fun r m =>
    fails_of (by decide) rfl
  unfold maxInt63 at hprice
  rw [hcopy]
  show price + 0 ≤ 2 ^ 63
  omega

/-- The same with the payment that follows it. -/
theorem Fetched.runs_pay {α : Type} {rest : Exec W α} {newMem price : ℕ}
    {Q : α → VM W → Prop} (h : Fetched face op s) (hnew : newMem ≤ maxInt63 + 32)
    (hprice : price ≤ maxInt63)
    (hQ : ∀ r m (mem : Bytes) g, newMem ≤ mem.length → g + price ≤ s.ioGas →
      Runs rest { s with runGas := r, newMemSize := m, mem := mem, ioGas := g } Q (Fails s)) :
    Runs (do
      updateMem face newMem
      updateIOGas
      rest) { s with runGas := price } Q (Fails s) := by
  refine runs_bind (h.runs_updateMem hnew hprice fun r m mem hmem hr => ?_)
  refine runs_bind (runs_updateIOGas (fun hle => ?_) (fails_of (by decide) rfl))
  have hle' : r ≤ s.ioGas := hle
  exact hQ r m mem (s.ioGas - r) hmem (by omega)

/-- The part of the memory that was needed is there. -/
theorem slice_fits {offset size : Word} {need : ℕ} {mem : Bytes} (hneed : need ≤ maxInt63)
    (hfits : size ≠ 0 → offset.toNat + size.toNat ≤ need) (hmem : need ≤ mem.length) :
    u64 size.toNat = 0 ∨ u64 offset.toNat + u64 size.toNat ≤ mem.length := by
  by_cases hsize : size = 0
  · left
    rw [hsize]
    rfl
  · right
    have hle := hfits hsize
    unfold maxInt63 at hneed
    rw [u64_of_lt (by omega), u64_of_lt (by omega)]
    omega

theorem cut_fits {a : Word} {n : ℕ} {mem : Bytes} (hmem : a.toNat + n ≤ mem.length) :
    a.toNat % 2 ^ 32 + n ≤ mem.length := by
  have hcut := Nat.mod_le a.toNat (2 ^ 32)
  omega

theorem u64_add {a : Word} {n : ℕ} (ha : a.toNat ≤ maxInt63) (hn : n ≤ 32) :
    u64 (a.toNat + n) = a.toNat + n := by
  unfold maxInt63 at ha
  exact u64_of_lt (by omega)

/-- The end of a case that has paid its price. -/
theorem Fetched.next {price : ℕ} {t : VM W} (h : Fetched face op s)
    (hlands : ∀ s' : VM W, s'.pc = s.pc + 1 → Lands op s s') (hprice : Metered face → 1 ≤ price)
    (hpaid : t.ioGas + price ≤ s.ioGas) (hheight : t.spp.length = s.spp.length)
    (hpc : t.pc = s.pc) (hcode : t.code = s.code) (hdests : t.jumpDests = s.jumpDests) :
    Runs (nextPC 1) t (Bounces face op s) (Fails s) := by
  have hio := h.ioGas
  refine nextPC_spec hpc hlands ⟨hcode, hdests, hheight, by omega⟩ fun hm => ?_
  have h1 := hprice hm
  omega

theorem Fetched.mload (h : Fetched face .MLOAD s) :
    Runs (mload face) s (Bounces face .MLOAD s) (Fails s) := by
  have hargs : 1 ≤ s.sp.length := h.args
  unfold VM.mload
  refine runs_bind (runs_item (by omega) fun a _ => ?_)
  refine runs_bind (runs_toInt63 (fun ha => ?_) (fails_of (by decide) rfl))
  rw [u64_add ha le_rfl]
  refine h.runs_pay (by omega) h.price fun r m mem g hmem hg => ?_
  refine runs_bind (runs_memSlice (Or.inr (cut_fits hmem)) fun b => ?_)
  refine runs_bind (runs_setTop h.ret fun l hl => ?_)
  exact h.next (fun _ hpc => hpc) (fun hm => h.charged hm rfl) hg hl rfl rfl rfl

theorem Fetched.mstore (h : Fetched face .MSTORE s) :
    Runs (mstore face) s (Bounces face .MSTORE s) (Fails s) := by
  have hargs : 2 ≤ s.sp.length := h.args
  unfold VM.mstore
  refine runs_bind (runs_item (by omega) fun a _ => ?_)
  refine runs_bind (runs_toInt63 (fun ha => ?_) (fails_of (by decide) rfl))
  rw [u64_add ha le_rfl]
  refine h.runs_pay (by omega) h.price fun r m mem g hmem hg => ?_
  refine runs_bind (runs_item (show 1 < s.sp.length by omega) fun w _ => ?_)
  refine runs_bind (runs_memWrite (Or.inr ?_) fun _ _ => ?_)
  · rw [show (toBytes w).length = 32 from (H256.ofNat w.toNat).size]
    exact cut_fits hmem
  · exact h.next (fun _ hpc => hpc) (fun hm => h.charged hm rfl) hg rfl rfl rfl rfl

theorem Fetched.mstore8 (h : Fetched face .MSTORE8 s) :
    Runs (mstore8 face) s (Bounces face .MSTORE8 s) (Fails s) := by
  have hargs : 2 ≤ s.sp.length := h.args
  unfold VM.mstore8
  refine runs_bind (runs_item (by omega) fun a _ => ?_)
  refine runs_bind (runs_toInt63 (fun ha => ?_) (fails_of (by decide) rfl))
  rw [u64_add ha (by omega)]
  refine h.runs_pay (by omega) h.price fun r m mem g hmem hg => ?_
  refine runs_bind (runs_item (show 1 < s.sp.length by omega) fun w _ => ?_)
  refine runs_bind (runs_memWrite (Or.inr (cut_fits hmem)) fun _ _ => ?_)
  exact h.next (fun _ hpc => hpc) (fun hm => h.charged hm rfl) hg rfl rfl rfl rfl

theorem Fetched.sha3Case (h : Fetched face .SHA3 s) :
    Runs (sha3Case sha3 face) s (Bounces face .SHA3 s) (Fails s) := by
  have hargs : 2 ≤ s.sp.length := h.args
  unfold VM.sha3Case
  refine runs_bind (runs_item (by omega) fun size _ => ?_)
  refine runs_bind (runs_toInt63 (fun hgas => ?_) (fails_of (by decide) rfl))
  refine runs_bind (runs_setRunGas (runs_bind (runs_item (show 0 < s.sp.length by omega)
    fun offset _ => ?_)))
  refine runs_bind (runs_memNeed (fun need hneed hfits => ?_) (fails_of (by decide) rfl))
  refine h.runs_pay (by omega) hgas fun r m mem g hmem hg => ?_
  refine runs_bind (runs_memSlice (slice_fits hneed hfits hmem) fun b => ?_)
  refine runs_bind (runs_setTop h.ret fun l hl => ?_)
  refine h.next (fun _ hpc => hpc) (fun hm => ?_) hg hl rfl rfl rfl
  have h1 := hm.priced.positive face.evmSchedule.sha3Gas (by simp)
  rw [sha3_price hm.priced]
  omega

theorem Fetched.logCase {n : Fin 5} (h : Fetched face (.LOG n) s) :
    Runs (logCase face n.val) s (Bounces face (.LOG n) s) (Fails s) := by
  have hargs : n.val + 2 ≤ s.sp.length := h.args
  have h0 : 0 < s.sp.length := by omega
  have h1 : 1 < s.sp.length := by omega
  unfold VM.logCase
  refine runs_bind ?_
  unfold logGasMem
  refine runs_bind (runs_item h1 fun size hsize => ?_)
  refine runs_bind (runs_toInt63 (fun hgas => ?_) (fails_of (by decide) rfl))
  refine runs_bind (runs_setRunGas (runs_bind (runs_item h0 fun offset hoffset => ?_)))
  refine runs_bind (runs_memNeed (fun need hneed hfits => ?_) (fails_of (by decide) rfl))
  refine h.runs_updateMem (by omega) hgas fun r m mem hmem hr => ?_
  refine runs_bind (runs_updateIOGas (fun hle => ?_) (fails_of (by decide) rfl))
  have hle' : r ≤ s.ioGas := hle
  refine runs_bind (runs_item h0 fun offset' hoffset' => ?_)
  refine runs_bind (runs_item h1 fun size' hsize' => ?_)
  obtain rfl : offset = offset' := Option.some.inj (hoffset.symm.trans hoffset')
  obtain rfl : size = size' := Option.some.inj (hsize.symm.trans hsize')
  refine runs_bind (Reads.runs (reads_topics hargs) fun ts => ?_)
  refine runs_bind (runs_memSlice (slice_fits hneed hfits hmem) fun b => ?_)
  refine runs_bind (runs_modify (h.next (fun _ hpc => hpc) (fun hm => ?_)
    (show s.ioGas - r + r ≤ s.ioGas by omega) rfl rfl rfl rfl))
  have hprice := hm.priced.positive face.evmSchedule.logGas (by simp)
  have hlog := log_price hm.priced n.isLt size
  omega

theorem Fetched.expCase (h : Fetched face .EXP s) :
    Runs (expCase face) s (Bounces face .EXP s) (Fails s) := by
  have hargs : 2 ≤ s.sp.length := h.args
  unfold VM.expCase
  refine runs_bind (runs_item hargs fun expon _ => ?_)
  refine h.priced le_rfl (fun hm => ?_) (fun _ hpc => hpc) fun g r => reads_binary hargs
  have hprice := hm.priced.positive face.evmSchedule.expGas (by simp)
  rw [exp_price hm.priced (Nat.sub_le _ _)]
  omega

/-- What the copying instructions write is in the memory. -/
theorem runs_copyDataToMemory {data : Bytes} {i need : ℕ} {a n : Word}
    {Q : Unit → VM W → Prop} {E : VMException → VM W → Prop} (hdata : data.length < 2 ^ 64)
    (hi : i + 2 < s.sp.length) (ha : s.sp[i]? = some a) (hn : s.sp[i + 2]? = some n)
    (hneed : need ≤ maxInt63) (hfits : n ≠ 0 → a.toNat + n.toNat ≤ need)
    (hmem : need ≤ s.mem.length) (hQ : ∀ m, Q () { s with mem := m }) :
    Runs (copyDataToMemory data i) s Q E := by
  unfold copyDataToMemory
  refine runs_bind (runs_item (by omega) fun a' ha' => ?_)
  obtain rfl : a = a' := Option.some.inj (ha.symm.trans ha')
  refine runs_bind (runs_item (by omega) fun bigIndex _ => ?_)
  refine runs_bind (runs_item hi fun n' hn' => ?_)
  obtain rfl : n = n' := Option.some.inj (hn.symm.trans hn')
  have hslice := slice_fits hneed hfits hmem
  have hindex : bigIndex.toNat ≤ data.length → u64 bigIndex.toNat = bigIndex.toNat :=
    fun hle => u64_of_lt (by omega)
  -- What is copied is at most what was asked for, and is inside the buffer.
  obtain ⟨copied, hcopied⟩ : ∃ copied, copied =
      (if bigIndex.toNat + u64 n.toNat > data.length then
        (if data.length < bigIndex.toNat then 0 else data.length - u64 bigIndex.toNat)
      else u64 n.toNat) := ⟨_, rfl⟩
  have hsize : copied ≤ u64 n.toNat ∧ (copied = 0 ∨ u64 bigIndex.toNat + copied ≤ data.length) := by
    split_ifs at hcopied <;> omega
  simp only [← hcopied]
  refine runs_bind (runs_slice hsize.2 fun b hb => ?_)
  refine runs_bind (runs_memWrite (by omega) fun m hm => ?_)
  refine runs_memWrite ?_ fun m' _ => hQ m'
  rw [List.length_replicate]
  show _ ∨ _ ≤ m.length
  omega

/-- The price of the copying stays far below 2^63. -/
theorem copyCost_le {copy : ℕ} (hm : Metered face) (hcopy : copy ≤ maxInt63)
    (hs : s.copyMemSize = copy) : copyCost face s ≤ 2 ^ 60 := by
  unfold maxInt63 at hcopy
  rw [copyCost, hm.priced.copyGas, hs]
  exact (Nat.mod_le _ _).trans (by omega)

theorem Fetched.copyCase {i price : ℕ} {data : Exec W Bytes} (h : Fetched face op s)
    (hi : i + 2 < s.sp.length) (hprice : Metered face → 1 ≤ price ∧ price ≤ 100000)
    (hlands : ∀ s' : VM W, s'.pc = s.pc + 1 → Lands op s s')
    (hdata : ∀ t : VM W, t.sp = s.sp →
      Runs data t (fun b t' => t' = t ∧ b.length < 2 ^ 64) fun _ _ => False) :
    Runs (copyCase face i data) { s with runGas := price } (Bounces face op s) (Fails s) := by
  unfold VM.copyCase
  refine runs_bind (runs_item hi fun n hn => ?_)
  refine runs_bind (runs_toInt63 (fun hcopy => ?_) (fails_of (by decide) rfl))
  refine runs_bind (runs_modify (runs_bind (runs_item (show i < s.sp.length by omega)
    fun a ha => ?_)))
  refine runs_bind (runs_memNeed (fun need hneed hfits => ?_) (fails_of (by decide) rfl))
  refine VM.runs_pay (by omega) (fun r m mem g hmem hg hpaid => ?_) fun t ht =>
    fails_of (by decide) ht
  refine runs_bind ((hdata _ ?_).mono (fun b t hb => ?_) fun _ _ hno => hno.elim)
  · rfl
  rw [hb.1]
  refine runs_bind (runs_copyDataToMemory hb.2 hi ha hn hneed hfits hmem fun mem' => ?_)
  have hio := h.ioGas
  have hg' : g ≤ s.ioGas := hg
  refine nextPC_spec rfl hlands ⟨rfl, rfl, rfl, show g < 2 ^ 64 by omega⟩ fun hm => ?_
  obtain ⟨h1, h2⟩ := hprice hm
  have hpay : g + price ≤ s.ioGas :=
    hpaid ((Nat.add_le_add h2 (copyCost_le hm hcopy rfl)).trans (by norm_num))
  show g < s.ioGas
  omega

/-- What `RETURN` and `REVERT` do before they end the run. -/
theorem Fetched.outputCase {Q : Bytes → VM W → Prop} {E : VMException → VM W → Prop}
    (h : Fetched face op s) (hargs : 2 ≤ s.sp.length)
    (hQ : ∀ b t, Kept s t → t.ioGas ≤ s.ioGas → Q b t)
    (hE : ∀ t : VM W, t.ioGas = s.ioGas → E .OutOfGas t) :
    Runs (outputCase face) s Q E := by
  have hprice := h.price
  unfold VM.outputCase
  refine runs_bind (runs_modify (runs_bind (runs_item (show 0 < s.sp.length by omega)
    fun offset _ => ?_)))
  refine runs_bind (runs_item (show 1 < s.sp.length by omega) fun size _ => ?_)
  refine runs_bind (runs_memNeed (fun need hneed hfits => ?_) (hE _ rfl))
  refine VM.runs_pay (by omega) (fun r m mem g hmem hg _ => ?_) fun t ht => hE t ht
  refine runs_bind (runs_memSlice (slice_fits hneed hfits hmem) fun b => ?_)
  exact runs_bind (runs_modify (runs_pure
    (hQ _ _ ⟨rfl, rfl, rfl, lt_of_le_of_lt hg h.ioGas⟩ hg)))

end Memory

section Others

theorem Fetched.sstore (h : Fetched face .SSTORE s) :
    Runs (sstore face) s (Bounces face .SSTORE s) (Fails s) := by
  have hargs : 2 ≤ s.sp.length := h.args
  -- What follows the price, whatever it is and whatever the refunds are.
  have hrest : ∀ key w gas ext, (Metered face → 1 ≤ gas) → Runs (do
      updateIOGas
      modify fun s => { s with ext := face.setStore s.ext key w }
      nextPC 1) { s with runGas := gas, ext := ext } (Bounces face .SSTORE s) (Fails s) := by
    intro key w gas ext hgas
    refine runs_bind (runs_updateIOGas (fun hle => ?_) (fails_of (by decide) rfl))
    have hle' : gas ≤ s.ioGas := hle
    exact runs_bind (runs_modify (h.next (fun _ hpc => hpc) hgas
      (show s.ioGas - gas + gas ≤ s.ioGas by omega) rfl rfl rfl rfl))
  have hset (hm : Metered face) := hm.priced.positive face.evmSchedule.sstoreSetGas (by simp)
  have hreset (hm : Metered face) := hm.priced.positive face.evmSchedule.sstoreResetGas (by simp)
  unfold VM.sstore
  refine runs_bind (runs_get ?_)
  refine runs_bind (runs_item (by omega) fun key _ => ?_)
  refine runs_bind (runs_item (by omega) fun w _ => ?_)
  refine runs_bind (runs_ite (fun _ => ?_) fun _ => runs_ite (fun _ => ?_) fun _ => ?_)
  · refine runs_bind (runs_toInt63 (fun _ => ?_) (fails_of (by decide) rfl))
    exact runs_setRunGas (hrest key w _ s.ext hset)
  · refine runs_bind (runs_toInt63 (fun _ => ?_) (fails_of (by decide) rfl))
    exact runs_bind (runs_setRunGas (runs_modify (hrest key w _ _ hreset)))
  · refine runs_bind (runs_toInt63 (fun _ => ?_) (fails_of (by decide) rfl))
    exact runs_setRunGas (hrest key w _ s.ext hreset)

/-- The bytes of a push are read one after the other. -/
theorem runs_pushLoop {n : ℕ} {t : VM W} {Q : Unit → VM W → Prop}
    {E : VMException → VM W → Prop} (hpc : t.pc + n ≤ t.code.length) (hspp : 0 < t.spp.length)
    (hQ : ∀ l, l.length = t.spp.length → Q () { t with pc := t.pc + n, spp := l }) :
    Runs (pushLoop n) t Q E := by
  induction n generalizing t with
  | zero => exact runs_pure (hQ t.spp rfl)
  | succ n ih =>
    unfold pushLoop
    refine runs_bind (runs_top hspp fun w => ?_)
    refine runs_bind (runs_get (runs_bind (runs_codeByte (by omega) fun b _ => ?_)))
    refine runs_bind (runs_setTop hspp fun l hl => ?_)
    refine runs_bind (runs_modify (ih ?_ ?_ fun l' hl' => ?_))
    · show t.pc + 1 + n ≤ t.code.length
      omega
    · show 0 < l.length
      omega
    · have hlen : l'.length = l.length := hl'
      have hlast := hQ l' (by omega)
      rw [show t.pc + (n + 1) = t.pc + 1 + n by omega] at hlast
      exact hlast

theorem Fetched.pushCase {n : Fin 32} (h : Fetched face (.PUSH n) s) :
    Runs (pushCase n) s (Bounces face (.PUSH n) s) (Fails s) := by
  have hspp : 0 < s.spp.length := h.ret
  have hbytes : s.pc + (n.val + 1) < s.code.length := h.bytes
  have hio := h.ioGas
  unfold VM.pushCase
  refine runs_bind (runs_updateIOGas (fun hle => ?_) (fails_of (by decide) rfl))
  have hgoes : ∀ t : VM W, Kept s t → t.ioGas = s.ioGas - s.runGas →
      t.pc = s.pc + n.val + 2 → Goes face (.PUSH n) s t := by
    intro t hkept hgas hpc
    refine ⟨hkept, hpc, fun hm => ?_⟩
    have h1 := h.charged hm rfl
    omega
  refine runs_ite (fun hn => ?_) fun hn => ?_
  · refine runs_bind (runs_modify (runs_bind (runs_get (runs_bind (runs_codeByte
      (show s.pc + 1 < s.code.length by omega) fun b _ => ?_)))))
    refine runs_bind (runs_setTop hspp fun l hl => ?_)
    refine runs_bind (runs_modify (runs_pure (hgoes _ ⟨rfl, rfl, hl, ?_⟩ rfl ?_)))
    · show s.ioGas - s.runGas < 2 ^ 64
      omega
    · rw [hn]
      rfl
  · refine runs_bind (runs_setTop hspp fun l hl => ?_)
    refine runs_bind (runs_modify (runs_bind (runs_pushLoop ?_ ?_ fun l' hl' => ?_)))
    · show s.pc + 1 + (n.val + 1) ≤ s.code.length
      omega
    · show 0 < l.length
      rw [hl]
      exact hspp
    · refine runs_pure (hgoes _ ⟨rfl, rfl, hl'.trans hl, ?_⟩ rfl ?_)
      · show s.ioGas - s.runGas < 2 ^ 64
        omega
      · show s.pc + 1 + (n.val + 1) = s.pc + n.val + 2
        omega

/-- The end of an instruction that needs no memory and nothing but its tier price. -/
theorem Fetched.paid (h : Fetched face op s) {t : VM W}
    (htier : Charged (instructionInfo (some op)).gasPriceTier = true)
    (hgas : t.ioGas = s.ioGas - s.runGas) (hle : s.runGas ≤ s.ioGas) (hlands : Lands op s t)
    (hheight : t.spp.length = s.spp.length) (hcode : t.code = s.code)
    (hdests : t.jumpDests = s.jumpDests) : Goes face op s t := by
  have hio := h.ioGas
  refine ⟨⟨hcode, hdests, hheight, by omega⟩, hlands, fun hm => ?_⟩
  have h1 := h.charged hm htier
  omega

theorem Fetched.jump (h : Fetched face .JUMP s) :
    Runs jump s (Bounces face .JUMP s) (Fails s) := by
  have hargs : 1 ≤ s.sp.length := h.args
  unfold VM.jump
  refine runs_bind (runs_updateIOGas (fun hle => ?_) (fails_of (by decide) rfl))
  refine runs_bind (runs_item hargs fun a _ => ?_)
  refine runs_bind (runs_verifyJumpDest (fun pc hpc => ?_) ⟨by decide, Nat.sub_le _ _⟩)
  exact runs_bind (runs_modify (runs_pure (h.paid rfl rfl hle hpc rfl rfl rfl)))

theorem Fetched.jumpi (h : Fetched face .JUMPI s) :
    Runs jumpi s (Bounces face .JUMPI s) (Fails s) := by
  have hargs : 2 ≤ s.sp.length := h.args
  unfold VM.jumpi
  refine runs_bind (runs_updateIOGas (fun hle => ?_) (fails_of (by decide) rfl))
  refine runs_bind (runs_item hargs fun condition hcondition => ?_)
  have hitem : s.sp[1]? = some condition := hcondition
  refine runs_ite (fun hne => ?_) fun heq => ?_
  · refine runs_bind (runs_item (show 0 < s.sp.length by omega) fun a _ => ?_)
    refine runs_bind (runs_verifyJumpDest (fun pc hpc => ?_) ⟨by decide, Nat.sub_le _ _⟩)
    refine runs_bind (runs_modify (runs_pure (h.paid rfl rfl hle ?_ rfl rfl rfl)))
    rw [Lands, if_neg (by simpa [hitem] using hne)]
    exact hpc
  · unfold nextPC
    refine runs_bind (runs_modify (runs_pure (h.paid rfl rfl hle ?_ rfl rfl rfl)))
    rw [Lands, if_pos (by rw [hitem, not_not.mp heq])]

theorem Fetched.swapCase {n : Fin 16} (h : Fetched face (.SWAP n) s) :
    Runs (swapCase (n.val + 1)) s (Bounces face (.SWAP n) s) (Fails s) := by
  have hargs : n.val + 2 ≤ s.sp.length := h.args
  unfold VM.swapCase
  refine runs_bind (runs_updateIOGas (fun hle => ?_) (fails_of (by decide) rfl))
  refine runs_bind (runs_item (show 0 < s.sp.length by omega) fun a _ => ?_)
  refine runs_bind (runs_item (show n.val + 1 < s.sp.length by omega) fun b _ => ?_)
  unfold nextPC
  refine runs_bind (runs_modify (runs_bind (runs_modify (runs_pure
    (h.paid rfl rfl hle rfl ?_ rfl rfl)))))
  simp only [List.length_set]

theorem Fetched.suicideCase (h : Fetched face .SUICIDE s) :
    Runs (suicideCase face) s (Bounces face .SUICIDE s) (Fails s) := by
  have hargs : 1 ≤ s.sp.length := h.args
  have hio := h.ioGas
  -- What follows the price, whatever it is.
  have hrest : ∀ dest gas, Runs (do
      updateIOGas
      modify fun s => { s with ext := face.suicide s.ext dest }
      pure .stop) { s with runGas := gas } (Bounces face .SUICIDE s) (Fails s) := by
    intro dest gas
    refine runs_bind (runs_updateIOGas (fun hle => ?_) (fails_of (by decide) rfl))
    refine runs_bind (runs_modify (runs_pure ⟨⟨rfl, rfl, rfl, ?_⟩, Nat.sub_le _ _⟩))
    show s.ioGas - gas < 2 ^ 64
    omega
  unfold VM.suicideCase
  refine runs_bind (runs_toInt63 (fun _ => ?_) (fails_of (by decide) rfl))
  refine runs_bind (runs_setRunGas (runs_bind (runs_item hargs fun a _ => ?_)))
  refine runs_bind (runs_modify ?_)
  split_ifs
  · exact hrest _ _
  · exact hrest _ _

end Others

section Calls

theorem createGas_le (g : Word) (b : Bool) : (if b then g else g - g / 64) ≤ g := by
  cases b with
  | true => exact BitVec.le_refl g
  | false =>
    have hdiv : g / 64 ≤ g := by
      rw [BitVec.le_def, BitVec.toNat_udiv]
      exact Nat.div_le_self _ _
    show g - g / 64 ≤ g
    rw [BitVec.le_def, BitVec.toNat_sub_of_le hdiv]
    exact Nat.sub_le _ _

/-- What is left after a creation is at most what there was. -/
theorem settle_le {g : ℕ} {gas created : Word} (hg : g < 2 ^ 64)
    (hcreated : created ≤ BitVec.ofNat 256 g) (hgas : gas ≤ created) :
    u64 (BitVec.ofNat 256 g - (created - gas)).toNat ≤ g := by
  have hle : (BitVec.ofNat 256 g - (created - gas)).toNat ≤ g := by bv_omega
  exact (Nat.mod_le _ _).trans hle

theorem Fetched.caseCreate (h : Fetched face .CREATE s) :
    Runs (caseCreate face) s (fun _ t => Goes face .CREATE s t) (Fails s) := by
  have hargs : 3 ≤ s.sp.length := h.args
  have hio := h.ioGas
  unfold VM.caseCreate
  refine runs_bind (runs_toInt63 (fun hprice => ?_) (fails_of (by decide) rfl))
  refine runs_bind (runs_setRunGas ?_)
  refine runs_bind (runs_item (show 1 < s.sp.length by omega) fun initOff _ => ?_)
  refine runs_bind (runs_item (show 2 < s.sp.length by omega) fun initSize _ => ?_)
  refine runs_bind (runs_memNeed (fun need hneed hfits => ?_) (fails_of (by decide) rfl))
  refine h.runs_pay (by omega) hprice fun r m mem g hmem hg => ?_
  refine runs_bind (runs_item (show 0 < s.sp.length by omega) fun endowment _ => ?_)
  -- In both branches at most the gas `g` is left.
  have hgoes : ∀ t : VM W, Metered face → t.ioGas ≤ g → t.ioGas < s.ioGas := by
    intro t hm ht
    have h1 := hm.priced.positive face.evmSchedule.createGas (by simp)
    omega
  refine runs_bind (runs_get (runs_bind (runs_ite (fun _ => ?_) fun _ => ?_)))
  · refine runs_bind (runs_memSlice (slice_fits hneed hfits hmem) fun b => ?_)
    refine runs_bind (runs_modify ?_)
    refine runs_setTop h.ret fun l hl => runs_modify ?_
    refine ⟨⟨rfl, rfl, hl, Nat.mod_lt _ (by norm_num)⟩, rfl, fun hm => hgoes _ hm ?_⟩
    exact settle_le (show g < 2 ^ 64 by omega) (createGas_le _ _) (hm.create _ _ _ _)
  · refine runs_setTop h.ret fun l hl => runs_modify ?_
    exact ⟨⟨rfl, rfl, hl, show g < 2 ^ 64 by omega⟩, rfl, fun hm => hgoes _ hm le_rfl⟩

/-- A price that is added in some cases. -/
theorem runs_surcharge {c : Prop} [Decidable c] {price : ℕ} {Q : Unit → VM W → Prop}
    {E : VMException → VM W → Prop}
    (hQ : ∀ r, (s.runGas + price < 2 ^ 64 → r = s.runGas + if c then price else 0) →
      Q () { s with runGas := r }) (hE : E .OutOfGas s) :
    Runs (if c then do
      let gas ← toInt63 price
      modify fun s => { s with runGas := u64 (s.runGas + gas) }
    else pure ()) s Q E := by
  refine runs_ite (fun hc => ?_) fun hc => ?_
  · refine runs_bind (runs_toInt63 (fun _ => runs_modify (hQ _ fun hlt => ?_)) hE)
    rw [if_pos hc, u64_of_lt hlt]
  · refine runs_pure (hQ s.runGas fun _ => ?_)
    rw [if_neg hc, Nat.add_zero]

/-- What a call leaves to the machine and what it hands over. -/
structure SetUp (face : ExtVMFace W) (s : VM W) (gas : Word) (outOff outSize : ℕ) (t : VM W) :
    Prop where
  code : t.code = s.code
  jumpDests : t.jumpDests = s.jumpDests
  spp : t.spp = s.spp
  pc : t.pc = s.pc
  ioGas : t.ioGas ≤ s.ioGas
  output : outSize = 0 ∨ outOff + outSize ≤ t.mem.length
  paid : Metered face → t.ioGas + gas.toNat < s.ioGas

theorem toNat_add_le (a : Word) (n : ℕ) : (a + BitVec.ofNat 256 n).toNat ≤ a.toNat + n := by
  rw [BitVec.toNat_add, BitVec.toNat_ofNat]
  have hn := Nat.mod_le n (2 ^ 256)
  exact (Nat.mod_le _ _).trans (by omega)

/-- The stipend is covered by what a transfer costs. -/
theorem stipend_le (hm : Metered face) {c : Prop} [Decidable c] {callGas : Word} {r₁ r₂ : ℕ}
    (hr₁ : r₁ ≤ 200000 ∧ 1 ≤ r₁)
    (hr₂ : r₁ + face.evmSchedule.callValueTransferGas < 2 ^ 64 →
      r₂ = r₁ + if c then face.evmSchedule.callValueTransferGas else 0) :
    r₂ ≤ 300000 ∧ (if c then callGas + BitVec.ofNat 256 face.evmSchedule.callStipend
      else callGas).toNat + 1 ≤ callGas.toNat + r₂ := by
  have htransfer := hm.priced.small face.evmSchedule.callValueTransferGas (by simp)
  have hstipend := hm.priced.stipend
  have hadd := toNat_add_le callGas face.evmSchedule.callStipend
  have h2 := hr₂ (by omega)
  split_ifs at h2 ⊢ <;> omega

theorem Fetched.caseCallSetup (h : Fetched face op s)
    (hargs : (if op = .DELEGATECALL then 2 else 3) + 3 < s.sp.length) :
    Runs (caseCallSetup face op) s (fun c t => SetUp face s c.1.gas c.2.2.1 c.2.2.2 t)
      (Fails s) := by
  have hio := h.ioGas
  have hlen : 5 < s.sp.length := by split_ifs at hargs <;> omega
  unfold VM.caseCallSetup
  refine runs_bind (runs_toInt63 (fun hprice => ?_) (fails_of (by decide) rfl))
  refine runs_bind (runs_setRunGas ?_)
  refine runs_bind (runs_item (show 1 < s.sp.length by omega) fun a _ => ?_)
  refine runs_bind (runs_item (show 2 < s.sp.length by omega) fun w _ => ?_)
  refine runs_bind (runs_get ?_)
  refine runs_bind (runs_surcharge (fun r₁ hr₁ => ?_) (fails_of (by decide) rfl))
  refine runs_bind (runs_surcharge (fun r₂ hr₂ => ?_) (fails_of (by decide) rfl))
  generalize (if op = Instruction.DELEGATECALL then 2 else 3) = sizesOffset at hargs ⊢
  refine runs_bind (runs_item (show sizesOffset < s.sp.length by omega) fun inputOffset _ => ?_)
  refine runs_bind (runs_item (show sizesOffset + 1 < s.sp.length by omega) fun inputSize _ => ?_)
  refine runs_bind (runs_item (show sizesOffset + 2 < s.sp.length by omega) fun outputOffset _ => ?_)
  refine runs_bind (runs_item hargs fun outputSize _ => ?_)
  refine runs_bind (runs_memNeed (fun input hinput hinfits => ?_) (fails_of (by decide) rfl))
  refine runs_bind (runs_memNeed (fun output houtput houtfits => ?_) (fails_of (by decide) rfl))
  refine VM.runs_pay (by omega) (fun r m mem g hmem hg hpaid => ?_) fun t ht =>
    fails_of (by decide) ht
  have hg' : g ≤ s.ioGas := hg
  refine runs_bind (runs_item (show 0 < s.sp.length by omega) fun requested _ => ?_)
  refine runs_bind (runs_get ?_)
  generalize (if face.evmSchedule.staticCallDepthLimit = true then requested
    else if requested ≤ BitVec.ofNat 256 (g - g / 64) then requested
      else BitVec.ofNat 256 (g - g / 64)) = callGas
  refine runs_bind (runs_toInt63 (fun hcallGas => ?_) ⟨by decide, hg⟩)
  refine runs_bind (runs_setRunGas (runs_bind (runs_updateIOGas (fun hle => ?_) ⟨by decide, hg⟩)))
  have hle' : callGas.toNat ≤ g := hle
  refine runs_bind (runs_get ?_)
  have hsetUp : ∀ gas : Word, gas = (if op ≠ .DELEGATECALL ∧ 0 < w then
      callGas + BitVec.ofNat 256 face.evmSchedule.callStipend else callGas) →
      ∀ t : VM W, t = { s with
        runGas := callGas.toNat, newMemSize := m, mem := mem, ioGas := g - callGas.toNat } →
      SetUp face s gas (u64 outputOffset.toNat) (u64 outputSize.toNat) t := by
    rintro gas hgas t rfl
    refine ⟨rfl, rfl, rfl, rfl, (Nat.sub_le _ _).trans hg',
      slice_fits houtput houtfits ((le_max_right _ _).trans hmem), fun hm => ?_⟩
    have hbase := hm.priced.small face.evmSchedule.callGas (by simp)
    have hnew := hm.priced.small face.evmSchedule.callNewAccountGas (by simp)
    have hone := hm.priced.positive face.evmSchedule.callGas (by simp)
    have hfirst : r₁ ≤ 200000 ∧ 1 ≤ r₁ := by
      have h1 := hr₁ (show face.evmSchedule.callGas + _ < 2 ^ 64 by omega)
      rw [h1]
      show face.evmSchedule.callGas + _ ≤ _ ∧ 1 ≤ face.evmSchedule.callGas + _
      split_ifs <;> omega
    obtain ⟨hsmall, hstipend⟩ := stipend_le hm hfirst hr₂
    rw [← hgas] at hstipend
    have hpay : g + r₂ ≤ s.ioGas := hpaid ((Nat.add_le_add hsmall
      (copyCost_zero (by exact h.copyMemSize)).le).trans (by norm_num))
    show g - callGas.toNat + gas.toNat < s.ioGas
    omega
  refine runs_bind (runs_ite (fun hmade => ?_) fun _ => ?_)
  · refine runs_memSlice (slice_fits hinput hinfits ((le_max_left _ _).trans hmem)) fun data => ?_
    exact runs_pure (hsetUp _ rfl _ rfl)
  · exact runs_pure (runs_pure (hsetUp _ rfl _ rfl))

theorem Fetched.caseCall (h : Fetched face op s)
    (hop : op = .CALL ∨ op = .CALLCODE ∨ op = .DELEGATECALL) :
    Runs (caseCall face op) s (fun _ t => Goes face op s t) (Fails s) := by
  have hargs : (if op = .DELEGATECALL then 2 else 3) + 3 < s.sp.length := by
    have hlen := h.args
    rcases hop with rfl | rfl | rfl
    · exact hlen
    · exact hlen
    · exact hlen
  have hret : 0 < s.spp.length := by
    have hlen := h.ret
    rcases hop with rfl | rfl | rfl
    · exact hlen
    · exact hlen
    · exact hlen
  have hlands : ∀ t : VM W, t.pc = s.pc + 1 → Lands op s t := by
    intro t hpc
    rcases hop with rfl | rfl | rfl <;> exact hpc
  unfold VM.caseCall
  refine runs_bind ((h.caseCallSetup hargs).imp fun c t hsetUp => ?_)
  obtain ⟨callParams, made, outOff, outSize⟩ := c
  have hc : SetUp face s callParams.gas outOff outSize t := hsetUp
  have hspp : 0 < t.spp.length := by
    rw [hc.spp]
    exact hret
  -- The call gives back at most what it got, and that was paid for.
  have hgoes : ∀ left : Word, (Metered face → left ≤ callParams.gas) → ∀ t' : VM W,
      t'.ioGas = u64 (t.ioGas + u64 left.toNat) → t'.code = t.code → t'.jumpDests = t.jumpDests →
      t'.spp.length = t.spp.length → t'.pc = t.pc + 1 → Goes face op s t' := by
    intro left hleft t' hgas hcode hdests hspp' hpc
    have hcut : u64 left.toNat ≤ left.toNat := Nat.mod_le _ _
    have hsum : t'.ioGas ≤ t.ioGas + u64 left.toNat := hgas ▸ Nat.mod_le _ _
    refine ⟨⟨hcode.trans hc.code, hdests.trans hc.jumpDests, by rw [hspp', hc.spp], ?_⟩,
      hlands _ (by rw [hpc, hc.pc]), fun hm => ?_⟩
    · rw [hgas]
      exact Nat.mod_lt _ (by norm_num)
    · have hpaid := hc.paid hm
      have hle := BitVec.le_def.mp (hleft hm)
      omega
  refine runs_bind (runs_ite (fun _ => ?_) fun _ => ?_)
  · refine runs_bind (runs_get (runs_bind (runs_modify (runs_bind (runs_memWrite ?_
      fun mem _ => ?_)))))
    · have hout := hc.output
      rw [List.length_take]
      show _ ∨ outOff + _ ≤ t.mem.length
      omega
    refine runs_bind (runs_setTop hspp fun l hl => runs_modify (runs_modify ?_))
    exact hgoes _ (fun hm => hm.call _ _) _ rfl rfl rfl hl rfl
  · refine runs_bind (runs_setTop hspp fun l hl => runs_modify (runs_modify ?_))
    exact hgoes callParams.gas (fun _ => BitVec.le_refl _) _ rfl rfl rfl hl rfl

end Calls

section Switch

theorem Fetched.interpretCase (h : Fetched face op s) :
    Runs (interpretCase sha3 face (some op)) s (Bounces face op s) (Fails s) := by
  have hio := h.ioGas
  have hbad : Runs (throw .BadInstruction) s (Bounces face op s) (Fails s) :=
    runs_throw (fails_of (by decide) rfl)
  cases op with
  | CREATE => exact runs_pure ⟨rfl, rfl⟩
  | CALL => exact runs_pure ⟨rfl, Or.inl rfl⟩
  | CALLCODE => exact runs_pure ⟨rfl, Or.inr (Or.inl rfl)⟩
  | DELEGATECALL => exact runs_ite (fun _ => runs_pure ⟨rfl, Or.inr (Or.inr rfl)⟩) fun _ => hbad
  | RETURN =>
    refine runs_bind (h.outputCase h.args (fun b t hkept hle => ?_) fun t ht =>
      fails_of (by decide) ht)
    exact runs_bind (runs_modify (runs_pure
      ⟨⟨hkept.code, hkept.jumpDests, hkept.height, hkept.ioGas⟩, hle⟩))
  | REVERT =>
    refine runs_ite (fun _ => ?_) fun _ => hbad
    refine runs_bind (h.outputCase h.args (fun b t _ hle => ?_) fun t ht =>
      fails_of (by decide) ht)
    exact runs_throw ⟨by simp, hle⟩
  | SUICIDE => exact h.suicideCase
  | STOP =>
    refine runs_bind (runs_updateIOGas (fun _ => ?_) (fails_of (by decide) rfl))
    exact runs_pure ⟨⟨rfl, rfl, rfl, lt_of_le_of_lt (Nat.sub_le _ _) hio⟩, Nat.sub_le _ _⟩
  | MLOAD => exact h.mload
  | MSTORE => exact h.mstore
  | MSTORE8 => exact h.mstore8
  | SHA3 => exact h.sha3Case
  | LOG n => exact h.logCase
  | EXP => exact h.expCase
  | ADD | MUL | SUB | DIV | SDIV | MOD | SMOD | LT | GT | SLT | SGT | EQ | AND | OR | XOR | BYTE
    | SIGNEXTEND =>
    exact h.ordinary le_rfl rfl (fun _ hpc => hpc) fun _ _ => reads_binary h.args
  | NOT | ISZERO | BLOCKHASH =>
    exact h.ordinary le_rfl rfl (fun _ hpc => hpc) fun _ _ => reads_unary h.args
  | ADDMOD | MULMOD =>
    exact h.ordinary le_rfl rfl (fun _ hpc => hpc) fun _ _ => reads_ternary h.args
  | ADDRESS | ORIGIN | CALLER | CALLVALUE | CALLDATASIZE | CODESIZE | GASPRICE | COINBASE
    | TIMESTAMP | NUMBER | DIFFICULTY | GASLIMIT | PC | MSIZE | GAS =>
    exact h.ordinary le_rfl rfl (fun _ hpc => hpc) fun _ _ => reads_nullary
  | CALLDATALOAD =>
    exact h.ordinary le_rfl rfl (fun _ hpc => hpc) fun _ _ => reads_calldataload h.args
  | DUP n => exact h.ordinary (Nat.le_add_left _ _) rfl (fun _ hpc => hpc) fun _ _ => reads_item h.args
  | BALANCE =>
    exact h.priced le_rfl (fun hm => hm.priced.positive _ (by simp)) (fun _ hpc => hpc)
      fun _ _ => reads_unary h.args
  | EXTCODESIZE =>
    exact h.priced le_rfl (fun hm => hm.priced.positive _ (by simp)) (fun _ hpc => hpc)
      fun _ _ => reads_unary h.args
  | SLOAD =>
    exact h.priced le_rfl (fun hm => hm.priced.positive _ (by simp)) (fun _ hpc => hpc)
      fun _ _ => reads_unary h.args
  | CALLDATACOPY =>
    refine h.copyCase h.args (fun hm => ?_) (fun _ hpc => hpc) fun t _ => ?_
    · have h1 := h.charged hm rfl
      have h2 := h.small hm
      omega
    · exact runs_pure ⟨rfl, face.size_data⟩
  | CODECOPY =>
    refine h.copyCase h.args (fun hm => ?_) (fun _ hpc => hpc) fun t _ => ?_
    · have h1 := h.charged hm rfl
      have h2 := h.small hm
      omega
    · exact runs_pure ⟨rfl, face.size_code⟩
  | EXTCODECOPY =>
    refine runs_bind (runs_toInt63 (fun _ => ?_) (fails_of (by decide) rfl))
    refine runs_bind (runs_setRunGas (h.copyCase h.args (fun hm => ?_) (fun _ hpc => hpc)
      fun t ht => ?_))
    · exact ⟨hm.priced.positive _ (by simp), hm.priced.small _ (by simp)⟩
    · have hargs : 4 ≤ s.sp.length := h.args
      refine runs_bind (runs_get (runs_bind (runs_item (by rw [ht]; omega) fun a _ => ?_)))
      exact runs_pure ⟨rfl, face.size_codeAt _ _⟩
  | POP =>
    refine runs_bind (runs_updateIOGas (fun hle => ?_) (fails_of (by decide) rfl))
    exact runs_bind (runs_modify (runs_pure (h.paid rfl rfl hle rfl rfl rfl rfl)))
  | PUSH n => exact h.pushCase
  | JUMP => exact h.jump
  | JUMPI => exact h.jumpi
  | SWAP n => exact h.swapCase
  | SSTORE => exact h.sstore
  | JUMPDEST =>
    refine runs_bind (runs_setRunGas (runs_bind (runs_updateIOGas (fun hle => ?_)
      (fails_of (by decide) rfl))))
    have hle' : 1 ≤ s.ioGas := hle
    exact h.next (fun _ hpc => hpc) (fun _ => le_rfl) (show s.ioGas - 1 + 1 ≤ s.ioGas by omega)
      rfl rfl rfl rfl
  | PUSHC | JUMPC | JUMPCI | JUMPTO | JUMPIF | JUMPV | JUMPSUB | JUMPSUBV | RETURNSUB | BEGINSUB
    | BEGINDATA | BAD => exact hbad

end Switch

end VM
end XChain
