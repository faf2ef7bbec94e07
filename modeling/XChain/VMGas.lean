import XChain.VMCharges

/-!
# Gas

An instruction charges its price as a number, or runs out of gas because there is less than
that; no sum or product on the way is cut. A run keeps what makes this so: the memory was
paid for out of less than 2^63 units of gas.
-/
namespace XChain
namespace VM

open Machine UnboundedMemory

variable {W : Type} {sha3 : Bytes → H256} {face : ExtVMFace W} {stray : UInt32} {s t : VM W}
variable {op : Instruction}

section Cases

/-- The instruction writes to the memory. -/
def stores : Instruction → Bool
  | .MSTORE => true
  | .MSTORE8 => true
  | .CALLDATACOPY => true
  | .CODECOPY => true
  | .EXTCODECOPY => true
  | .CALL => true
  | .CALLCODE => true
  | .DELEGATECALL => true
  | _ => false

/-- The memory after an instruction: it reaches far enough, and only a store changes its cells. -/
structure Extended (op : Instruction) (l : List Word) (mem mem' : Bytes) : Prop where
  length : mem'.length = max mem.length (rounded (memoryNeed op l))
  cells : stores op = false → ofList mem' = ofList mem

theorem extended_grow (op : Instruction) (l : List Word) (mem : Bytes) :
    Extended op l mem (grow mem (memoryNeed op l)) :=
  ⟨length_grow _ _, fun _ => ofList_grow _ _⟩

theorem extended_stored {l : List Word} {mem mem' : Bytes} (hstores : stores op = true)
    (hlength : mem'.length = max mem.length (rounded (memoryNeed op l))) :
    Extended op l mem mem' := ⟨hlength, fun h => absurd h (by rw [hstores]; decide)⟩

/-- An instruction whose case is done: it was paid for, and the memory reaches far enough. -/
structure Settled (face : ExtVMFace W) (stray : UInt32) (op : Instruction) (s t : VM W) : Prop where
  afford : baseCost face stray op s.ext s.mem.length s.sp ≤ s.ioGas
  ioGas : t.ioGas = s.ioGas - baseCost face stray op s.ext s.mem.length s.sp
  memory : Extended op s.sp s.mem t.mem

/-- What holds after a case, by where the trampoline goes. -/
def Settles (face : ExtVMFace W) (stray : UInt32) (op : Instruction) (s : VM W) :
    Bounce → VM W → Prop
  | .interpretCases, t => Settled face stray op s t
  | .caseCreate, t => t = s ∧ op = .CREATE
  | .caseCall, t => t = s ∧ handsOver op = true
  | .stop, t => baseCost face stray op s.ext s.mem.length s.sp ≤ s.ioGas ∧
      t.ioGas = s.ioGas - baseCost face stray op s.ext s.mem.length s.sp

/-- How an instruction of the given price ends a run: it runs out of gas if there is less, and
a bad jump and a `REVERT` come after the payment. -/
def Halts (price : ℕ) (s : VM W) (e : VMException) (t : VM W) : Prop :=
  match e with
  | .OutOfGas => s.ioGas < price
  | .BadJumpDestination => price ≤ s.ioGas ∧ t.ioGas = s.ioGas - price
  | .RevertInstruction _ => price ≤ s.ioGas ∧ t.ioGas = s.ioGas - price
  | _ => True

theorem baseCost_plain (hneed : memoryNeed op s.sp = 0) (hcopied : copied op s.sp = 0) :
    baseCost face stray op s.ext s.mem.length s.sp = fee face stray op s.ext s.sp := by
  rw [baseCost, hneed, hcopied, expansion_zero, copyPrice_zero, Nat.add_zero]

/-- An instruction that leaves the memory alone. -/
theorem settled_plain (hneed : memoryNeed op s.sp = 0) (hcopied : copied op s.sp = 0)
    (hle : fee face stray op s.ext s.sp ≤ s.ioGas)
    (hgas : t.ioGas = s.ioGas - fee face stray op s.ext s.sp) (hmem : t.mem = s.mem) :
    Settled face stray op s t := by
  have hbase : baseCost face stray op s.ext s.mem.length s.sp = fee face stray op s.ext s.sp :=
    baseCost_plain hneed hcopied
  refine ⟨hbase ▸ hle, hbase ▸ hgas, ?_, fun _ => by rw [hmem]⟩
  rw [hmem, hneed, rounded_zero, Nat.max_zero]

theorem exists_cons {l : List Word} (h : 1 ≤ l.length) : ∃ x rest, l = x :: rest :=
  List.exists_cons_of_length_pos h

/-- The machine whose price so far is that of the tier of its instruction. -/
structure Tiered (face : ExtVMFace W) (stray : UInt32) (op : Instruction) (s : VM W) : Prop
    extends Fetched face op s, Ready face s where
  tier : s.runGas = tierGas face stray (instructionInfo (some op)).gasPriceTier

theorem Tiered.ordinary {e : Exec W Word} (h : Tiered face stray op s)
    (hret : 1 ≤ (instructionInfo (some op)).ret)
    (hfee : fee face stray op s.ext s.sp =
      tierGas face stray (instructionInfo (some op)).gasPriceTier)
    (hneed : memoryNeed op s.sp = 0) (hcopied : copied op s.sp = 0)
    (he : ∀ g r, Reads e { s with ioGas := g, runGas := r }) :
    Runs (ordinary e) s (Settles face stray op s)
      (Halts (baseCost face stray op s.ext s.mem.length s.sp) s) := by
  obtain ⟨x, rest, hspp⟩ := exists_cons (hret.trans h.ret)
  obtain ⟨w, hw⟩ := (he (s.ioGas - s.runGas) s.runGas).exists_ok
  have hrun : s.runGas = fee face stray op s.ext s.sp := h.tier.trans hfee.symm
  refine runs_ordinary hspp hw (fun hle => ?_) fun hlt => ?_
  · rw [hrun] at hle
    exact settled_plain hneed hcopied hle (by rw [← hrun]) rfl
  · show s.ioGas < baseCost face stray op s.ext s.mem.length s.sp
    rw [baseCost_plain hneed hcopied, ← hrun]
    exact hlt

theorem Tiered.priced {e : Exec W Word} {gas : ℕ} (h : Tiered face stray op s)
    (hret : 1 ≤ (instructionInfo (some op)).ret) (hfee : fee face stray op s.ext s.sp = gas)
    (hneed : memoryNeed op s.sp = 0) (hcopied : copied op s.sp = 0)
    (he : ∀ g r, Reads e { s with ioGas := g, runGas := r }) :
    Runs (priced gas e) s (Settles face stray op s)
      (Halts (baseCost face stray op s.ext s.mem.length s.sp) s) := by
  subst hfee
  obtain ⟨x, rest, hspp⟩ := exists_cons (hret.trans h.ret)
  obtain ⟨w, hw⟩ := (he (s.ioGas - fee face stray op s.ext s.sp) _).exists_ok
  refine runs_priced h.paid.ioGas_le hspp hw (fun hle => settled_plain hneed hcopied hle rfl rfl)
    fun hlt t => ?_
  show s.ioGas < baseCost face stray op s.ext s.mem.length s.sp
  rw [baseCost_plain hneed hcopied]
  exact hlt

/-- An instruction that only pays before it goes on, or fails. -/
theorem Tiered.runs_updateIOGas {α : Type} {rest : Exec W α} {Q : α → VM W → Prop}
    {E : VMException → VM W → Prop} (h : Tiered face stray op s)
    (hfee : fee face stray op s.ext s.sp =
      tierGas face stray (instructionInfo (some op)).gasPriceTier)
    (hQ : fee face stray op s.ext s.sp ≤ s.ioGas →
      Runs rest { s with ioGas := s.ioGas - fee face stray op s.ext s.sp } Q E)
    (hE : s.ioGas < fee face stray op s.ext s.sp → E .OutOfGas s) :
    Runs (do
      updateIOGas
      rest) s Q E := by
  have hrun : s.runGas = fee face stray op s.ext s.sp := h.tier.trans hfee.symm
  refine runs_bind (runs_updateIOGas_exact (fun hle => ?_) fun hlt => hE (hrun ▸ hlt))
  have hstate : ({ s with ioGas := s.ioGas - s.runGas } : VM W) =
      { s with ioGas := s.ioGas - fee face stray op s.ext s.sp } := by rw [hrun]
  rw [hstate]
  exact hQ (hrun ▸ hle)

theorem halts_after {price fee : ℕ} (hprice : price = fee) (hle : fee ≤ s.ioGas) :
    Halts price s .BadJumpDestination { s with ioGas := s.ioGas - fee } := by
  subst hprice
  exact ⟨hle, rfl⟩

theorem Tiered.jump (h : Tiered face stray .JUMP s) :
    Runs jump s (Settles face stray .JUMP s)
      (Halts (baseCost face stray .JUMP s.ext s.mem.length s.sp) s) := by
  have hargs : 1 ≤ s.sp.length := h.args
  have hbase : baseCost face stray .JUMP s.ext s.mem.length s.sp = fee face stray .JUMP s.ext s.sp :=
    baseCost_plain rfl rfl
  refine h.runs_updateIOGas rfl (fun hle => ?_) fun hlt => hbase ▸ hlt
  refine runs_bind (runs_item_exact hargs ?_)
  refine runs_bind (runs_verifyJumpDest (fun pc _ => ?_) (halts_after hbase hle))
  exact runs_bind (runs_modify (runs_pure (settled_plain rfl rfl hle rfl rfl)))

theorem Tiered.jumpi (h : Tiered face stray .JUMPI s) :
    Runs jumpi s (Settles face stray .JUMPI s)
      (Halts (baseCost face stray .JUMPI s.ext s.mem.length s.sp) s) := by
  have hargs : 2 ≤ s.sp.length := h.args
  have hbase : baseCost face stray .JUMPI s.ext s.mem.length s.sp =
      fee face stray .JUMPI s.ext s.sp := baseCost_plain rfl rfl
  refine h.runs_updateIOGas rfl (fun hle => ?_) fun hlt => hbase ▸ hlt
  refine runs_bind (runs_item_exact hargs (runs_ite (fun _ => ?_) fun _ => ?_))
  · refine runs_bind (runs_item_exact (show 0 < s.sp.length by omega) ?_)
    refine runs_bind (runs_verifyJumpDest (fun pc _ => ?_) (halts_after hbase hle))
    exact runs_bind (runs_modify (runs_pure (settled_plain rfl rfl hle rfl rfl)))
  · exact runs_nextPC (settled_plain rfl rfl hle rfl rfl)

theorem Tiered.swapCase {n : Fin 16} (h : Tiered face stray (.SWAP n) s) :
    Runs (swapCase (n.val + 1)) s (Settles face stray (.SWAP n) s)
      (Halts (baseCost face stray (.SWAP n) s.ext s.mem.length s.sp) s) := by
  have hargs : n.val + 2 ≤ s.sp.length := h.args
  have hbase : baseCost face stray (.SWAP n) s.ext s.mem.length s.sp =
      fee face stray (.SWAP n) s.ext s.sp := baseCost_plain rfl rfl
  refine h.runs_updateIOGas rfl (fun hle => ?_) fun hlt => hbase ▸ hlt
  refine runs_bind (runs_item_exact (show 0 < s.sp.length by omega) ?_)
  refine runs_bind (runs_item_exact (show n.val + 1 < s.sp.length by omega) ?_)
  exact runs_bind (runs_modify (runs_nextPC (settled_plain rfl rfl hle rfl rfl)))

theorem Tiered.pushCase {n : Fin 32} (h : Tiered face stray (.PUSH n) s) :
    Runs (pushCase n) s (Settles face stray (.PUSH n) s)
      (Halts (baseCost face stray (.PUSH n) s.ext s.mem.length s.sp) s) := by
  have hspp : 0 < s.spp.length := h.ret
  have hbytes : s.pc + (n.val + 1) < s.code.length := h.bytes
  have hbase : baseCost face stray (.PUSH n) s.ext s.mem.length s.sp =
      fee face stray (.PUSH n) s.ext s.sp := baseCost_plain rfl rfl
  refine h.runs_updateIOGas rfl (fun hle => ?_) fun hlt => hbase ▸ hlt
  refine runs_ite (fun hn => ?_) fun hn => ?_
  · refine runs_bind (runs_modify (runs_bind (runs_get (runs_bind (runs_codeByte
      (show s.pc + 1 < s.code.length by omega) fun b _ => ?_)))))
    exact runs_bind (runs_setTop hspp fun l _ => runs_nextPC (settled_plain rfl rfl hle rfl rfl))
  · refine runs_bind (runs_setTop hspp fun l hl => ?_)
    refine runs_bind (runs_modify (runs_bind (runs_pushLoop ?_ ?_ fun l' hl' => ?_)))
    · show s.pc + 1 + (n.val + 1) ≤ s.code.length
      omega
    · show 0 < l.length
      rw [hl]
      exact hspp
    · exact runs_pure (settled_plain rfl rfl hle rfl rfl)

theorem Tiered.sstore (h : Tiered face stray .SSTORE s) :
    Runs (sstore face) s (Settles face stray .SSTORE s)
      (Halts (baseCost face stray .SSTORE s.ext s.mem.length s.sp) s) := by
  have hargs : 2 ≤ s.sp.length := h.args
  have hio := h.paid.ioGas_le
  have hbase : baseCost face stray .SSTORE s.ext s.mem.length s.sp =
      fee face stray .SSTORE s.ext s.sp := baseCost_plain rfl rfl
  -- What follows the price, whatever the refunds are.
  have hrest : ∀ key w gas ext, fee face stray .SSTORE s.ext s.sp = gas → Runs (do
      updateIOGas
      modify fun s => { s with ext := face.setStore s.ext key w }
      nextPC 1) { s with runGas := gas, ext := ext } (Settles face stray .SSTORE s)
      (Halts (baseCost face stray .SSTORE s.ext s.mem.length s.sp) s) := by
    rintro key w gas ext rfl
    refine runs_bind (runs_updateIOGas_exact (fun hle => ?_) fun hlt => hbase ▸ hlt)
    exact runs_bind (runs_modify (runs_nextPC (settled_plain rfl rfl hle rfl rfl)))
  have hdear : ∀ gas, fee face stray .SSTORE s.ext s.sp = gas → maxInt63 < gas →
      Halts (baseCost face stray .SSTORE s.ext s.mem.length s.sp) s .OutOfGas s := by
    rintro gas rfl hlarge
    rw [hbase]
    exact lt_of_le_of_lt hio hlarge
  refine runs_bind (runs_get (runs_bind (runs_item_exact (by omega) (runs_bind (runs_item_exact
    hargs ?_)))))
  by_cases hset : face.store s.ext (operand s.sp 0) = 0 ∧ operand s.sp 1 ≠ 0
  · have hfee : fee face stray .SSTORE s.ext s.sp = face.evmSchedule.sstoreSetGas := if_pos hset
    rw [if_pos hset]
    refine runs_bind (runs_bind (runs_toInt63_exact (fun _ => ?_) fun hlarge => hdear _ hfee hlarge))
    exact runs_setRunGas (hrest _ _ _ s.ext hfee)
  · have hfee : fee face stray .SSTORE s.ext s.sp = face.evmSchedule.sstoreResetGas := if_neg hset
    rw [if_neg hset]
    refine runs_bind (runs_ite (fun _ => ?_) fun _ => ?_)
    · refine runs_bind (runs_toInt63_exact (fun _ => ?_) fun hlarge => hdear _ hfee hlarge)
      exact runs_bind (runs_setRunGas (runs_modify (hrest _ _ _ _ hfee)))
    · refine runs_bind (runs_toInt63_exact (fun _ => ?_) fun hlarge => hdear _ hfee hlarge)
      exact runs_setRunGas (hrest _ _ _ s.ext hfee)

theorem Tiered.suicideCase (h : Tiered face stray .SUICIDE s) :
    Runs (suicideCase face) s (Settles face stray .SUICIDE s)
      (Halts (baseCost face stray .SUICIDE s.ext s.mem.length s.sp) s) := by
  have hargs : 1 ≤ s.sp.length := h.args
  have hbase : baseCost face stray .SUICIDE s.ext s.mem.length s.sp =
      fee face stray .SUICIDE s.ext s.sp := baseCost_plain rfl rfl
  have hsuicide := h.tabled.small face.evmSchedule.suicideGas (by simp)
  have hnew := h.tabled.small face.evmSchedule.callNewAccountGas (by simp)
  -- What follows the price.
  have hrest : ∀ dest, Runs (do
      updateIOGas
      modify fun s => { s with ext := face.suicide s.ext dest }
      pure .stop) { s with runGas := fee face stray .SUICIDE s.ext s.sp }
      (Settles face stray .SUICIDE s)
      (Halts (baseCost face stray .SUICIDE s.ext s.mem.length s.sp) s) := by
    intro dest
    refine runs_bind (runs_updateIOGas_exact (fun hle => ?_) fun hlt => hbase ▸ hlt)
    exact runs_bind (runs_modify (runs_pure ⟨hbase ▸ hle, by rw [hbase]⟩))
  refine runs_bind (runs_toInt63_exact (fun _ => ?_) fun hlarge => ?_)
  · refine runs_bind (runs_setRunGas (runs_bind (runs_item_exact hargs (runs_bind
      (runs_modify ?_)))))
    have hfee : fee face stray .SUICIDE s.ext s.sp = face.evmSchedule.suicideGas + if _ then _ else _ :=
      rfl
    split_ifs at hfee ⊢ with hc
    · have hsum : u64 (face.evmSchedule.suicideGas + face.evmSchedule.callNewAccountGas) =
          fee face stray .SUICIDE s.ext s.sp := by rw [hfee, u64_of_lt (by omega)]
      show Runs _ { s with runGas := u64 (face.evmSchedule.suicideGas +
        face.evmSchedule.callNewAccountGas) } _ _
      rw [hsum]
      exact hrest _
    · rw [show face.evmSchedule.suicideGas = fee face stray .SUICIDE s.ext s.sp from hfee.symm]
      exact hrest _
  · unfold maxInt63 at hlarge
    omega

end Cases

section MemoryCases

/-- The price of an instruction that pays for the memory and copies nothing. -/
theorem baseCost_reach {u : VM W} (hcopied : copied op s.sp = 0)
    (hfee : fee face stray op s.ext s.sp = u.runGas) (hsize : u.copyMemSize = 0)
    (hmem : u.mem = s.mem) :
    baseCost face stray op s.ext s.mem.length s.sp = due face (memoryNeed op s.sp) u := by
  rw [baseCost, hfee, hcopied, copyPrice_zero, due_of_zero hsize, hmem, Nat.add_zero]

theorem Tiered.mload (h : Tiered face stray .MLOAD s) :
    Runs (mload face) s (Settles face stray .MLOAD s)
      (Halts (baseCost face stray .MLOAD s.ext s.mem.length s.sp) s) := by
  obtain ⟨x, rest, hspp⟩ := exists_cons (show 1 ≤ s.spp.length from h.ret)
  have hbase : baseCost face stray .MLOAD s.ext s.mem.length s.sp =
      due face ((operand s.sp 0).toNat + 32) s := baseCost_reach rfl h.tier.symm h.copyMemSize rfl
  refine h.toReady.mload h.args hspp (fun hle => ?_) fun hlt t => hbase ▸ hlt
  exact ⟨hbase ▸ hle, by rw [hbase]; rfl, extended_grow _ _ _⟩

theorem Tiered.mstore (h : Tiered face stray .MSTORE s) :
    Runs (mstore face) s (Settles face stray .MSTORE s)
      (Halts (baseCost face stray .MSTORE s.ext s.mem.length s.sp) s) := by
  have hbase : baseCost face stray .MSTORE s.ext s.mem.length s.sp =
      due face ((operand s.sp 0).toNat + 32) s := baseCost_reach rfl h.tier.symm h.copyMemSize rfl
  refine h.toReady.mstore h.args (fun mem hle hmem => ?_) fun hlt t => hbase ▸ hlt
  exact ⟨hbase ▸ hle, by rw [hbase]; rfl, extended_stored rfl hmem.length⟩

theorem Tiered.mstore8 (h : Tiered face stray .MSTORE8 s) :
    Runs (mstore8 face) s (Settles face stray .MSTORE8 s)
      (Halts (baseCost face stray .MSTORE8 s.ext s.mem.length s.sp) s) := by
  have hbase : baseCost face stray .MSTORE8 s.ext s.mem.length s.sp =
      due face ((operand s.sp 0).toNat + 1) s := baseCost_reach rfl h.tier.symm h.copyMemSize rfl
  refine h.toReady.mstore8 h.args (fun mem hle hmem => ?_) fun hlt t => hbase ▸ hlt
  exact ⟨hbase ▸ hle, by rw [hbase]; rfl, extended_stored rfl hmem.length⟩

/-- The copying instructions, with the machine that they leave. -/
theorem runs_copyCase_exact {i : ℕ} {data : Exec W Bytes} {b : Bytes} {u : VM W}
    {Q : Bounce → VM W → Prop} {E : VMException → VM W → Prop} (h : Ready face u)
    (hu : u = { s with runGas := u.runGas }) (hargs : i + 2 < s.sp.length) (hb : b.length < 2 ^ 64)
    (hdata : ∀ t : VM W, t.sp = s.sp → t.ext = s.ext → data t = .ok b t)
    (hfee : fee face stray op s.ext s.sp = u.runGas)
    (hneed : memoryNeed op s.sp = needed (operand s.sp i) (operand s.sp (i + 2)))
    (hcopied : copied op s.sp = (operand s.sp (i + 2)).toNat)
    (hQ : ∀ t : VM W, baseCost face stray op s.ext s.mem.length s.sp ≤ s.ioGas →
      t.ioGas = s.ioGas - baseCost face stray op s.ext s.mem.length s.sp →
      Stored s.mem (operand s.sp i).toNat (memoryNeed op s.sp)
        (load (ofList b) (operand s.sp (i + 1)).toNat (operand s.sp (i + 2)).toNat) t.mem →
      t.spp = s.spp → t.pc = s.pc + 1 → t.ext = s.ext → Q .interpretCases t)
    (hE : s.ioGas < baseCost face stray op s.ext s.mem.length s.sp → ∀ t, E .OutOfGas t) :
    Runs (VM.copyCase face i data) u Q E := by
  have hsp : u.sp = s.sp := by rw [hu]
  have hext : u.ext = s.ext := by rw [hu]
  have hmem : u.mem = s.mem := by rw [hu]
  have hgas : u.ioGas = s.ioGas := by rw [hu]
  have hspp : u.spp = s.spp := by rw [hu]
  have hpc : u.pc = s.pc := by rw [hu]
  have hbase : baseCost face stray op s.ext s.mem.length s.sp =
      due face (needed (operand u.sp i) (operand u.sp (i + 2)))
        { u with copyMemSize := (operand u.sp (i + 2)).toNat } := by
    rw [baseCost, hneed, hcopied, hfee, due, hsp, hmem]
  refine h.copyCase (hsp ▸ hargs) hb (fun t ht hte => hdata t (ht.trans hsp) (hte.trans hext))
    (fun mem hle hstored => ?_) fun hlt t => hE ?_ t
  · rw [hgas] at hle
    refine hQ _ (hbase ▸ hle) ?_ ?_ hspp (by rw [← hpc]) hext
    · rw [hbase, ← hgas]
      rfl
    · rw [hneed, ← hsp, ← hmem]
      exact hstored
  · rw [hbase, ← hgas]
    exact hlt

theorem Tiered.copyCase {i : ℕ} {data : Exec W Bytes} {b : Bytes} {u : VM W} (h : Ready face u)
    (hu : u = { s with runGas := u.runGas }) (hargs : i + 2 < s.sp.length) (hb : b.length < 2 ^ 64)
    (hdata : ∀ t : VM W, t.sp = s.sp → t.ext = s.ext → data t = .ok b t)
    (hfee : fee face stray op s.ext s.sp = u.runGas)
    (hneed : memoryNeed op s.sp = needed (operand s.sp i) (operand s.sp (i + 2)))
    (hcopied : copied op s.sp = (operand s.sp (i + 2)).toNat) (hstores : stores op = true) :
    Runs (VM.copyCase face i data) u (Settles face stray op s)
      (Halts (baseCost face stray op s.ext s.mem.length s.sp) s) :=
  runs_copyCase_exact h hu hargs hb hdata hfee hneed hcopied
    (fun _ hle hgas hstored _ _ _ => ⟨hle, hgas, extended_stored hstores hstored.length⟩)
    fun hlt _ => hlt

theorem Tiered.fee_small (h : Tiered face stray op s)
    (hprice : fee face stray op s.ext s.sp ≤ maxInt63) :
    fee face stray op s.ext s.sp + copyPrice face.evmSchedule s.copyMemSize ≤ 2 ^ 63 := by
  rw [h.copyMemSize, copyPrice_zero]
  exact hprice.trans (by unfold maxInt63; norm_num)

/-- What does not fit the counter of the gas is not affordable. -/
theorem Tiered.dear (h : Tiered face stray op s)
    (hfee : maxInt63 < fee face stray op s.ext s.sp) :
    Halts (baseCost face stray op s.ext s.mem.length s.sp) s .OutOfGas t := by
  have hio := h.paid.ioGas_le
  show s.ioGas < baseCost _ _ _ _ _ _
  unfold baseCost
  omega

theorem Tiered.sha3Case (h : Tiered face stray .SHA3 s) :
    Runs (sha3Case sha3 face) s (Settles face stray .SHA3 s)
      (Halts (baseCost face stray .SHA3 s.ext s.mem.length s.sp) s) := by
  have hargs : 2 ≤ s.sp.length := h.args
  obtain ⟨x, rest, hspp⟩ := exists_cons (show 1 ≤ s.spp.length from h.ret)
  have hbase : baseCost face stray .SHA3 s.ext s.mem.length s.sp =
      due face (needed (operand s.sp 0) (operand s.sp 1))
        { s with runGas := fee face stray .SHA3 s.ext s.sp } :=
    baseCost_reach rfl rfl h.copyMemSize rfl
  refine runs_bind (runs_item_exact (by omega) ?_)
  rw [sha3_price h.tabled.toPriced]
  refine runs_bind (runs_toInt63_exact (fun hprice => ?_) fun hlarge => ?_)
  · refine runs_bind (runs_setRunGas (runs_bind (runs_item_exact (show 0 < s.sp.length by omega) ?_)))
    refine runs_span h.tabled ⟨h.paid.whole, h.paid.paid⟩ (h.fee_small hprice) (fun hneed hle => ?_)
      fun hlt t => hbase ▸ hlt
    refine runs_bind (runs_memSlice_exact (needed_slice hneed (need_le_grow s.mem _)) ?_)
    refine runs_bind (runs_setTop_exact hspp (runs_nextPC ?_))
    exact ⟨hbase ▸ hle, by rw [hbase]; rfl, extended_grow _ _ _⟩
  · exact h.dear hlarge

theorem Tiered.logCase {n : Fin 5} (h : Tiered face stray (.LOG n) s) :
    Runs (logCase face n.val) s (Settles face stray (.LOG n) s)
      (Halts (baseCost face stray (.LOG n) s.ext s.mem.length s.sp) s) := by
  have hargs : n.val + 2 ≤ s.sp.length := h.args
  have h0 : 0 < s.sp.length := by omega
  have h1 : 1 < s.sp.length := by omega
  have hbase : baseCost face stray (.LOG n) s.ext s.mem.length s.sp =
      due face (needed (operand s.sp 0) (operand s.sp 1))
        { s with runGas := fee face stray (.LOG n) s.ext s.sp } :=
    baseCost_reach rfl rfl h.copyMemSize rfl
  unfold VM.logCase logGasMem
  simp only [bind_assoc]
  refine runs_bind (runs_item_exact h1 ?_)
  rw [log_price h.tabled.toPriced n.isLt]
  refine runs_bind (runs_toInt63_exact (fun hprice => ?_) fun hlarge => ?_)
  · refine runs_bind (runs_setRunGas (runs_bind (runs_item_exact h0 ?_)))
    refine runs_span h.tabled ⟨h.paid.whole, h.paid.paid⟩ (h.fee_small hprice) (fun hneed hle => ?_)
      fun hlt t => hbase ▸ hlt
    refine runs_bind (runs_item_exact h0 (runs_bind (runs_item_exact h1 ?_)))
    refine runs_bind (Reads.runs (reads_topics hargs) fun ts => ?_)
    refine runs_bind (runs_memSlice_exact (needed_slice hneed (need_le_grow s.mem _)) ?_)
    refine runs_bind (runs_modify (runs_nextPC ?_))
    exact ⟨hbase ▸ hle, by rw [hbase]; rfl, extended_grow _ _ _⟩
  · exact h.dear hlarge

theorem Tiered.outputCase {Q : Bytes → VM W → Prop} {E : VMException → VM W → Prop}
    (h : Tiered face stray op s) (hargs : 2 ≤ s.sp.length)
    (hfee : fee face stray op s.ext s.sp =
      tierGas face stray (instructionInfo (some op)).gasPriceTier)
    (hneed : memoryNeed op s.sp = needed (operand s.sp 0) (operand s.sp 1))
    (hcopied : copied op s.sp = 0)
    (hQ : ∀ b t, baseCost face stray op s.ext s.mem.length s.sp ≤ s.ioGas →
      t.ioGas = s.ioGas - baseCost face stray op s.ext s.mem.length s.sp → Q b t)
    (hE : s.ioGas < baseCost face stray op s.ext s.mem.length s.sp → ∀ t, E .OutOfGas t) :
    Runs (outputCase face) s Q E := by
  have hbase : baseCost face stray op s.ext s.mem.length s.sp =
      due face (needed (operand s.sp 0) (operand s.sp 1)) { s with copyMemSize := 0 } := by
    rw [← hneed]
    exact baseCost_reach hcopied (hfee.trans h.tier.symm) rfl rfl
  have hrun := h.runGas
  refine runs_bind (runs_modify (runs_bind (runs_item_exact (show 0 < s.sp.length by omega) ?_)))
  refine runs_bind (runs_item_exact (show 1 < s.sp.length by omega) ?_)
  refine runs_span h.tabled (h.paid_with _ _) ?_ (fun hneed hle => ?_) fun hlt t => hE (hbase ▸ hlt) t
  · show s.runGas + copyPrice _ 0 ≤ _
    rw [copyPrice_zero]
    omega
  refine runs_bind (runs_memSlice_exact (needed_slice hneed (need_le_grow s.mem _)) ?_)
  exact runs_bind (runs_modify (runs_pure (hQ _ _ (hbase ▸ hle) (by rw [hbase]; rfl))))

end MemoryCases

section Switch

theorem Tiered.expCase (h : Tiered face stray .EXP s) :
    Runs (expCase face) s (Settles face stray .EXP s)
      (Halts (baseCost face stray .EXP s.ext s.mem.length s.sp) s) := by
  have hargs : 2 ≤ s.sp.length := h.args
  refine runs_bind (runs_item_exact hargs ?_)
  rw [exponent_bytes, exp_price h.tabled.toPriced (byteCount_le (operand s.sp 1))]
  exact h.priced le_rfl rfl rfl rfl fun g r => reads_binary hargs

theorem Tiered.jumpdest (h : Tiered face stray .JUMPDEST s) :
    Runs (interpretCase sha3 face (some .JUMPDEST)) s (Settles face stray .JUMPDEST s)
      (Halts (baseCost face stray .JUMPDEST s.ext s.mem.length s.sp) s) := by
  have hbase : baseCost face stray .JUMPDEST s.ext s.mem.length s.sp =
      fee face stray .JUMPDEST s.ext s.sp := baseCost_plain rfl rfl
  have hfee : fee face stray .JUMPDEST s.ext s.sp = 1 := h.tabled.jumpdestGas
  refine runs_bind (runs_setRunGas (runs_bind (runs_updateIOGas_exact (fun hle => ?_) fun hlt => ?_)))
  · exact runs_nextPC (settled_plain rfl rfl (hfee ▸ hle) (by rw [hfee]) rfl)
  · show s.ioGas < _
    rw [hbase, hfee]
    exact hlt

theorem Tiered.interpretCase (h : Tiered face stray op s) :
    Runs (interpretCase sha3 face (some op)) s (Settles face stray op s)
      (Halts (baseCost face stray op s.ext s.mem.length s.sp) s) := by
  have hio := h.paid.ioGas_le
  have hbad : Runs (throw .BadInstruction) s (Settles face stray op s)
      (Halts (baseCost face stray op s.ext s.mem.length s.sp) s) := runs_throw trivial
  cases op with
  | CREATE => exact runs_pure ⟨rfl, rfl⟩
  | CALL | CALLCODE => exact runs_pure ⟨rfl, rfl⟩
  | DELEGATECALL => exact runs_ite (fun _ => runs_pure ⟨rfl, rfl⟩) fun _ => hbad
  | RETURN =>
    refine runs_bind (h.outputCase h.args rfl rfl rfl (fun b t hle hgas => ?_) fun hlt t => hlt)
    exact runs_bind (runs_modify (runs_pure ⟨hle, hgas⟩))
  | REVERT =>
    refine runs_ite (fun _ => ?_) fun _ => hbad
    refine runs_bind (h.outputCase h.args rfl rfl rfl (fun b t hle hgas => ?_) fun hlt t => hlt)
    exact runs_throw ⟨hle, hgas⟩
  | SUICIDE => exact h.suicideCase
  | STOP =>
    have hbase : baseCost face stray .STOP s.ext s.mem.length s.sp =
        fee face stray .STOP s.ext s.sp := baseCost_plain rfl rfl
    refine h.runs_updateIOGas rfl (fun hle => ?_) fun hlt => hbase ▸ hlt
    exact runs_pure ⟨hbase ▸ hle, by rw [hbase]⟩
  | MLOAD => exact h.mload
  | MSTORE => exact h.mstore
  | MSTORE8 => exact h.mstore8
  | SHA3 => exact h.sha3Case
  | LOG n => exact h.logCase
  | EXP => exact h.expCase
  | ADD | MUL | SUB | DIV | SDIV | MOD | SMOD | LT | GT | SLT | SGT | EQ | AND | OR | XOR | BYTE
    | SIGNEXTEND =>
    exact h.ordinary le_rfl rfl rfl rfl fun _ _ => reads_binary h.args
  | NOT | ISZERO | BLOCKHASH =>
    exact h.ordinary le_rfl rfl rfl rfl fun _ _ => reads_unary h.args
  | ADDMOD | MULMOD =>
    exact h.ordinary le_rfl rfl rfl rfl fun _ _ => reads_ternary h.args
  | ADDRESS | ORIGIN | CALLER | CALLVALUE | CALLDATASIZE | CODESIZE | GASPRICE | COINBASE
    | TIMESTAMP | NUMBER | DIFFICULTY | GASLIMIT | PC | MSIZE | GAS =>
    exact h.ordinary le_rfl rfl rfl rfl fun _ _ => reads_nullary
  | CALLDATALOAD => exact h.ordinary le_rfl rfl rfl rfl fun _ _ => reads_calldataload h.args
  | DUP n => exact h.ordinary (Nat.le_add_left _ _) rfl rfl rfl fun _ _ => reads_item h.args
  | BALANCE => exact h.priced le_rfl rfl rfl rfl fun _ _ => reads_unary h.args
  | EXTCODESIZE => exact h.priced le_rfl rfl rfl rfl fun _ _ => reads_unary h.args
  | SLOAD => exact h.priced le_rfl rfl rfl rfl fun _ _ => reads_unary h.args
  | CALLDATACOPY =>
    exact Tiered.copyCase h.toReady rfl h.args face.size_data (fun _ _ _ => rfl) h.tier.symm rfl rfl rfl
  | CODECOPY =>
    exact Tiered.copyCase h.toReady rfl h.args face.size_code (fun _ _ _ => rfl) h.tier.symm rfl rfl rfl
  | EXTCODECOPY =>
    have hargs : 4 ≤ s.sp.length := h.args
    have hprice := h.tabled.small face.evmSchedule.extcodecopyGas (by simp)
    refine runs_bind (runs_toInt63_exact (fun _ => runs_bind (runs_setRunGas ?_)) fun hlarge => ?_)
    · refine Tiered.copyCase ⟨h.tabled, ⟨h.paid.whole, h.paid.paid⟩, hprice, h.copyMemSize⟩ rfl h.args
        (face.size_codeAt s.ext (asAddress (operand s.sp 0))) (fun t ht hext => ?_) rfl rfl rfl rfl
      have hitem : t.sp[0]? = some (operand s.sp 0) := by
        rw [ht, operand, List.getD_eq_getElem?_getD, List.getElem?_eq_getElem (by omega)]
        rfl
      refine (bind_ok (item_ok hitem)).trans ?_
      rw [hext]
      rfl
    · unfold maxInt63 at hlarge
      omega
  | POP =>
    refine h.runs_updateIOGas rfl (fun hle => ?_) fun hlt => ?_
    · exact runs_nextPC (settled_plain rfl rfl hle rfl rfl)
    · exact @baseCost_plain W face stray s .POP rfl rfl ▸ hlt
  | PUSH n => exact h.pushCase
  | JUMP => exact h.jump
  | JUMPI => exact h.jumpi
  | SWAP n => exact h.swapCase
  | SSTORE => exact h.sstore
  | JUMPDEST => exact h.jumpdest
  | PUSHC | JUMPC | JUMPCI | JUMPTO | JUMPIF | JUMPV | JUMPSUB | JUMPSUBV | RETURNSUB | BEGINSUB
    | BEGINDATA | BAD => exact hbad

end Switch

section Calls

/-- The gas that a creation is given of what is left: all of it, or all but one 64th. -/
def given (face : ExtVMFace W) (left : ℕ) : ℕ :=
  if face.evmSchedule.staticCallDepthLimit then left else left - left / 64

/-- The stipend that a call with value gets on top. -/
def stipend (face : ExtVMFace W) (op : Instruction) (l : List Word) : ℕ :=
  if op ≠ .DELEGATECALL ∧ 0 < operand l 2 then face.evmSchedule.callStipend else 0

/-- The gas after an instruction that has left `left` when it is paid for: a creation takes
what it was given and does not give back, and a call gives back what it does not use. -/
def Remains (face : ExtVMFace W) (op : Instruction) (l : List Word) (handed left gas : ℕ) : Prop :=
  if op = .CREATE then gas = left ∨ ∃ ext endowment init,
    gas + given face left =
      left + (face.create ext endowment (BitVec.ofNat 256 (given face left)) init).2.1.toNat
  else if handsOver op then ∃ params : CallParameters,
    params.gas.toNat = handed + stipend face op l ∧
      (gas = left + params.gas.toNat ∨ ∃ ext, gas = left + (face.call ext params).2.2.1.toNat)
  else gas = left

theorem cost_of_not_handsOver {ext : W} {size gas : ℕ} {l : List Word} (h : handsOver op = false) :
    cost face stray op ext size gas l = baseCost face stray op ext size l := by
  rw [cost, h, if_neg (by decide), Nat.add_zero]

theorem cost_of_handsOver {ext : W} {size gas : ℕ} {l : List Word} (h : handsOver op = true) :
    cost face stray op ext size gas l = baseCost face stray op ext size l +
      handed face (operand l 0) (gas - baseCost face stray op ext size l) := by
  rw [cost, if_pos h]

/-- What holds after an instruction that was paid for in full. -/
structure PaidFor (face : ExtVMFace W) (stray : UInt32) (op : Instruction) (s t : VM W) : Prop where
  afford : cost face stray op s.ext s.mem.length s.ioGas s.sp ≤ s.ioGas
  remains : Remains face op s.sp (handed face (operand s.sp 0)
    (s.ioGas - baseCost face stray op s.ext s.mem.length s.sp))
    (s.ioGas - cost face stray op s.ext s.mem.length s.ioGas s.sp) t.ioGas

theorem paidFor_of_base (hover : handsOver op = false)
    (hle : baseCost face stray op s.ext s.mem.length s.sp ≤ s.ioGas)
    (hgas : t.ioGas = s.ioGas - baseCost face stray op s.ext s.mem.length s.sp) :
    PaidFor face stray op s t := by
  have hcost : cost face stray op s.ext s.mem.length s.ioGas s.sp = _ := cost_of_not_handsOver hover
  refine ⟨hcost ▸ hle, ?_⟩
  rw [Remains, hover, hcost]
  by_cases hcreate : op = .CREATE
  · rw [if_pos hcreate]
    exact Or.inl hgas
  · rw [if_neg hcreate, if_neg (by decide)]
    exact hgas

/-- The difference of 256-bit words that a creation settles. -/
theorem settle_eq {g : ℕ} {created gas : Word} (hg : g < 2 ^ 64) (hcreated : created.toNat ≤ g)
    (hgas : gas ≤ created) :
    u64 (BitVec.ofNat 256 g - (created - gas)).toNat + created.toNat = g + gas.toNat := by
  have hle := BitVec.le_def.mp hgas
  have hword : (BitVec.ofNat 256 g).toNat = g := by
    rw [BitVec.toNat_ofNat, Nat.mod_eq_of_lt (by omega)]
  have hdiff : (created - gas).toNat = created.toNat - gas.toNat := BitVec.toNat_sub_of_le hgas
  have hsettled : (BitVec.ofNat 256 g - (created - gas)).toNat =
      g - (created.toNat - gas.toNat) := by
    rw [BitVec.toNat_sub_of_le (BitVec.le_def.mpr (by rw [hdiff, hword]; omega)), hword, hdiff]
  rw [hsettled, u64_of_lt (by omega)]
  omega

theorem toNat_given {g : ℕ} (hg : g < 2 ^ 64) (face : ExtVMFace W) :
    (if face.evmSchedule.staticCallDepthLimit then BitVec.ofNat 256 g
      else BitVec.ofNat 256 g - BitVec.ofNat 256 g / 64 : Word) = BitVec.ofNat 256 (given face g) := by
  unfold given
  split_ifs
  · rfl
  · apply BitVec.eq_of_toNat_eq
    have hword : (BitVec.ofNat 256 g).toNat = g := by
      rw [BitVec.toNat_ofNat, Nat.mod_eq_of_lt (by omega)]
    have hdiv : (BitVec.ofNat 256 g / 64 : Word).toNat = g / 64 := by
      rw [BitVec.toNat_udiv, hword]
      rfl
    rw [BitVec.toNat_sub_of_le (BitVec.le_def.mpr (by rw [hdiv, hword]; omega)), hword, hdiv,
      BitVec.toNat_ofNat, Nat.mod_eq_of_lt (by omega)]

theorem given_le (face : ExtVMFace W) (left : ℕ) : given face left ≤ left := by
  unfold given
  split_ifs <;> omega

theorem create_settles (hm : Metered face) {left : ℕ} (hleft : left < 2 ^ 64) (ext : W)
    (endowment : Word) (init : Bytes) :
    u64 (BitVec.ofNat 256 left - (BitVec.ofNat 256 (given face left) -
      (face.create ext endowment (BitVec.ofNat 256 (given face left)) init).2.1)).toNat +
        given face left =
      left + (face.create ext endowment (BitVec.ofNat 256 (given face left)) init).2.1.toNat := by
  have hle := given_le face left
  have hgiven : (BitVec.ofNat 256 (given face left) : Word).toNat = given face left := by
    rw [BitVec.toNat_ofNat, Nat.mod_eq_of_lt (by omega)]
  have hsettle := settle_eq hleft (hgiven.trans_le hle) (hm.create ext endowment _ init)
  rwa [hgiven] at hsettle

theorem Tiered.caseCreate (h : Tiered face stray .CREATE s) (hm : Metered face) :
    Runs (caseCreate face) s (fun _ t => PaidFor face stray .CREATE s t ∧
      Extended .CREATE s.sp s.mem t.mem)
      (Halts (cost face stray .CREATE s.ext s.mem.length s.ioGas s.sp) s) := by
  have hargs : 3 ≤ s.sp.length := h.args
  obtain ⟨x, rest, hspp⟩ := exists_cons (show 1 ≤ s.spp.length from h.ret)
  have hio := h.ioGas
  have hprice := h.tabled.small face.evmSchedule.createGas (by simp)
  have hcost : cost face stray .CREATE s.ext s.mem.length s.ioGas s.sp =
      due face (needed (operand s.sp 1) (operand s.sp 2))
        { s with runGas := fee face stray .CREATE s.ext s.sp } :=
    (cost_of_not_handsOver rfl).trans (baseCost_reach rfl rfl h.copyMemSize rfl)
  refine runs_bind (runs_toInt63_exact (fun _ => runs_bind (runs_setRunGas ?_)) fun hlarge => ?_)
  swap
  · unfold maxInt63 at hlarge
    omega
  refine runs_bind (runs_item_exact (show 1 < s.sp.length by omega) ?_)
  refine runs_bind (runs_item_exact (show 2 < s.sp.length by omega) ?_)
  have hsmall : face.evmSchedule.createGas + copyPrice face.evmSchedule s.copyMemSize ≤ 2 ^ 63 := by
    rw [h.copyMemSize, copyPrice_zero]
    omega
  refine runs_span h.tabled ⟨h.paid.whole, h.paid.paid⟩ hsmall (fun hneed hle => ?_)
    fun hlt t => hcost ▸ hlt
  refine runs_bind (runs_item_exact (show 0 < s.sp.length by omega) ?_)
  have hremains : ∀ t : VM W, Remains face .CREATE s.sp (handed face (operand s.sp 0)
      (s.ioGas - baseCost face stray .CREATE s.ext s.mem.length s.sp))
      (s.ioGas - cost face stray .CREATE s.ext s.mem.length s.ioGas s.sp) t.ioGas →
      PaidFor face stray .CREATE s t := fun t ht => ⟨hcost ▸ hle, ht⟩
  have hleft : (paidFor face (needed (operand s.sp 1) (operand s.sp 2))
      { s with runGas := face.evmSchedule.createGas }).ioGas =
      s.ioGas - cost face stray .CREATE s.ext s.mem.length s.ioGas s.sp := by
    rw [hcost]
    rfl
  refine runs_bind (runs_get (runs_bind (runs_ite (fun _ => ?_) fun _ => ?_)))
  · refine runs_bind (runs_memSlice_exact (needed_slice hneed (need_le_grow s.mem _)) ?_)
    refine runs_bind (runs_modify (runs_setTop_exact hspp (runs_modify
        ⟨hremains _ ?_, extended_grow .CREATE _ _⟩)))
    rw [Remains, if_pos rfl]
    simp only [hleft]
    have hg : s.ioGas - cost face stray .CREATE s.ext s.mem.length s.ioGas s.sp < 2 ^ 64 := by omega
    rw [toNat_given hg]
    exact Or.inr ⟨_, _, _, create_settles hm hg _ _ _⟩
  · refine runs_bind (runs_setTop_exact hspp (runs_modify ⟨hremains _ ?_, extended_grow .CREATE _ _⟩))
    rw [Remains, if_pos rfl]
    exact Or.inl hleft

theorem runs_surcharge_exact {c : Prop} [Decidable c] {price : ℕ} {Q : Unit → VM W → Prop}
    {E : VMException → VM W → Prop} (hprice : price ≤ 100000) (hrun : s.runGas ≤ 200000)
    (hQ : ∀ r, r = s.runGas + (if c then price else 0) → Q () { s with runGas := r }) :
    Runs (if c then do
      let gas ← toInt63 price
      modify fun s => { s with runGas := u64 (s.runGas + gas) }
    else pure ()) s Q E := by
  refine runs_ite (fun hc => ?_) fun hc => ?_
  · refine runs_bind (runs_toInt63_exact (fun _ => runs_modify (hQ _ ?_)) fun hlarge => ?_)
    · rw [if_pos hc, u64_of_lt (by omega)]
    · unfold maxInt63 at hlarge
      omega
  · exact runs_pure (hQ s.runGas (by rw [if_neg hc, Nat.add_zero]))

/-- The instructions that call other code. -/
theorem eq_of_handsOver (hop : handsOver op = true) :
    op = .CALL ∨ op = .CALLCODE ∨ op = .DELEGATECALL := by
  cases op with
  | CALL => exact Or.inl rfl
  | CALLCODE => exact Or.inr (Or.inl rfl)
  | DELEGATECALL => exact Or.inr (Or.inr rfl)
  | _ => cases hop

theorem fee_call (hop : handsOver op = true) (ext : W) (l : List Word) :
    fee face stray op ext l = face.evmSchedule.callGas +
      (if op = .CALL ∧ ¬ face.existsAccount ext (asAddress (operand l 1)) ∧
          (0 < operand l 2 ∨ face.evmSchedule.zeroValueTransferChargesNewAccountGas) then
        face.evmSchedule.callNewAccountGas else 0) +
      (if op ≠ .DELEGATECALL ∧ 0 < operand l 2 then face.evmSchedule.callValueTransferGas
        else 0) := by
  rcases eq_of_handsOver hop with rfl | rfl | rfl <;> simp [fee]

theorem memoryNeed_call (hop : handsOver op = true) (l : List Word) :
    memoryNeed op l =
      max (needed (operand l (if op = .DELEGATECALL then 2 else 3))
          (operand l ((if op = .DELEGATECALL then 2 else 3) + 1)))
        (needed (operand l ((if op = .DELEGATECALL then 2 else 3) + 2))
          (operand l ((if op = .DELEGATECALL then 2 else 3) + 3))) := by
  rcases eq_of_handsOver hop with rfl | rfl | rfl <;> simp [memoryNeed]

theorem copied_call (hop : handsOver op = true) (l : List Word) : copied op l = 0 := by
  rcases eq_of_handsOver hop with rfl | rfl | rfl <;> simp [copied]

theorem args_call (hop : handsOver op = true) :
    (if op = .DELEGATECALL then 2 else 3) + 4 = (instructionInfo (some op)).args := by
  rcases eq_of_handsOver hop with rfl | rfl | rfl <;> rfl

theorem ret_call (hop : handsOver op = true) : (instructionInfo (some op)).ret = 1 := by
  rcases eq_of_handsOver hop with rfl | rfl | rfl <;> rfl

theorem stores_call (hop : handsOver op = true) : stores op = true := by
  rcases eq_of_handsOver hop with rfl | rfl | rfl <;> simp [stores]

theorem toNat_handed {left : ℕ} (hleft : left < 2 ^ 64) (face : ExtVMFace W) (requested : Word) :
    (if face.evmSchedule.staticCallDepthLimit then requested
      else if requested ≤ BitVec.ofNat 256 (left - left / 64) then requested
        else BitVec.ofNat 256 (left - left / 64) : Word).toNat = handed face requested left := by
  have hword : (BitVec.ofNat 256 (left - left / 64) : Word).toNat = left - left / 64 := by
    rw [BitVec.toNat_ofNat, Nat.mod_eq_of_lt (by omega)]
  unfold handed
  split_ifs with h1 h2
  · rfl
  · rw [BitVec.le_def, hword] at h2
    rw [min_eq_left h2]
  · rw [BitVec.le_def, hword] at h2
    rw [hword, min_eq_right (by omega)]

/-- What a call leaves to the machine when it is paid for. -/
structure CallPaid (face : ExtVMFace W) (stray : UInt32) (op : Instruction) (s : VM W) (gas : Word)
    (outOff outSize : ℕ) (t : VM W) : Prop where
  spp : t.spp = s.spp
  afford : cost face stray op s.ext s.mem.length s.ioGas s.sp ≤ s.ioGas
  ioGas : t.ioGas = s.ioGas - cost face stray op s.ext s.mem.length s.ioGas s.sp
  gas : gas.toNat = handed face (operand s.sp 0)
    (s.ioGas - baseCost face stray op s.ext s.mem.length s.sp) + stipend face op s.sp
  output : outSize = 0 ∨ outOff + outSize ≤ t.mem.length
  memory : t.mem.length = max s.mem.length (rounded (memoryNeed op s.sp))

/-- Less gas than the price without the gas that is handed over. -/
theorem halts_of_lt_base (hop : handsOver op = true)
    (hlt : s.ioGas < baseCost face stray op s.ext s.mem.length s.sp) (t : VM W) :
    Halts (cost face stray op s.ext s.mem.length s.ioGas s.sp) s .OutOfGas t := by
  rw [cost_of_handsOver hop]
  exact hlt.trans_le (Nat.le_add_right _ _)

/-- Less gas left than is to be handed over. -/
theorem halts_of_lt_handed (hop : handsOver op = true)
    (hlt : s.ioGas - baseCost face stray op s.ext s.mem.length s.sp <
      handed face (operand s.sp 0) (s.ioGas - baseCost face stray op s.ext s.mem.length s.sp))
    (t : VM W) : Halts (cost face stray op s.ext s.mem.length s.ioGas s.sp) s .OutOfGas t := by
  rw [cost_of_handsOver hop]
  show s.ioGas < _
  omega

/-- Memory that has no size is not paid for. -/
theorem Tiered.ioGas_lt_of_large (h : Tiered face stray op s) {need : ℕ} (hneed : maxInt63 < need)
    (hle : need ≤ memoryNeed op s.sp) :
    s.ioGas < baseCost face stray op s.ext s.mem.length s.sp := by
  have hio := h.paid.ioGas_le
  have hexp := h.paid.expansion_large h.tabled (hneed.trans_le hle)
  unfold baseCost
  omega

/-- The fees of a call do not come near to what the counter of gas holds. -/
theorem Tiered.fee_call_le (h : Tiered face stray op s) (hop : handsOver op = true) :
    fee face stray op s.ext s.sp ≤ 300000 := by
  have hcall := h.tabled.small face.evmSchedule.callGas (by simp)
  have hnew := h.tabled.small face.evmSchedule.callNewAccountGas (by simp)
  have htransfer := h.tabled.small face.evmSchedule.callValueTransferGas (by simp)
  rw [fee_call hop]
  split_ifs <;> omega

theorem Tiered.toNat_add_stipend (h : Tiered face stray op s) {callGas : Word}
    (hsmall : callGas.toNat < 2 ^ 64) :
    (if op ≠ .DELEGATECALL ∧ 0 < operand s.sp 2 then
      callGas + BitVec.ofNat 256 face.evmSchedule.callStipend else callGas).toNat =
      callGas.toNat + stipend face op s.sp := by
  have hstipend := h.tabled.small face.evmSchedule.callStipend (by simp)
  unfold stipend
  split_ifs
  · rw [BitVec.toNat_add, BitVec.toNat_ofNat, Nat.mod_eq_of_lt (by omega),
      Nat.mod_eq_of_lt (by omega)]
  · rfl

theorem Tiered.caseCallSetup (h : Tiered face stray op s) (hop : handsOver op = true) :
    Runs (caseCallSetup face op) s (fun c t => CallPaid face stray op s c.1.gas c.2.2.1 c.2.2.2 t)
      (Halts (cost face stray op s.ext s.mem.length s.ioGas s.sp) s) := by
  have hargs := h.args
  rw [← args_call hop] at hargs
  have hio := h.paid.ioGas_le
  have hmax : maxInt63 = 2 ^ 63 - 1 := rfl
  have hcall := h.tabled.small face.evmSchedule.callGas (by simp)
  have hnew := h.tabled.small face.evmSchedule.callNewAccountGas (by simp)
  have htransfer := h.tabled.small face.evmSchedule.callValueTransferGas (by simp)
  have hbase : baseCost face stray op s.ext s.mem.length s.sp =
      due face (memoryNeed op s.sp) { s with runGas := fee face stray op s.ext s.sp } :=
    baseCost_reach (copied_call hop _) rfl h.copyMemSize rfl
  have hcost : cost face stray op s.ext s.mem.length s.ioGas s.sp = _ := cost_of_handsOver hop
  refine runs_bind (runs_toInt63_exact (fun _ => runs_bind (runs_setRunGas ?_)) fun hdear => ?_)
  swap
  · omega
  refine runs_bind (runs_item_exact (show 1 < s.sp.length by omega) ?_)
  refine runs_bind (runs_item_exact (show 2 < s.sp.length by omega) (runs_bind (runs_get ?_)))
  refine runs_bind (runs_surcharge_exact hnew (hcall.trans (by norm_num)) fun r₁ hr₁ => ?_)
  have hr₁' : r₁ = face.evmSchedule.callGas + _ := hr₁
  refine runs_bind (runs_surcharge_exact htransfer ?_ fun r₂ hr₂ => ?_)
  · show r₁ ≤ _
    split_ifs at hr₁' <;> omega
  have hrun : r₂ = fee face stray op s.ext s.sp := by
    rw [fee_call hop, hr₂]
    exact congrArg (· + _) hr₁'
  have hsmall : r₂ + copyPrice face.evmSchedule s.copyMemSize ≤ 2 ^ 63 := by
    have hfee := h.fee_call_le hop
    rw [h.copyMemSize, copyPrice_zero, hrun]
    omega
  subst hrun
  have hmemory := memoryNeed_call hop s.sp
  rw [hmemory] at hbase
  generalize (if op = Instruction.DELEGATECALL then 2 else 3) = sizesOffset
    at hargs hbase hmemory ⊢
  refine runs_bind (runs_item_exact (show sizesOffset < s.sp.length by omega) ?_)
  refine runs_bind (runs_item_exact (show sizesOffset + 1 < s.sp.length by omega) ?_)
  refine runs_bind (runs_item_exact (show sizesOffset + 2 < s.sp.length by omega) ?_)
  refine runs_bind (runs_item_exact (show sizesOffset + 3 < s.sp.length by omega) ?_)
  refine runs_bind (runs_memNeed_exact (fun hinput => ?_) fun hover =>
    halts_of_lt_base hop (h.ioGas_lt_of_large hover ((le_max_left _ _).trans_eq hmemory.symm)) _)
  refine runs_bind (runs_memNeed_exact (fun houtput => ?_) fun hover =>
    halts_of_lt_base hop (h.ioGas_lt_of_large hover ((le_max_right _ _).trans_eq hmemory.symm)) _)
  refine runs_pay_exact h.tabled ⟨h.paid.whole, h.paid.paid⟩
    (by rw [max_le_iff]; constructor <;> exact le_trans (by assumption) (Nat.le_add_right _ _))
    hsmall (fun hle => ?_) fun hlt => halts_of_lt_base hop (hbase ▸ hlt)
  generalize hu : paidFor face _ _ = u
  have hle' : baseCost face stray op s.ext s.mem.length s.sp ≤ s.ioGas := hbase ▸ hle
  have hleft : u.ioGas = s.ioGas - baseCost face stray op s.ext s.mem.length s.sp := by
    rw [← hu, hbase]
    rfl
  have hsp : u.sp = s.sp := by rw [← hu]; rfl
  have hspp : u.spp = s.spp := by rw [← hu]; rfl
  have hmem : u.mem = grow s.mem (memoryNeed op s.sp) := by rw [← hu, hmemory]; rfl
  have hlt : s.ioGas - baseCost face stray op s.ext s.mem.length s.sp < 2 ^ 64 := by omega
  have hhanded := toNat_handed hlt face (operand s.sp 0)
  refine runs_bind (runs_item_exact (show 0 < u.sp.length by rw [hsp]; omega)
    (runs_bind (runs_get ?_)))
  rw [hsp, hleft]
  generalize hcallGas : (if face.evmSchedule.staticCallDepthLimit = true then operand s.sp 0
    else if operand s.sp 0 ≤ BitVec.ofNat 256 _ then _ else _) = callGas at hhanded ⊢
  refine runs_bind (runs_toInt63_exact (fun _ => ?_) fun hdear =>
    halts_of_lt_handed hop (by omega) _)
  refine runs_bind (runs_setRunGas (runs_bind (runs_updateIOGas_exact (fun hafford => ?_)
    fun hlt => halts_of_lt_handed hop (by rwa [← hhanded, ← hleft]) _)))
  have hafford' : callGas.toNat ≤ u.ioGas := hafford
  refine runs_bind (runs_get ?_)
  have hcallPaid : ∀ gas : Word, gas = (if op ≠ .DELEGATECALL ∧ 0 < operand s.sp 2 then
      callGas + BitVec.ofNat 256 face.evmSchedule.callStipend else callGas) →
      ∀ t : VM W, t = { u with runGas := callGas.toNat, ioGas := u.ioGas - callGas.toNat } →
      CallPaid face stray op s gas (u64 (operand s.sp (sizesOffset + 2)).toNat)
        (u64 (operand s.sp (sizesOffset + 3)).toNat) t := by
    rintro gas hgas t rfl
    refine ⟨hspp, by omega, ?_, ?_, ?_, ?_⟩
    · show u.ioGas - callGas.toNat = _
      omega
    · rw [hgas, h.toNat_add_stipend (by omega), hhanded]
    · refine needed_slice houtput ?_
      show _ ≤ u.mem.length
      rw [hmem]
      exact ((le_max_right _ _).trans_eq hmemory.symm).trans (need_le_grow _ _)
    · show u.mem.length = _
      rw [hmem, length_grow]
  refine runs_bind (runs_ite (fun _ => ?_) fun _ => ?_)
  · refine runs_memSlice_exact ?_ (runs_pure (hcallPaid _ rfl _ rfl))
    refine needed_slice hinput ?_
    show _ ≤ u.mem.length
    rw [hmem]
    exact ((le_max_left _ _).trans_eq hmemory.symm).trans (need_le_grow _ _)
  · exact runs_pure (runs_pure (hcallPaid _ rfl _ rfl))

theorem Tiered.caseCall (h : Tiered face stray op s) (hop : handsOver op = true)
    (hm : Metered face) :
    Runs (caseCall face op) s (fun _ t => PaidFor face stray op s t ∧
      Extended op s.sp s.mem t.mem)
      (Halts (cost face stray op s.ext s.mem.length s.ioGas s.sp) s) := by
  have hret := h.ret
  rw [ret_call hop] at hret
  obtain ⟨x, rest, hspp⟩ := exists_cons hret
  have hio := h.paid.ioGas_le
  have hmax : maxInt63 = 2 ^ 63 - 1 := rfl
  have hcreate : op ≠ .CREATE := by
    rintro rfl
    exact absurd hop (by decide)
  have hstipend := h.tabled.small face.evmSchedule.callStipend (by simp)
  have hcost : cost face stray op s.ext s.mem.length s.ioGas s.sp = _ := cost_of_handsOver hop
  refine runs_bind ((h.caseCallSetup hop).imp fun c t hcall => ?_)
  obtain ⟨callParams, made, outOff, outSize⟩ := c
  have hc : CallPaid face stray op s callParams.gas outOff outSize t := hcall
  have hspp' : t.spp = x :: rest := hc.spp.trans hspp
  have hafford := hc.afford
  -- What comes back is no more than what was handed over, with the stipend.
  have hback : ∀ left : Word, left ≤ callParams.gas →
      u64 (t.ioGas + u64 left.toNat) = t.ioGas + left.toNat := by
    intro left hleft
    have hle := BitVec.le_def.mp hleft
    have hgas := hc.gas
    have hioGas := hc.ioGas
    have hsmall : stipend face op s.sp ≤ 100000 := by
      unfold stipend
      split_ifs <;> omega
    rw [u64_of_lt (show left.toNat < 2 ^ 64 by omega), u64_of_lt (by omega)]
  have hfits : ∀ output : Bytes, (output.take outSize).length = 0 ∨
      outOff + (output.take outSize).length ≤ t.mem.length := by
    intro output
    have hout := hc.output
    rw [List.length_take]
    omega
  refine runs_bind (runs_ite (fun _ => ?_) fun _ => ?_)
  · refine runs_bind (runs_get (runs_bind (runs_modify (runs_bind (runs_memWrite_exact (hfits _)
      (runs_bind (runs_setTop_exact hspp' (runs_modify (runs_modify ⟨⟨hafford, ?_⟩, ?_⟩)))))))))
    · rw [Remains, if_neg hcreate, if_pos hop]
      refine ⟨callParams, hc.gas, Or.inr ⟨t.ext, ?_⟩⟩
      rw [← hc.ioGas]
      exact hback _ (hm.call _ _)
    · exact extended_stored (stores_call hop) ((length_overwrite (hfits _)).trans hc.memory)
  · refine runs_bind (runs_setTop_exact hspp' (runs_modify (runs_modify ⟨⟨hafford, ?_⟩,
      extended_stored (stores_call hop) hc.memory⟩)))
    rw [Remains, if_neg hcreate, if_pos hop]
    refine ⟨callParams, hc.gas, Or.inl ?_⟩
    rw [← hc.ioGas]
    exact hback _ (BitVec.le_refl _)

end Calls

section Steps

/-- What an instruction costs the machine that is about to fetch it. -/
def stepCost (face : ExtVMFace W) (stray : UInt32) (op : Instruction) (s : VM W) : ℕ :=
  cost face stray op s.ext s.mem.length s.ioGas s.spp

/-- An instruction that went on or ended the run was charged in full: there was enough gas, and
what is left is what there was without the price. -/
structure ChargedFor (face : ExtVMFace W) (stray : UInt32) (op : Instruction) (s t : VM W) :
    Prop where
  afford : stepCost face stray op s ≤ s.ioGas
  remains : Remains face op s.spp (handed face (operand s.spp 0)
    (s.ioGas - baseCost face stray op s.ext s.mem.length s.spp))
    (s.ioGas - stepCost face stray op s) t.ioGas

/-- The machine between two instructions has paid for its memory. -/
structure GasSound (face : ExtVMFace W) (s : VM W) : Prop extends Sound face s, MemoryPaid face s

theorem initEntry_gasSound {gas : Word} (hgas : gas.toNat ≤ maxInt63) (ext : W) :
    GasSound face (initEntry face gas ext) := by
  refine ⟨initEntry_sound face gas ext, rfl, ?_⟩
  show memoryCost face.evmSchedule 0 + u64 gas.toNat ≤ maxInt63
  have hcut : u64 gas.toNat ≤ gas.toNat := Nat.mod_le _ _
  have hzero : memoryCost face.evmSchedule 0 = 0 := by simp [memoryCost]
  omega

/-- An exception that no payment comes before. -/
def Unpaid (e : VMException) : Prop :=
  e ≠ .OutOfGas ∧ e ≠ .BadJumpDestination ∧ ∀ b, e ≠ .RevertInstruction b

theorem Unpaid.halts {e : VMException} (h : Unpaid e) (price : ℕ) : Halts price s e t := by
  obtain ⟨hgas, hjump, hrevert⟩ := h
  cases e with
  | OutOfGas => exact absurd rfl hgas
  | BadJumpDestination => exact absurd rfl hjump
  | RevertInstruction b => exact absurd rfl (hrevert b)
  | _ => trivial

/-- The fetch, with what is known of the machine after it. -/
theorem GasSound.fetch (h : GasSound face s) (hes : face.evmSchedule.Tabled)
    (stray : UInt32) (hop : opAt s = some op) (hvalid : isValidInstruction (some op) = true) :
    Runs (fetchInstruction face stray) s
      (fun op' u => op' = some op ∧ Tiered face stray op u ∧ u.sp = s.spp ∧ u.ioGas = s.ioGas ∧
        u.ext = s.ext ∧ u.mem = s.mem)
      (fun e _ => Unpaid e) := by
  have hbyte := List.getElem?_eq_getElem h.pc
  obtain ⟨hopByte, -⟩ := h.byte hbyte
  have hfetch : fetchInstruction face stray s = _ := fetchInstruction_eq hbyte
  rw [← hopByte, hop] at hfetch
  have hsmall := tierGas_small hes.toPriced stray hvalid
  by_cases hargs : (instructionInfo (some op)).args ≤ s.spp.length
  · by_cases hroom : s.spp.length + (instructionInfo (some op)).ret ≤
        1024 + (instructionInfo (some op)).args
    · have hok := hfetch.trans (charge_ok hargs hroom (hsmall.trans (by unfold maxInt63; norm_num)))
      obtain ⟨-, hf⟩ := h.toSound.fetch.ok hok
      refine runs_of_ok hok ⟨rfl, ⟨hf.fetched op hop hvalid, hes, ?_, ?_, rfl⟩, rfl, rfl, rfl, rfl⟩
      · exact ⟨h.whole, h.paid⟩
      · exact hsmall.trans (by norm_num)
    · refine runs_of_error (hfetch.trans (charge_over hargs (Nat.not_le.mp hroom))) ?_
      exact ⟨by simp, by simp, by simp⟩
  · refine runs_of_error (hfetch.trans (charge_under face stray _ _ _ (Nat.not_le.mp hargs))) ?_
    exact ⟨by simp, by simp, by simp⟩

theorem interpretCase_call (sha3 : Bytes → H256) (hop : handsOver op = true) :
    Runs (interpretCase sha3 face (some op)) s (fun bounce t => bounce = .caseCall ∧ t = s)
      (fun e _ => e = .BadInstruction) := by
  cases op with
  | CALL => exact runs_pure ⟨rfl, rfl⟩
  | CALLCODE => exact runs_pure ⟨rfl, rfl⟩
  | DELEGATECALL => exact runs_ite (fun _ => runs_pure ⟨rfl, rfl⟩) fun _ => runs_throw rfl
  | _ => cases hop

/-- The gas is counted in numbers: an instruction is charged in full or runs out of gas, which it
does only if there is less than its price. -/
theorem GasSound.run_step (h : GasSound face s) (hes : face.evmSchedule.Tabled) (hm : Metered face)
    (sha3 : Bytes → H256) (stray : UInt32) (hop : opAt s = some op)
    (hvalid : isValidInstruction (some op) = true) :
    Runs (VM.step sha3 face stray) s
      (fun b t => ChargedFor face stray op s t ∧
        (b = true → Extended op s.spp s.mem t.mem))
      (Halts (stepCost face stray op s) s) := by
  refine runs_bind ((h.fetch hes stray hop hvalid).mono (fun op' u hu => ?_)
    fun e t he => he.halts _)
  obtain ⟨rfl, htier, hsp, hio, hext, hmem⟩ := hu
  have hcost : cost face stray op u.ext u.mem.length u.ioGas u.sp = stepCost face stray op s := by
    rw [hext, hmem, hio, hsp]
    rfl
  have hcharged : ∀ t, PaidFor face stray op u t → ChargedFor face stray op s t := by
    intro t ht
    have hremains := ht.remains
    rw [hcost, hext, hmem, hio, hsp] at hremains
    exact ⟨hio ▸ hcost ▸ ht.afford, hremains⟩
  have hhalts : ∀ e t, Halts (cost face stray op u.ext u.mem.length u.ioGas u.sp) u e t →
      Halts (stepCost face stray op s) s e t := by
    intro e t he
    rw [hcost] at he
    cases e <;> simp only [Halts, hio] at he ⊢ <;> exact he
  have hextended : ∀ t : VM W, Extended op u.sp u.mem t.mem → Extended op s.spp s.mem t.mem := by
    intro t ht
    rwa [hmem, hsp] at ht
  cases hover : handsOver op with
  | true =>
    refine runs_bind ((interpretCase_call sha3 hover).mono (fun bounce v hv => ?_) ?_)
    · obtain ⟨rfl, rfl⟩ := hv
      refine runs_bind ((htier.caseCall hover hm).mono (fun _ t ht => ?_) hhalts)
      exact runs_pure ⟨hcharged t ht.1, fun _ => hextended t ht.2⟩
    · rintro e t rfl
      exact trivial
  | false =>
    have hbase : cost face stray op u.ext u.mem.length u.ioGas u.sp = _ :=
      cost_of_not_handsOver hover
    refine runs_bind (htier.interpretCase.mono (fun bounce v hv => ?_) (hbase ▸ hhalts))
    cases bounce with
    | interpretCases =>
      exact runs_pure ⟨hcharged v (paidFor_of_base hover hv.afford hv.ioGas), fun _ =>
        hextended v hv.memory⟩
    | caseCreate =>
      obtain ⟨rfl, rfl⟩ := hv
      refine runs_bind ((htier.caseCreate hm).mono (fun _ t ht => ?_) hhalts)
      exact runs_pure ⟨hcharged t ht.1, fun _ => hextended t ht.2⟩
    | caseCall => exact absurd hv.2 (by rw [hover]; decide)
    | stop =>
      refine runs_pure ⟨hcharged v (paidFor_of_base hover hv.1 hv.2), fun hgoes => ?_⟩
      exact absurd hgoes (by decide)

end Steps

section Runs

theorem fee_stipend_le (hes : face.evmSchedule.Tabled) (stray : UInt32)
    (hop : handsOver op = true) (ext : W)
    (l : List Word) : stipend face op l ≤ fee face stray op ext l := by
  have hle := hes.stipend
  rw [fee_call hop, stipend]
  split_ifs <;> omega

/-- The gas never grows by more than the memory shrinks. -/
theorem ChargedFor.ioGas_le (h : ChargedFor face stray op s t) (hes : face.evmSchedule.Tabled)
    (hm : Metered face) :
    t.ioGas + expansion face.evmSchedule s.mem.length (memoryNeed op s.spp) ≤ s.ioGas := by
  have hafford := h.afford
  have hremains := h.remains
  have hbase : baseCost face stray op s.ext s.mem.length s.spp = fee face stray op s.ext s.spp +
    expansion face.evmSchedule s.mem.length (memoryNeed op s.spp) +
    copyPrice face.evmSchedule (copied op s.spp) := rfl
  cases hover : handsOver op with
  | true =>
    have hcost : stepCost face stray op s = _ := cost_of_handsOver hover
    have hstipend := fee_stipend_le hes stray hover s.ext s.spp
    have hcreate : op ≠ .CREATE := by
      rintro rfl
      cases hover
    rw [Remains, if_neg hcreate, if_pos hover] at hremains
    obtain ⟨params, hgas, hleft | ⟨ext, hleft⟩⟩ := hremains
    · omega
    · have hback := BitVec.le_def.mp (hm.call ext params)
      omega
  | false =>
    have hcost : stepCost face stray op s = _ := cost_of_not_handsOver hover
    rw [Remains, hover, if_neg (show ¬ (false = true) by decide)] at hremains
    split_ifs at hremains
    · rcases hremains with hleft | ⟨ext, endowment, init, hleft⟩
      · omega
      · have hback := BitVec.le_def.mp (hm.create ext endowment
          (BitVec.ofNat 256 (given face (s.ioGas - stepCost face stray op s))) init)
        have hgiven := Nat.mod_le (given face (s.ioGas - stepCost face stray op s)) (2 ^ 256)
        rw [BitVec.toNat_ofNat] at hback
        omega
    · omega

theorem Sound.step_invalid (h : Sound face s) (sha3 : Bytes → H256) (stray : UInt32)
    (hinvalid : isValidInstruction (opAt s) = false) :
    Runs (VM.step sha3 face stray) s (fun _ _ => False) (Fails s) := by
  refine runs_bind (h.fetch.imp fun op t ht => ?_)
  rw [ht.1, interpretCase_invalid hinvalid]
  exact runs_bind (runs_throw ⟨by decide, ht.2.ioGas.le⟩)

theorem exists_of_ok {b : Bool} (hs : Sound face s) (h : step sha3 face stray s = .ok b t) :
    ∃ op, opAt s = some op ∧ isValidInstruction (some op) = true := by
  cases hvalid : isValidInstruction (opAt s) with
  | false => exact ((hs.step_invalid sha3 stray hvalid).ok h).elim
  | true =>
    cases hop : opAt s with
    | none =>
      rw [hop] at hvalid
      cases hvalid
    | some op => exact ⟨op, rfl, hop ▸ hvalid⟩

theorem GasSound.step (h : GasSound face s) (hes : face.evmSchedule.Tabled) (hm : Metered face)
    (ht : VM.step sha3 face stray s = .ok true t) : GasSound face t := by
  obtain ⟨op, hop, hvalid⟩ := exists_of_ok h.toSound ht
  obtain ⟨hcharged, hmem⟩ := (h.run_step hes hm sha3 stray hop hvalid).ok ht
  have hle := hcharged.ioGas_le hes hm
  have hadd := expansion_add face.evmSchedule s.mem.length (memoryNeed op s.spp)
  have hlength := (hmem rfl).length
  have hpaid := h.paid
  have hwhole := h.whole
  refine ⟨((h.toSound.step sha3 stray).ok ht).sound rfl, ?_, ?_⟩
  · rw [hlength, rounded]
    omega
  · rw [hlength]
    omega

theorem reaches_gasSound {gas : Word} {ext : W} (hes : face.evmSchedule.Tabled) (hm : Metered face)
    (hgas : gas.toNat ≤ maxInt63) (h : Reaches (VM.step sha3 face stray) (initEntry face gas ext) s) :
    GasSound face s := by
  induction h with
  | start => exact initEntry_gasSound hgas ext
  | next _ hstep ih => exact ih.step hes hm hstep

theorem GasSound.withStack (h : GasSound face s) {l : List Word} (hl : l.length ≤ 1024) :
    GasSound face { s with spp := l } :=
  ⟨⟨h.code, h.padding, h.jumpDests, h.pc, hl, h.ioGas⟩, h.whole, h.paid⟩

/-- Wherever a run is, and whatever is on the stack: the price of the next instruction as a number
is charged, or it runs out of gas because there is less. A byte that is no instruction charges
nothing. -/
theorem gas_exact (sha3 : Bytes → H256) (face : ExtVMFace W)
    (hschedule : face.evmSchedule ∈ schedules)
    (hcreate : ∀ ext endowment gas init, (face.create ext endowment gas init).2.1 ≤ gas)
    (hcall : ∀ ext params, (face.call ext params).2.2.1 ≤ params.gas) (stray : UInt32)
    (gas : Word) (hgas : gas.toNat ≤ 2 ^ 63 - 1) (ext : W) (s : VM W)
    (h : Reaches (step sha3 face stray) (initEntry face gas ext) s) (l : List Word)
    (hl : l.length ≤ 1024) :
    (∀ op, opAt s = some op → isValidInstruction (some op) = true →
      Runs (step sha3 face stray) { s with spp := l }
        (fun _ t => ChargedFor face stray op { s with spp := l } t)
        (Halts (stepCost face stray op { s with spp := l }) { s with spp := l })) ∧
    (isValidInstruction (opAt s) = false →
      Runs (step sha3 face stray) { s with spp := l } (fun _ _ => False)
        fun _ t => t.ioGas ≤ s.ioGas) := by
  have hes := tabled_of_mem hschedule
  have hm : Metered face := ⟨hes.toPriced, hcreate, hcall⟩
  have hsound := (reaches_gasSound hes hm hgas h).withStack hl
  constructor
  · intro op hop hvalid
    exact (hsound.run_step hes hm sha3 stray hop hvalid).imp fun _ _ ht => ht.1
  · intro hinvalid
    exact (hsound.toSound.step_invalid sha3 stray hinvalid).mono (fun _ _ h => h) fun _ _ he => he.2

/-- `MLOAD` at the largest offset there is. -/
def loading : VM Unit :=
  { initEntry (stillFace [0x51] (by decide)) 1000 () with spp := [BitVec.allOnes 256] }

theorem gas_exact_loading : Runs (step (fun _ => H256.ofNat 0) (stillFace [0x51] (by decide)) 0) loading
    (fun _ t => ChargedFor (stillFace [0x51] (by decide)) 0 .MLOAD loading t)
    (Halts (stepCost (stillFace [0x51] (by decide)) 0 .MLOAD loading) loading) :=
  (gas_exact (fun _ => H256.ofNat 0) (stillFace [0x51] (by decide))
    (by simp [schedules, stillFace]) (fun _ _ _ _ => BitVec.le_refl _) (fun _ _ => BitVec.le_refl _)
    0 1000 (by decide) () _ .start [BitVec.allOnes 256] (by decide)).1 .MLOAD rfl rfl

end Runs

end VM
end XChain
