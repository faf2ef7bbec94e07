import XChain.VMArithmetic

/-!
# Reads of a source

The instructions that read the input and the code of an account read a source that goes on with
zeros behind its end, whatever the offsets are.
-/
namespace XChain
namespace VM

open Machine UnboundedMemory

variable {W : Type} {sha3 : Bytes → H256} {face : ExtVMFace W} {stray : UInt32} {s t : VM W}
variable {op : Instruction} {args rest : List Word}

section Words

theorem toBytes_ofBytes {b : Bytes} (hb : b.length = 32) : toBytes (ofBytes b) = b := by
  have hlt := Rlp.ofBigEndian_lt b
  have hbytes := Rlp.fixedBytes_ofBigEndian b
  rw [hb] at hlt hbytes
  show Rlp.fixedBytes 32 (BitVec.ofNat 256 (Rlp.ofBigEndian b)).toNat = b
  rw [BitVec.toNat_ofNat, Nat.mod_eq_of_lt hlt, hbytes]

end Words

section Input

/-- The word that is loaded is the 32 bytes from the offset on. -/
theorem calldataload_ok (hargs : 1 ≤ s.sp.length) :
    calldataload face s =
      .ok (ofBytes (load (ofList face.data) (operand s.sp 0).toNat 32)) s := by
  have hsize := face.size_data
  have ha := (operand s.sp 0).isLt
  unfold calldataload
  rw [bind_ok (item_operand hargs)]
  generalize operand s.sp 0 = a at ha
  rw [u512_of_lt (by omega)]
  by_cases hin : a.toNat + 31 < face.data.length
  · rw [if_pos hin, u64_of_lt (by omega), slice, if_pos (Or.inr (by omega)),
      load_ofList (by omega)]
    rfl
  · rw [if_neg hin]
    by_cases hpast : face.data.length ≤ a.toNat
    · rw [if_pos hpast, load_ofList_of_le hpast]
      rfl
    · rw [if_neg hpast, u64_of_lt (by omega)]
      rfl

/-- `CALLDATALOAD` puts the word whose bytes are those of the input from the offset on. -/
theorem Applies.calldataload (h : Applies face .CALLDATALOAD args rest s) :
    Runs (step sha3 face stray) s
      (fun b t => b = true ∧ ∃ w,
        toBytes w = load (ofList face.data) (operand args 0).toNat 32 ∧
          Replaces face stray .CALLDATALOAD w rest s t)
      (fun e _ => e = .OutOfGas ∧ s.ioGas < stepCost face stray .CALLDATALOAD s) := by
  have hlength : args.length = 1 := h.args
  refine (h.ordinary (by omega) rfl rfl (stepCost_plain rfl rfl rfl) fun u hu => ?_).imp
    fun b t ht => ⟨ht.1, _, toBytes_ofBytes (length_load _ _ _), ht.2⟩
  have hsp : 1 ≤ u.sp.length := by
    rw [hu, List.length_append]
    omega
  rw [calldataload_ok hsp, hu, operand_append (by omega)]

end Input

section Copies

/-- Where the source and the operands of a copying instruction are. -/
structure Copying (face : ExtVMFace W) (op : Instruction) (i : ℕ) (source : W → Word → Bytes) :
    Prop where
  args : (instructionInfo (some op)).args = i + 3
  ret : (instructionInfo (some op)).ret = 0
  need : ∀ l, memoryNeed op l = needed (operand l i) (operand l (i + 2))
  copied : ∀ l, copied op l = (operand l (i + 2)).toNat
  handsOver : handsOver op = false
  size : ∀ ext a, (source ext a).length < 2 ^ 64

/-- The memory after a copy: byte by byte the source, and elsewhere what there was. -/
structure Copies (face : ExtVMFace W) (stray : UInt32) (op : Instruction) (source : Bytes)
    (a offset n : ℕ) (rest : List Word) (s t : VM W) : Prop where
  inside : ∀ i < n, ofList t.mem (a + i) = ofList source (offset + i)
  outside : ∀ i, i < a ∨ a + n ≤ i → ofList t.mem i = ofList s.mem i
  length : t.mem.length = max s.mem.length (rounded (memoryNeed op s.spp))
  spp : t.spp = rest
  pc : t.pc = s.pc + 1
  afford : stepCost face stray op s ≤ s.ioGas
  ioGas : t.ioGas = s.ioGas - stepCost face stray op s
  ext : t.ext = s.ext

/-- The machine that has fetched is ready for its case. -/
theorem Applies.ready (h : Applies face op args rest s) (hes : face.evmSchedule.Tabled)
    (hpaid : MemoryPaid face s) (stray : UInt32) (removed added : ℕ) :
    Ready face (charged face stray removed added (instructionInfo (some op)).gasPriceTier s) := by
  refine ⟨hes, ⟨hpaid.whole, hpaid.paid⟩, ?_, rfl⟩
  exact (tierGas_small h.priced stray h.valid).trans (by norm_num)

theorem Applies.copy {i : ℕ} (data : Exec W Bytes) (source : W → Word → Bytes)
    (h : Applies face op args rest s) (hes : face.evmSchedule.Tabled) (hpaid : MemoryPaid face s)
    (hc : Copying face op i source)
    (hdata : ∀ t : VM W, t.sp = args ++ rest → t.ext = s.ext →
      data t = .ok (source s.ext (operand args 0)) t)
    (hsmall : fee face stray op s.ext s.spp ≤ 100000)
    (hcase : ∀ (u : VM W) (Q : Bounce → VM W → Prop) (E : VMException → VM W → Prop),
      u.ext = s.ext → u.sp = s.spp →
      u.runGas = tierGas face stray (instructionInfo (some op)).gasPriceTier →
      Runs (copyCase face i data) { u with runGas := fee face stray op s.ext s.spp } Q E →
      Runs (interpretCase sha3 face (some op)) u Q E) :
    Runs (step sha3 face stray) s
      (fun b t => b = true ∧ Copies face stray op (source s.ext (operand args 0))
        (operand args i).toNat (operand args (i + 1)).toNat (operand args (i + 2)).toNat rest s t)
      (fun e _ => e = .OutOfGas ∧ s.ioGas < stepCost face stray op s) := by
  have hlength : args.length = i + 3 := h.args.trans hc.args
  have hroom := h.room
  have hfetch : fetchInstruction face stray s = _ :=
    fetchInstruction_ok h.priced h.opAt h.valid h.stop h.spp h.args (by rw [hc.ret]; omega)
  have hready := h.ready hes hpaid stray (instructionInfo (some op)).args
    (instructionInfo (some op)).ret
  have hspp : (charged face stray (instructionInfo (some op)).args (instructionInfo (some op)).ret
      (instructionInfo (some op)).gasPriceTier s).spp = rest := by
    show List.replicate _ _ ++ s.spp.drop _ = rest
    rw [hc.ret, ← h.args, h.spp]
    simp
  have hcost : stepCost face stray op s = baseCost face stray op s.ext s.mem.length s.spp :=
    cost_of_not_handsOver hc.handsOver
  have hoperand : ∀ k < i + 3, operand s.spp k = operand args k := by
    intro k hk
    rw [h.spp, operand_append (by omega)]
  refine runs_step_of_case hfetch (hcase _ _ _ rfl rfl rfl ?_)
  generalize hu : charged face stray _ _ _ s = u at hready hspp ⊢
  have hsp : u.sp = s.spp := hu ▸ rfl
  have hext : u.ext = s.ext := hu ▸ rfl
  have hmem : u.mem = s.mem := hu ▸ rfl
  have hpc : u.pc = s.pc := hu ▸ rfl
  have hgas : u.ioGas = s.ioGas := hu ▸ rfl
  have hbase : baseCost face stray op u.ext u.mem.length u.sp = stepCost face stray op s := by
    rw [hcost, hext, hmem, hsp]
  have hfee : fee face stray op u.ext u.sp = fee face stray op s.ext s.spp := by rw [hext, hsp]
  have hargs : i + 2 < u.sp.length := by
    rw [hsp, h.spp, List.length_append]
    omega
  refine runs_copyCase_exact (s := u)
    ⟨hes, ⟨hready.paid.whole, hready.paid.paid⟩, hsmall, hready.copyMemSize⟩ rfl hargs
    (hc.size s.ext (operand args 0)) (fun t ht hte => hdata t (ht.trans (hsp.trans h.spp)) (hte.trans hext))
    hfee (hc.need _) (hc.copied _) (fun t hle hleft hstored hts htp hte => ⟨rfl, ?_⟩)
    fun hlt _ => ⟨rfl, ?_⟩
  · rw [hbase, hgas] at hle hleft
    rw [hsp, hmem, hoperand i (by omega), hoperand (i + 1) (by omega), hoperand (i + 2) (by omega)]
      at hstored
    have hlen := length_load (ofList (source s.ext (operand args 0))) (operand args (i + 1)).toNat
      (operand args (i + 2)).toNat
    refine ⟨fun j hj => ?_, fun j hj => ?_, hstored.length, hts.trans hspp, htp.trans (by rw [hpc]), hle,
      hleft, hte.trans hext⟩
    · rw [hstored.cells, store_inside (hlen.symm ▸ hj)]
      have hload := getElem?_load (ofList (source s.ext (operand args 0)))
        (operand args (i + 1)).toNat hj
      rw [List.getElem?_eq_getElem (hlen.symm ▸ hj)] at hload
      exact Option.some.inj hload
    · rw [hstored.cells, store_outside (by rw [hlen]; exact hj)]
  · rw [hbase, hgas] at hlt
    exact hlt

/-- What an instruction that reads a source leaves of the machine. -/
def SourceRead (face : ExtVMFace W) (stray : UInt32) (op : Instruction) (args rest : List Word)
    (s t : VM W) : Prop :=
  match op with
  | .CALLDATALOAD => ∃ w, toBytes w = load (ofList face.data) (operand args 0).toNat 32 ∧
      Replaces face stray op w rest s t
  | .CALLDATACOPY => Copies face stray op face.data (operand args 0).toNat (operand args 1).toNat
      (operand args 2).toNat rest s t
  | .CODECOPY => Copies face stray op face.code (operand args 0).toNat (operand args 1).toNat
      (operand args 2).toNat rest s t
  | .EXTCODECOPY => Copies face stray op (face.codeAt s.ext (asAddress (operand args 0)))
      (operand args 1).toNat (operand args 2).toNat (operand args 3).toNat rest s t
  | _ => False

theorem Applies.source (h : Applies face op args rest s) (hes : face.evmSchedule.Tabled)
    (hpaid : MemoryPaid face s)
    (hreads : op ∈ [.CALLDATALOAD, .CALLDATACOPY, .CODECOPY, .EXTCODECOPY]) :
    Runs (step sha3 face stray) s (fun b t => b = true ∧ SourceRead face stray op args rest s t)
      (fun e _ => e = .OutOfGas ∧ s.ioGas < stepCost face stray op s) := by
  simp only [List.mem_cons, List.not_mem_nil, or_false] at hreads
  rcases hreads with rfl | rfl | rfl | rfl
  · exact h.calldataload
  · refine Applies.copy (pure face.data) (fun _ _ => face.data) h hes hpaid
      ⟨rfl, rfl, fun _ => rfl, fun _ => rfl, rfl, fun _ _ => face.size_data⟩
      (fun _ _ _ => rfl) ?_ fun u Q E _ _ hu hrun => ?_
    · exact (tierGas_small h.priced stray h.valid).trans (by norm_num)
    · rw [show fee face stray .CALLDATACOPY s.ext s.spp = u.runGas from hu.symm] at hrun
      exact hrun
  · refine Applies.copy (pure face.code) (fun _ _ => face.code) h hes hpaid
      ⟨rfl, rfl, fun _ => rfl, fun _ => rfl, rfl, fun _ _ => face.size_code⟩
      (fun _ _ _ => rfl) ?_ fun u Q E _ _ hu hrun => ?_
    · exact (tierGas_small h.priced stray h.valid).trans (by norm_num)
    · rw [show fee face stray .CODECOPY s.ext s.spp = u.runGas from hu.symm] at hrun
      exact hrun
  · have hprice := h.priced.small face.evmSchedule.extcodecopyGas (by simp)
    have hlength : args.length = 4 := h.args
    refine Applies.copy (do
        let s ← get
        let a ← item 0
        pure (face.codeAt s.ext (asAddress a)))
      (fun ext a => face.codeAt ext (asAddress a)) h hes hpaid
      ⟨rfl, rfl, fun _ => rfl, fun _ => rfl, rfl, fun _ _ => face.size_codeAt _ _⟩
      (fun t ht hte => ?_) hprice fun u Q E _ _ _ hrun => ?_
    · have hargs : 0 < t.sp.length := by
        rw [ht, List.length_append]
        omega
      have hitem : operand t.sp 0 = operand args 0 := by rw [ht, operand_append (by omega)]
      refine (bind_ok (item_operand hargs)).trans ?_
      rw [hitem, ← hte]
      rfl
    · refine runs_bind (runs_toInt63_exact (fun _ => runs_bind (runs_setRunGas hrun)) fun hlarge => ?_)
      unfold maxInt63 at hlarge
      omega

/-- Wherever a run is and whatever the operands are: a byte that is read is the one of the source
at its offset, or zero behind the end, and nothing else of the memory changes. Without the gas for
the price the instruction runs out of it. -/
theorem source_exact (sha3 : Bytes → H256) (face : ExtVMFace W)
    (hschedule : face.evmSchedule ∈ schedules)
    (hcreate : ∀ ext endowment gas init, (face.create ext endowment gas init).2.1 ≤ gas)
    (hcall : ∀ ext params, (face.call ext params).2.2.1 ≤ params.gas) (stray : UInt32)
    (gas : Word) (hgas : gas.toNat ≤ 2 ^ 63 - 1) (ext : W) (s : VM W)
    (h : Reaches (step sha3 face stray) (initEntry face gas ext) s) (op : Instruction)
    (hop : opAt s = some op)
    (hreads : op ∈ [.CALLDATALOAD, .CALLDATACOPY, .CODECOPY, .EXTCODECOPY]) (args rest : List Word)
    (hargs : args.length = (instructionInfo (some op)).args)
    (hroom : args.length + rest.length ≤ 1024) :
    Runs (step sha3 face stray) { s with spp := args ++ rest }
      (fun b t => b = true ∧ SourceRead face stray op args rest { s with spp := args ++ rest } t)
      (fun e _ => e = .OutOfGas ∧ s.ioGas < stepCost face stray op { s with spp := args ++ rest }) := by
  have hes := tabled_of_mem hschedule
  have hsound := reaches_gasSound hes ⟨hes.toPriced, hcreate, hcall⟩ hgas h
  have hvalid : isValidInstruction (some op) = true ∧ op ≠ .STOP := by
    simp only [List.mem_cons, List.not_mem_nil, or_false] at hreads
    rcases hreads with rfl | rfl | rfl | rfl <;> exact ⟨rfl, by decide⟩
  have happlies : Applies face op args rest { s with spp := args ++ rest } :=
    ⟨hes.toPriced, hop, hvalid.1, hvalid.2, rfl, hargs, by omega⟩
  exact happlies.source hes ⟨hsound.whole, hsound.paid⟩ hreads

/-- `CODECOPY` from the last offset there is. -/
def behind : VM Unit :=
  { initEntry (stillFace [0x39] (by decide)) 1000 () with spp := [0, BitVec.allOnes 256, 32] }

set_option maxRecDepth 4000 in
theorem source_exact_behind :
    Runs (step (fun _ => H256.ofNat 0) (stillFace [0x39] (by decide)) 0) behind
      (fun b t => b = true ∧ SourceRead (stillFace [0x39] (by decide)) 0 .CODECOPY
        [0, BitVec.allOnes 256, 32] [] behind t)
      (fun e _ => e = .OutOfGas ∧
        behind.ioGas < stepCost (stillFace [0x39] (by decide)) 0 .CODECOPY behind) :=
  @source_exact Unit (fun _ => H256.ofNat 0) (stillFace [0x39] (by decide))
    (by simp [schedules, stillFace]) (fun _ _ _ _ => BitVec.le_refl _) (fun _ _ => BitVec.le_refl _)
    0 1000 (by decide) () (initEntry (stillFace [0x39] (by decide)) 1000 ()) .start .CODECOPY rfl
    (by simp) [0, BitVec.allOnes 256, 32] [] rfl (by decide)

end Copies

end VM
end XChain
