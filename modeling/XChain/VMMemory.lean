import XChain.VMCopies

/-!
# The memory of a run

`MLOAD`, `MSTORE` and `MSTORE8` pay for the offset as a number and cut it to 32 bits to access the
memory. As long as there is nothing to cut, the memory of a run is the unbounded one in which every
cell holds what was last stored in it, or zero.
-/
namespace XChain
namespace VM

open Machine UnboundedMemory

variable {W : Type} {sha3 : Bytes → H256} {face : ExtVMFace W} {stray : UInt32} {s t : VM W}
variable {op : Instruction} {args rest : List Word}

section Accesses

/-- The instructions that access the memory at an offset that is cut. -/
def accesses : List Instruction := [.MLOAD, .MSTORE, .MSTORE8]

/-- An access at `offset` of the memory `m`, which becomes `m'`. -/
def Accesses (op : Instruction) (args rest : List Word) (offset : ℕ) (m m' : ℕ → UInt8)
    (stack : List Word) : Prop :=
  match op with
  | .MLOAD => m' = m ∧ ∃ w, toBytes w = load m offset 32 ∧ stack = w :: rest
  | .MSTORE => m' = store m offset (toBytes (operand args 1)) ∧ stack = rest
  | .MSTORE8 => m' = store m offset [UInt8.ofNat (operand args 1).toNat] ∧ stack = rest
  | _ => False

/-- What an access at `offset` leaves of the machine. -/
structure Accessed (face : ExtVMFace W) (stray : UInt32) (op : Instruction) (args rest : List Word)
    (offset : ℕ) (s t : VM W) : Prop where
  cells : Accesses op args rest offset (ofList s.mem) (ofList t.mem) t.spp
  length : t.mem.length = max s.mem.length (rounded (memoryNeed op args))
  pc : t.pc = s.pc + 1
  ext : t.ext = s.ext
  afford : stepCost face stray op s ≤ s.ioGas
  ioGas : t.ioGas = s.ioGas - stepCost face stray op s

theorem access_cases (hop : op ∈ accesses) : op = .MLOAD ∨ op = .MSTORE ∨ op = .MSTORE8 := by
  simpa only [accesses, List.mem_cons, List.not_mem_nil, or_false] using hop

/-- What is known of the machine that has fetched an access. -/
structure AccessReady (face : ExtVMFace W) (stray : UInt32) (op : Instruction)
    (args rest : List Word) (s u : VM W) : Prop extends Ready face u where
  sp : u.sp = args ++ rest
  mem : u.mem = s.mem
  pc : u.pc = s.pc
  ext : u.ext = s.ext
  ioGas : u.ioGas = s.ioGas
  price : stepCost face stray op s = due face (memoryNeed op args) u

theorem Applies.accessReady (h : Applies face op args rest s) (hes : face.evmSchedule.Tabled)
    (hpaid : MemoryPaid face s) (hop : op ∈ accesses) (stray : UInt32) :
    AccessReady face stray op args rest s (charged face stray (instructionInfo (some op)).args
      (instructionInfo (some op)).ret (instructionInfo (some op)).gasPriceTier s) := by
  have hready := h.ready hes hpaid stray (instructionInfo (some op)).args
    (instructionInfo (some op)).ret
  have hlength := h.args
  have hbase : stepCost face stray op s = baseCost face stray op s.ext s.mem.length s.spp ∧
      baseCost face stray op s.ext s.mem.length s.spp = due face (memoryNeed op s.spp)
        (charged face stray (instructionInfo (some op)).args (instructionInfo (some op)).ret
          (instructionInfo (some op)).gasPriceTier s) ∧
      memoryNeed op s.spp = memoryNeed op args := by
    have hfirst : 0 < args.length → operand s.spp 0 = operand args 0 := by
      intro hpos
      rw [h.spp, operand_append hpos]
    -- The three instructions need one operand for the offset and reach up to a fixed size.
    rcases access_cases hop with rfl | rfl | rfl
    all_goals
      refine ⟨cost_of_not_handsOver rfl,
        baseCost_reach (s := charged face stray _ _ _ s) rfl rfl rfl rfl, ?_⟩
      rw [memoryNeed, memoryNeed, hfirst (by rw [hlength]; decide)]
  obtain ⟨hcost, hdue, hneed⟩ := hbase
  exact { toReady := hready, sp := h.spp, mem := rfl, pc := rfl, ext := rfl, ioGas := rfl,
          price := hcost.trans (hneed ▸ hdue) }

/-- An access that is paid for. -/
theorem AccessReady.accessed {u : VM W} {offset : ℕ} (h : AccessReady face stray op args rest s u)
    (hle : due face (memoryNeed op args) u ≤ u.ioGas)
    (hgas : t.ioGas = u.ioGas - due face (memoryNeed op args) u) (hpc : t.pc = u.pc + 1)
    (hext : t.ext = u.ext)
    (hlength : t.mem.length = max u.mem.length (rounded (memoryNeed op args)))
    (hcells : Accesses op args rest offset (ofList u.mem) (ofList t.mem) t.spp) :
    Accessed face stray op args rest offset s t where
  cells := h.mem ▸ hcells
  length := h.mem ▸ hlength
  pc := h.pc ▸ hpc
  ext := hext.trans h.ext
  afford := by rwa [h.price, ← h.ioGas]
  ioGas := by rw [hgas, h.price, h.ioGas]

theorem AccessReady.short {u : VM W} (h : AccessReady face stray op args rest s u)
    (hlt : u.ioGas < due face (memoryNeed op args) u) : s.ioGas < stepCost face stray op s := by
  rwa [h.price, ← h.ioGas]

theorem Applies.mload (h : Applies face .MLOAD args rest s) (hes : face.evmSchedule.Tabled)
    (hpaid : MemoryPaid face s) :
    Runs (step sha3 face stray) s
      (fun b t => b = true ∧
        Accessed face stray .MLOAD args rest ((operand args 0).toNat % 2 ^ 32) s t)
      (fun e _ => e = .OutOfGas ∧ s.ioGas < stepCost face stray .MLOAD s) := by
  have hready := h.accessReady hes hpaid (by simp [accesses]) stray
  have hlength : args.length = 1 := h.args
  obtain ⟨a, rfl⟩ := List.length_eq_one_iff.mp hlength
  have htop : (charged face stray 1 1 (instructionInfo (some .MLOAD)).gasPriceTier s).spp =
      a :: rest := h.spp
  refine runs_step_of_case (fetchInstruction_ok h.priced h.opAt h.valid h.stop h.spp hlength h.room) ?_
  change AccessReady face stray .MLOAD [a] rest s (charged face stray 1 1 _ s) at hready
  change Runs _ (charged face stray 1 1 _ s) _ _
  generalize charged face stray 1 1 _ s = u at hready htop ⊢
  have hoperand : operand u.sp 0 = a := by rw [hready.sp]; rfl
  refine hready.toReady.mload (by rw [hready.sp]; simp) htop (fun hle => ?_) fun hlt _ => ?_
  · rw [hoperand] at hle ⊢
    exact ⟨rfl, hready.accessed hle rfl rfl rfl (length_grow _ _)
      ⟨ofList_grow _ _, _, toBytes_ofBytes (length_load _ _ _), rfl⟩⟩
  · rw [hoperand] at hlt
    exact ⟨rfl, hready.short hlt⟩

/-- A store with the bytes of its second operand, from the rule of its case. -/
theorem Applies.storing {size : ℕ} (bytes : Word → Bytes) (h : Applies face op args rest s)
    (hes : face.evmSchedule.Tabled) (hpaid : MemoryPaid face s) (hop : op ∈ accesses)
    (hargs : (instructionInfo (some op)).args = 2) (hret : (instructionInfo (some op)).ret = 0)
    (hneed : ∀ l, memoryNeed op l = (operand l 0).toNat + size)
    (haccess : ∀ m m' offset stack, m' = store m offset (bytes (operand args 1)) →
      stack = rest → Accesses op args rest offset m m' stack)
    (hcase : ∀ (u : VM W) (Q : Bounce → VM W → Prop) (E : VMException → VM W → Prop),
      Ready face u → 1 < u.sp.length →
      (∀ mem, due face ((operand u.sp 0).toNat + size) u ≤ u.ioGas →
        Stored u.mem ((operand u.sp 0).toNat % 2 ^ 32) ((operand u.sp 0).toNat + size)
          (bytes (operand u.sp 1)) mem →
        Q .interpretCases
          { paidFor face ((operand u.sp 0).toNat + size) u with mem := mem, pc := u.pc + 1 }) →
      (u.ioGas < due face ((operand u.sp 0).toNat + size) u → ∀ t, E .OutOfGas t) →
      Runs (interpretCase sha3 face (some op)) u Q E) :
    Runs (step sha3 face stray) s
      (fun b t => b = true ∧
        Accessed face stray op args rest ((operand args 0).toNat % 2 ^ 32) s t)
      (fun e _ => e = .OutOfGas ∧ s.ioGas < stepCost face stray op s) := by
  have hlength : args.length = 2 := h.args.trans hargs
  have hroom := h.room
  have hready := h.accessReady hes hpaid hop stray
  have htop : (charged face stray (instructionInfo (some op)).args (instructionInfo (some op)).ret
      (instructionInfo (some op)).gasPriceTier s).spp = rest := by
    show List.replicate _ _ ++ s.spp.drop _ = rest
    rw [hret, ← h.args, h.spp]
    simp
  refine runs_step_of_case
    (fetchInstruction_ok h.priced h.opAt h.valid h.stop h.spp h.args (by omega)) ?_
  generalize charged face stray _ _ _ s = u at hready htop ⊢
  have hoperand : ∀ k < 2, operand u.sp k = operand args k := by
    intro k hk
    rw [hready.sp, operand_append (by omega)]
  have hheight : 1 < u.sp.length := by
    rw [hready.sp, List.length_append]
    omega
  refine hcase u _ _ hready.toReady hheight (fun mem hle hmem => ?_) fun hlt _ => ?_
  · rw [hoperand 0 (by norm_num), ← hneed] at hle hmem
    rw [hoperand 1 (by norm_num)] at hmem
    rw [hoperand 0 (by norm_num), ← hneed]
    exact ⟨rfl, hready.accessed hle rfl rfl rfl hmem.length (haccess _ _ _ _ hmem.cells htop)⟩
  · rw [hoperand 0 (by norm_num), ← hneed] at hlt
    exact ⟨rfl, hready.short hlt⟩

theorem Applies.mstore (h : Applies face .MSTORE args rest s) (hes : face.evmSchedule.Tabled)
    (hpaid : MemoryPaid face s) :
    Runs (step sha3 face stray) s
      (fun b t => b = true ∧
        Accessed face stray .MSTORE args rest ((operand args 0).toNat % 2 ^ 32) s t)
      (fun e _ => e = .OutOfGas ∧ s.ioGas < stepCost face stray .MSTORE s) :=
  h.storing toBytes hes hpaid (by simp [accesses]) rfl rfl (fun _ => rfl)
    (fun _ _ _ _ hcells hstack => ⟨hcells, hstack⟩)
    fun _ _ _ hu hargs hQ hE => hu.mstore hargs hQ hE

theorem Applies.mstore8 (h : Applies face .MSTORE8 args rest s) (hes : face.evmSchedule.Tabled)
    (hpaid : MemoryPaid face s) :
    Runs (step sha3 face stray) s
      (fun b t => b = true ∧
        Accessed face stray .MSTORE8 args rest ((operand args 0).toNat % 2 ^ 32) s t)
      (fun e _ => e = .OutOfGas ∧ s.ioGas < stepCost face stray .MSTORE8 s) :=
  h.storing (fun w => [UInt8.ofNat w.toNat]) hes hpaid (by simp [accesses]) rfl rfl (fun _ => rfl)
    (fun _ _ _ _ hcells hstack => ⟨hcells, hstack⟩)
    fun _ _ _ hu hargs hQ hE => hu.mstore8 hargs hQ hE

/-- The access is at the offset without what is above its lowest 32 bits. -/
theorem Applies.access (h : Applies face op args rest s) (hes : face.evmSchedule.Tabled)
    (hpaid : MemoryPaid face s) (hop : op ∈ accesses) :
    Runs (step sha3 face stray) s
      (fun b t => b = true ∧
        Accessed face stray op args rest ((operand args 0).toNat % 2 ^ 32) s t)
      (fun e _ => e = .OutOfGas ∧ s.ioGas < stepCost face stray op s) := by
  rcases access_cases hop with rfl | rfl | rfl
  · exact h.mload hes hpaid
  · exact h.mstore hes hpaid
  · exact h.mstore8 hes hpaid

/-- An access that there is enough gas for is made. -/
theorem Applies.access_ok (h : Applies face op args rest s) (hes : face.evmSchedule.Tabled)
    (hpaid : MemoryPaid face s) (hop : op ∈ accesses) (sha3 : Bytes → H256)
    (hafford : stepCost face stray op s ≤ s.ioGas) :
    ∃ t, step sha3 face stray s = .ok true t ∧
      Accessed face stray op args rest ((operand args 0).toNat % 2 ^ 32) s t := by
  have hrun : Runs (step sha3 face stray) s _ _ := h.access hes hpaid hop
  obtain ⟨b, t, hok, rfl, haccess⟩ := (hrun.mono (fun _ _ ht => ht)
    fun _ _ he => absurd he.2 (Nat.not_lt.mpr hafford)).exists_ok
  exact ⟨t, hok, haccess⟩

end Accesses

section Runs

/-- The offset of an access is not cut. -/
def Uncut (op : Instruction) (l : List Word) : Prop := op ∈ accesses → (operand l 0).toNat < 2 ^ 32

/-- The reference memory after an instruction: a store writes at its offset as a number, a copy
writes what it reads of its source, and a call writes its output. -/
def recalled (face : ExtVMFace W) (op : Instruction) (s t : VM W) (m : ℕ → UInt8) : ℕ → UInt8 :=
  match op with
  | .MSTORE => store m (operand s.spp 0).toNat (toBytes (operand s.spp 1))
  | .MSTORE8 => store m (operand s.spp 0).toNat [UInt8.ofNat (operand s.spp 1).toNat]
  | .CALLDATACOPY => store m (operand s.spp 0).toNat
      (load (ofList face.data) (operand s.spp 1).toNat (operand s.spp 2).toNat)
  | .CODECOPY => store m (operand s.spp 0).toNat
      (load (ofList face.code) (operand s.spp 1).toNat (operand s.spp 2).toNat)
  | .EXTCODECOPY => store m (operand s.spp 1).toNat
      (load (ofList (face.codeAt s.ext (asAddress (operand s.spp 0)))) (operand s.spp 2).toNat
        (operand s.spp 3).toNat)
  | .CALL => ofList t.mem
  | .CALLCODE => ofList t.mem
  | .DELEGATECALL => ofList t.mem
  | _ => m

/-- A run from `s₀` whose accesses are not cut, with the reference memory. -/
inductive Remembers (sha3 : Bytes → H256) (face : ExtVMFace W) (stray : UInt32) (s₀ : VM W) :
    VM W → (ℕ → UInt8) → Prop where
  | start : Remembers sha3 face stray s₀ s₀ fun _ => 0
  | next {s t : VM W} {m : ℕ → UInt8} {op : Instruction} (h : Remembers sha3 face stray s₀ s m)
      (hop : opAt s = some op) (hcut : Uncut op s.spp) (hstep : step sha3 face stray s = .ok true t) :
      Remembers sha3 face stray s₀ t (recalled face op s t m)

/-- An instruction that goes on has its operands on the stack. -/
theorem args_of_ok {b : Bool} (hs : Sound face s) (hop : opAt s = some op)
    (hok : step sha3 face stray s = .ok b t) :
    (instructionInfo (some op)).args ≤ s.spp.length := by
  by_contra hshort
  have herror := charge_under face stray (instructionInfo (some op)).ret
    (instructionInfo (some op)).gasPriceTier (some op) (Nat.not_le.mp hshort)
  have hbyte := List.getElem?_eq_getElem hs.pc
  have hfetch : fetchInstruction face stray s = _ := fetchInstruction_eq hbyte
  rw [← (hs.byte hbyte).1, hop, herror] at hfetch
  rw [step, bind_error hfetch] at hok
  cases hok

theorem operand_take {l : List Word} {k i : ℕ} (hi : i < k) (hk : k ≤ l.length) :
    operand (l.take k) i = operand l i := by
  have happend : operand (l.take k ++ l.drop k) i = operand (l.take k) i :=
    operand_append (by rw [List.length_take]; omega)
  rw [← happend, List.take_append_drop]

/-- The instruction that a machine goes on with, and its operands. -/
theorem GasSound.applies {b : Bool} (h : GasSound face s) (hes : face.evmSchedule.Tabled)
    (hop : opAt s = some op) (hvalid : isValidInstruction (some op) = true) (hstop : op ≠ .STOP)
    (hok : VM.step sha3 face stray s = .ok b t) :
    Applies face op (s.spp.take (instructionInfo (some op)).args)
      (s.spp.drop (instructionInfo (some op)).args) s := by
  have hargs := args_of_ok h.toSound hop hok
  have hheight := h.height
  refine ⟨hes.toPriced, hop, hvalid, hstop, (List.take_append_drop _ _).symm, ?_, ?_⟩
  · rw [List.length_take]
    omega
  · rw [List.length_drop]
    omega

theorem Copies.cells {source : Bytes} {a offset n : ℕ}
    (h : Copies face stray op source a offset n rest s t) :
    ofList t.mem = store (ofList s.mem) a (load (ofList source) offset n) := by
  have hlen := length_load (ofList source) offset n
  funext i
  by_cases hin : a ≤ i ∧ i < a + n
  · obtain ⟨k, rfl⟩ := Nat.exists_eq_add_of_le hin.1
    have hk : k < n := by omega
    have hload := getElem?_load (ofList source) offset hk
    rw [List.getElem?_eq_getElem (hlen.symm ▸ hk)] at hload
    rw [h.inside k hk, store_inside (hlen.symm ▸ hk), Option.some.inj hload]
  · rw [h.outside i (by omega), store_outside (by rw [hlen]; omega)]

theorem GasSound.recalls_access (h : GasSound face s) (hes : face.evmSchedule.Tabled)
    (hop : opAt s = some op) (hcut : Uncut op s.spp) (haccess : op ∈ accesses)
    (hstep : VM.step sha3 face stray s = .ok true t) :
    ofList t.mem = recalled face op s t (ofList s.mem) := by
  have hpaid : MemoryPaid face s := ⟨h.whole, h.paid⟩
  have hlt := hcut haccess
  rcases access_cases haccess with rfl | rfl | rfl
  · exact (((h.applies hes hop rfl (by simp) hstep).mload hes hpaid).ok hstep).2.cells.1
  · have happlies := h.applies hes hop rfl (by simp) hstep
    have hargs := args_of_ok h.toSound hop hstep
    have hcells := ((happlies.mstore hes hpaid).ok hstep).2.cells.1
    rw [operand_take (by decide) hargs, operand_take (by decide) hargs, Nat.mod_eq_of_lt hlt] at hcells
    exact hcells
  · have happlies := h.applies hes hop rfl (by simp) hstep
    have hargs := args_of_ok h.toSound hop hstep
    have hcells := ((happlies.mstore8 hes hpaid).ok hstep).2.cells.1
    rw [operand_take (by decide) hargs, operand_take (by decide) hargs, Nat.mod_eq_of_lt hlt] at hcells
    exact hcells

theorem GasSound.recalls_copy (h : GasSound face s) (hes : face.evmSchedule.Tabled)
    (hop : opAt s = some op) (hcopy : op ∈ [.CALLDATACOPY, .CODECOPY, .EXTCODECOPY])
    (hstep : VM.step sha3 face stray s = .ok true t) :
    ofList t.mem = recalled face op s t (ofList s.mem) := by
  have hpaid : MemoryPaid face s := ⟨h.whole, h.paid⟩
  simp only [List.mem_cons, List.not_mem_nil, or_false] at hcopy
  rcases hcopy with rfl | rfl | rfl
  all_goals
    have hargs := args_of_ok h.toSound hop hstep
    have happlies := h.applies hes hop rfl (by simp) hstep
    obtain ⟨-, hread⟩ := (happlies.source hes hpaid (by simp)).ok hstep
    have hcells := Copies.cells hread
    simp only [operand_take (by decide : 0 < _) hargs, operand_take (by decide : 1 < _) hargs,
      operand_take (by decide : 2 < _) hargs] at hcells
  · exact hcells
  · exact hcells
  · rw [operand_take (by decide) hargs] at hcells
    exact hcells

/-- A step keeps the memory what the reference memory is. -/
theorem GasSound.recalls (h : GasSound face s) (hes : face.evmSchedule.Tabled) (hm : Metered face)
    (hop : opAt s = some op) (hcut : Uncut op s.spp)
    (hstep : VM.step sha3 face stray s = .ok true t) :
    ofList t.mem = recalled face op s t (ofList s.mem) := by
  have hvalid : isValidInstruction (some op) = true := by
    obtain ⟨op', hop', hvalid⟩ := exists_of_ok h.toSound hstep
    rwa [← hop', hop] at hvalid
  have hcells := ((h.run_step hes hm sha3 stray hop hvalid).ok hstep).2 rfl
  cases op with
  | MLOAD | MSTORE | MSTORE8 => exact h.recalls_access hes hop hcut (by simp [accesses]) hstep
  | CALLDATACOPY | CODECOPY | EXTCODECOPY => exact h.recalls_copy hes hop (by simp) hstep
  | CALL | CALLCODE | DELEGATECALL => rfl
  | _ => exact hcells.cells rfl

theorem Remembers.sound {gas : Word} {ext : W} {m : ℕ → UInt8} (hes : face.evmSchedule.Tabled)
    (hm : Metered face) (hgas : gas.toNat ≤ maxInt63)
    (h : Remembers sha3 face stray (initEntry face gas ext) s m) :
    GasSound face s ∧ ofList s.mem = m := by
  induction h with
  | start => exact ⟨initEntry_gasSound hgas ext, ofList_nil⟩
  | next _ hop hcut hstep ih =>
    obtain ⟨hsound, rfl⟩ := ih
    exact ⟨hsound.step hes hm hstep, hsound.recalls hes hm hop hcut hstep⟩

/-- In a run whose accesses are all at offsets below 2^32, an access finds and leaves the reference
memory, and the memory grows by zeros in whole words. -/
theorem memory_exact (sha3 : Bytes → H256) (face : ExtVMFace W)
    (hschedule : face.evmSchedule ∈ schedules)
    (hcreate : ∀ ext endowment gas init, (face.create ext endowment gas init).2.1 ≤ gas)
    (hcall : ∀ ext params, (face.call ext params).2.2.1 ≤ params.gas) (stray : UInt32)
    (gas : Word) (hgas : gas.toNat ≤ 2 ^ 63 - 1) (ext : W) (s : VM W) (m : ℕ → UInt8)
    (h : Remembers sha3 face stray (initEntry face gas ext) s m) :
    ofList s.mem = m ∧ s.mem.length % 32 = 0 ∧
      ∀ op ∈ accesses, opAt s = some op → ∀ args rest : List Word,
        args.length = (instructionInfo (some op)).args → args.length + rest.length ≤ 1024 →
        (operand args 0).toNat < 2 ^ 32 →
        Runs (step sha3 face stray) { s with spp := args ++ rest }
          (fun b t => b = true ∧
            Accesses op args rest (operand args 0).toNat m (ofList t.mem) t.spp ∧
            t.mem.length = max s.mem.length (rounded (memoryNeed op args)))
          (fun e _ => e = .OutOfGas ∧
            s.ioGas < stepCost face stray op { s with spp := args ++ rest }) := by
  have hes := tabled_of_mem hschedule
  obtain ⟨hsound, rfl⟩ := h.sound hes ⟨hes.toPriced, hcreate, hcall⟩ hgas
  refine ⟨rfl, hsound.whole, fun op hop hat args rest hargs hroom hlt => ?_⟩
  have hvalid : isValidInstruction (some op) = true ∧ op ≠ .STOP := by
    rcases access_cases hop with rfl | rfl | rfl <;> exact ⟨rfl, by decide⟩
  have happlies : Applies face op args rest { s with spp := args ++ rest } :=
    ⟨hes.toPriced, hat, hvalid.1, hvalid.2, rfl, hargs, by omega⟩
  refine (happlies.access hes ⟨hsound.whole, hsound.paid⟩ hop).imp fun b t ht => ?_
  have hcells := ht.2.cells
  rw [Nat.mod_eq_of_lt hlt] at hcells
  exact ⟨ht.1, hcells, ht.2.length⟩

/-- A store at offset 7. -/
def storing : VM Unit :=
  { initEntry (stillFace [0x52] (by decide)) 1000 () with spp := [7, 42] }

set_option maxRecDepth 4000 in
theorem memory_exact_storing :
    Runs (step (fun _ => H256.ofNat 0) (stillFace [0x52] (by decide)) 0) storing
      (fun b t => b = true ∧ Accesses .MSTORE [7, 42] [] 7 (fun _ => 0) (ofList t.mem) t.spp ∧
        t.mem.length = max storing.mem.length (rounded (memoryNeed .MSTORE [7, 42])))
      (fun e _ => e = .OutOfGas ∧
        storing.ioGas < stepCost (stillFace [0x52] (by decide)) 0 .MSTORE storing) :=
  (memory_exact (fun _ => H256.ofNat 0) (stillFace [0x52] (by decide))
    (by simp [schedules, stillFace]) (fun _ _ _ _ => BitVec.le_refl _) (fun _ _ => BitVec.le_refl _)
    0 1000 (by decide) () _ _ .start).2.2 .MSTORE (by simp [accesses]) rfl [7, 42] [] rfl (by decide)
    (by decide)

/-- A store of 42 at the offset that is the value of the call, which is 2^32. -/
def far : ExtVMFace Unit := { stillFace [0x60, 0x2a, 0x34, 0x52] (by decide) with value := 2 ^ 32 }

/-- The machine that has pushed the operands of the store. -/
def farPushed : VM Unit :=
  { initEntry far (2 ^ 63 - 1) () with
    ioGas := 2 ^ 63 - 6
    pc := 3
    sp := [42]
    spp := [2 ^ 32, 42]
    runGas := 2 }

set_option maxRecDepth 4000 in
theorem farPushed_reached (sha3 : Bytes → H256) :
    Reaches (step sha3 far 0) (initEntry far (2 ^ 63 - 1) ()) farPushed := by
  have hfirst : step sha3 far 0 (initEntry far (2 ^ 63 - 1) ()) =
      .ok true { initEntry far (2 ^ 63 - 1) () with
        ioGas := 2 ^ 63 - 4
        pc := 2
        spp := [42]
        runGas := 3 } := rfl
  have hsecond : step sha3 far 0 { initEntry far (2 ^ 63 - 1) () with
        ioGas := 2 ^ 63 - 4
        pc := 2
        spp := [42]
        runGas := 3 } = .ok true farPushed := rfl
  exact .next (.next .start hfirst) hsecond

/-- There is gas enough for it, but the store is at offset 0. -/
theorem memory_exact_fails_far : ∃ s t : VM Unit,
    Reaches (step (fun _ => H256.ofNat 0) far 0) (initEntry far (2 ^ 63 - 1) ()) s ∧
      opAt s = some .MSTORE ∧ s.spp = [2 ^ 32, 42] ∧ stepCost far 0 .MSTORE s ≤ s.ioGas ∧
      step (fun _ => H256.ofNat 0) far 0 s = .ok true t ∧
      ofList t.mem = store (ofList s.mem) 0 (toBytes 42) ∧
      ofList t.mem ≠ store (ofList s.mem) (2 ^ 32) (toBytes 42) := by
  have hes : far.evmSchedule.Tabled := tabled_of_mem (by simp [far, stillFace, schedules])
  have happlies : Applies far .MSTORE [2 ^ 32, 42] [] farPushed :=
    ⟨hes.toPriced, rfl, rfl, by simp, rfl, rfl, by decide⟩
  have hafford : stepCost far 0 .MSTORE farPushed ≤ farPushed.ioGas := by decide
  obtain ⟨t, hok, haccess⟩ := happlies.access_ok hes ⟨rfl, by decide⟩ (by simp [accesses])
    (fun _ => H256.ofNat 0) hafford
  have hcells : ofList t.mem = store (ofList farPushed.mem) 0 (toBytes 42) := haccess.cells.1
  refine ⟨farPushed, t, farPushed_reached _, rfl, rfl, hafford, hok, hcells, fun hsame => ?_⟩
  have hcell := congrFun (hcells.symm.trans hsame) 31
  have hnear : store (ofList farPushed.mem) 0 (toBytes 42) 31 = 42 := by decide
  have hfar : store (ofList farPushed.mem) (2 ^ 32) (toBytes 42) 31 = 0 :=
    store_outside (Or.inl (by norm_num))
  rw [hnear, hfar] at hcell
  exact absurd hcell (by decide)

end Runs

end VM
end XChain
