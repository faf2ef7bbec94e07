import XChain.VMCases

/-!
# Runs of the virtual machine

Between instructions the program counter is inside the padded code, the padding is
`STOP`, the jump destinations are in the code proper and the stack has at most 1024
items. An instruction keeps this, makes no access out of range as long as its byte is
in the table of instructions, and pays.
-/
namespace XChain
namespace VM

open Machine

variable {W : Type} {sha3 : Bytes → H256} {face : ExtVMFace W} {stray : UInt32} {s t : VM W}

/-- The instruction that the next fetch finds. -/
def opAt (s : VM W) : Option Instruction := Instruction.ofByte (s.code.getD s.pc 0)

section Optimize

theorem optimizeLoop_spec {n fuel pc : ℕ} {code : Bytes} {dests : List ℕ}
    (hdests : ∀ d ∈ dests, d < n) :
    (optimizeLoop n fuel pc code dests).1.length = code.length ∧
      (∀ i, n ≤ i → (optimizeLoop n fuel pc code dests).1[i]? = code[i]?) ∧
      ∀ d ∈ (optimizeLoop n fuel pc code dests).2, d < n := by
  induction fuel generalizing pc code dests with
  | zero => exact ⟨rfl, fun _ _ => rfl, hdests⟩
  | succ fuel ih =>
    unfold optimizeLoop
    by_cases hpc : pc < n
    · rw [if_pos hpc]
      -- The only byte that may change is the one at `pc`.
      obtain ⟨code', hcode'⟩ : ∃ code', code' = if code.getD pc 0 = 0xac ∨ code.getD pc 0 = 0xad ∨
          code.getD pc 0 = 0xae then code.set pc 0xaf else code := ⟨_, rfl⟩
      have hlen : code'.length = code.length := by
        rw [hcode']
        split_ifs
        · exact List.length_set
        · rfl
      have hkept : ∀ i, n ≤ i → code'[i]? = code[i]? := by
        intro i hi
        rw [hcode']
        split_ifs
        · exact List.getElem?_set_ne (by omega)
        · rfl
      simp only [← hcode']
      have hmore : ∀ d ∈ dests ++ [pc], d < n := by
        intro d hd
        rcases List.mem_append.mp hd with hd | hd
        · exact hdests d hd
        · rw [List.mem_singleton.mp hd]
          exact hpc
      split_ifs
      · obtain ⟨h1, h2, h3⟩ := ih hmore
        exact ⟨h1.trans hlen, fun i hi => (h2 i hi).trans (hkept i hi), h3⟩
      · obtain ⟨h1, h2, h3⟩ := ih hdests
        exact ⟨h1.trans hlen, fun i hi => (h2 i hi).trans (hkept i hi), h3⟩
      · obtain ⟨h1, h2, h3⟩ := ih hdests
        exact ⟨h1.trans hlen, fun i hi => (h2 i hi).trans (hkept i hi), h3⟩
    · rw [if_neg hpc]
      exact ⟨rfl, fun _ _ => rfl, hdests⟩

end Optimize

section Fetch

/-- What holds of the machine between two instructions. -/
structure Sound (face : ExtVMFace W) (s : VM W) : Prop where
  code : s.code.length = face.code.length + 33
  padding : ∀ i, face.code.length ≤ i → i < s.code.length → s.code[i]? = some 0
  jumpDests : ∀ d ∈ s.jumpDests, d < face.code.length
  pc : s.pc < s.code.length
  height : s.spp.length ≤ 1024
  ioGas : s.ioGas < 2 ^ 64

theorem initEntry_sound (face : ExtVMFace W) (gas : Word) (ext : W) :
    Sound face (initEntry face gas ext) := by
  have hnone : ∀ d ∈ ([] : List ℕ), d < face.code.length := by
    intro d hd
    cases hd
  obtain ⟨hlen, hkept, hdests⟩ := @optimizeLoop_spec face.code.length face.code.length 0
    (face.code ++ List.replicate 33 0) [] hnone
  have hcode : (initEntry face gas ext).code.length = face.code.length + 33 := by
    rw [List.length_append, List.length_replicate] at hlen
    exact hlen
  constructor
  · exact hcode
  · intro i hi hlt
    refine (hkept i hi).trans ?_
    rw [List.getElem?_append_right hi, List.getElem?_replicate, if_pos (by omega)]
  · exact hdests
  · rw [hcode]
    exact Nat.succ_pos _
  · exact Nat.zero_le _
  · exact Nat.mod_lt _ (by norm_num)

theorem adjusted_length (l : List Word) {removed : ℕ} (h : removed ≤ l.length) (added : ℕ) :
    (List.replicate (added - removed) 0 ++ l.drop (removed - added)).length + removed =
      l.length + added := by
  rw [List.length_append, List.length_replicate, List.length_drop]
  omega

theorem runs_adjustStack {removed added : ℕ} {Q : Unit → VM W → Prop}
    {E : VMException → VM W → Prop}
    (hQ : ∀ l : List Word, removed ≤ s.spp.length → l.length + removed = s.spp.length + added →
      l.length ≤ 1024 → Q () { s with sp := s.spp, spp := l })
    (hE : ∀ e, e ≠ .outOfBounds → E e { s with sp := s.spp }) :
    Runs (adjustStack removed added) s Q E := by
  unfold adjustStack
  refine runs_bind (runs_modify (runs_bind (runs_get ?_)))
  refine runs_ite (fun _ => runs_throw (hE _ (by simp))) fun hunder => ?_
  refine runs_ite (fun _ => runs_throw (hE _ (by simp))) fun hover => ?_
  have hunder' : ¬ ((s.spp.length : ℤ) - removed < 0) := hunder
  have hover' : ¬ ((s.spp.length : ℤ) - removed + added > 1024) := hover
  have hle : removed ≤ s.spp.length := by omega
  have hlen := adjusted_length s.spp hle added
  exact runs_set (hQ _ hle hlen (le_trans (Nat.le_of_eq (Nat.eq_sub_of_add_eq hlen)) (by omega)))

theorem Sound.byte (h : Sound face s) {b : UInt8} (hb : s.code[s.pc]? = some b) :
    opAt s = Instruction.ofByte b ∧ (face.code.length ≤ s.pc → b = 0) := by
  constructor
  · rw [opAt, List.getD_eq_getElem?_getD, hb]
    rfl
  · intro hle
    rw [h.padding s.pc hle h.pc] at hb
    exact (Option.some.inj hb).symm

/-- Behind the code there is only `STOP`, and before its end there is room for the bytes
of a push. -/
theorem Sound.bytes (h : Sound face s) :
    s.pc + (instructionInfo (opAt s)).additional < s.code.length := by
  have hcode := h.code
  have hpc := h.pc
  obtain ⟨hop, hstop⟩ := h.byte (List.getElem?_eq_getElem hpc)
  have hadd := additional_le (opAt s)
  by_cases hle : face.code.length ≤ s.pc
  · rw [hop, hstop hle]
    exact hpc
  · omega

theorem tierGas_charged (hm : Metered face) {op : Instruction}
    (hop : Charged (instructionInfo (some op)).gasPriceTier = true) :
    1 ≤ tierGas face stray (instructionInfo (some op)).gasPriceTier := by
  unfold tierGas
  rw [hm.priced.tiers]
  cases htier : (instructionInfo (some op)).gasPriceTier <;> rw [htier] at hop <;>
    first | exact Nat.le_of_ble_eq_true rfl | cases hop

theorem tierGas_small (hes : face.evmSchedule.Priced) (stray : UInt32) {op : Instruction}
    (hop : isValidInstruction (some op) = true) :
    tierGas face stray (instructionInfo (some op)).gasPriceTier ≤ 20 := by
  have hvalid : (instructionInfo (some op)).gasPriceTier ≠ .Invalid := by
    intro hinvalid
    rw [gasPriceTier_invalid_iff] at hinvalid
    rw [hinvalid] at hop
    cases hop
  unfold tierGas
  rw [hes.tiers]
  cases htier : (instructionInfo (some op)).gasPriceTier <;>
    first | exact absurd htier hvalid | exact Nat.le_of_ble_eq_true rfl

/-- The machine after the fetch of a sound machine. -/
structure Fetch (face : ExtVMFace W) (s t : VM W) : Prop where
  code : t.code = s.code
  jumpDests : t.jumpDests = s.jumpDests
  sp : t.sp = s.spp
  pc : t.pc = s.pc
  height : t.spp.length ≤ 1024
  ioGas : t.ioGas = s.ioGas
  fetched : ∀ op, opAt s = some op → isValidInstruction (some op) = true → Fetched face op t

theorem Sound.fetch (h : Sound face s) :
    Runs (fetchInstruction face stray) s (fun op t => op = opAt s ∧ Fetch face s t) (Fails s) := by
  have hbytes := h.bytes
  unfold fetchInstruction
  refine runs_bind (runs_get (runs_bind (runs_codeByte h.pc fun b hb => ?_)))
  obtain ⟨hop, -⟩ := h.byte hb
  rw [hop] at hbytes
  refine runs_bind (runs_adjustStack (fun l hargs hlen hheight => ?_)
    fun e he => ⟨he, le_rfl⟩)
  refine runs_bind (runs_toInt63 (fun hgas => ?_) (fails_of (by decide) rfl))
  refine runs_bind (runs_modify (runs_pure ⟨hop.symm, ?_⟩))
  refine ⟨rfl, rfl, rfl, rfl, hheight, rfl, fun op hopAt hvalid => ?_⟩
  rw [hop] at hopAt
  rw [hopAt] at hargs hlen hgas hbytes ⊢
  constructor
  · exact hargs
  · show _ ≤ l.length
    omega
  · exact hbytes
  · exact h.ioGas
  · exact hgas
  · intro hm hcharged
    exact tierGas_charged hm hcharged
  · intro hm
    exact tierGas_small hm.priced stray hvalid
  · rfl

end Fetch

section Step

/-- The instruction is a jump that is taken. -/
def Jumps (s : VM W) : Prop :=
  opAt s = some .JUMP ∨ opAt s = some .JUMPI ∧ s.spp[1]? ≠ some 0

/-- What holds after an instruction; `b` tells whether the machine goes on. -/
structure Stepped (face : ExtVMFace W) (s : VM W) (b : Bool) (t : VM W) : Prop where
  height : t.spp.length ≤ 1024
  paid : Metered face → t.ioGas ≤ s.ioGas
  sound : b = true → Sound face t
  charged : b = true → Metered face → t.ioGas < s.ioGas
  jump : b = true → Jumps s → t.pc < face.code.length

/-- An instruction that goes on is not in the padding. -/
theorem Sound.pc_lt (h : Sound face s) {op : Instruction} (hop : opAt s = some op)
    (hne : op ≠ .STOP) : s.pc < face.code.length := by
  by_contra hle
  obtain ⟨hbyte, hzero⟩ := h.byte (List.getElem?_eq_getElem h.pc)
  rw [hzero (by omega), hop] at hbyte
  exact hne (Option.some.inj hbyte)

theorem Sound.lands (h : Sound face s) {u : VM W} {op : Instruction} (hf : Fetch face s t)
    (hop : opAt s = some op) (hlands : Lands op t u) :
    u.pc < face.code.length + 33 ∧ (Jumps s → u.pc < face.code.length) := by
  have hdest : u.pc ∈ t.jumpDests → u.pc < face.code.length := by
    intro hmem
    rw [hf.jumpDests] at hmem
    exact h.jumpDests _ hmem
  have hin : op ≠ .STOP → s.pc < face.code.length := h.pc_lt hop
  have hpc := hf.pc
  unfold Jumps
  rw [hop]
  cases op with
  | STOP => exact hlands.elim
  | JUMP =>
    have hlt := hdest hlands
    exact ⟨by omega, fun _ => hlt⟩
  | JUMPI =>
    have hlt := hin (by decide)
    by_cases hzero : t.sp[1]? = some 0
    · rw [Lands, if_pos hzero] at hlands
      rw [hf.sp] at hzero
      refine ⟨by omega, fun hjump => ?_⟩
      rcases hjump with hjump | hjump
      · cases hjump
      · exact absurd hzero hjump.2
    · rw [Lands, if_neg hzero] at hlands
      have hd := hdest hlands
      exact ⟨by omega, fun _ => hd⟩
  | PUSH n =>
    have hlt := hin (by simp)
    have hnext : u.pc = t.pc + n.val + 2 := hlands
    exact ⟨by omega, by simp⟩
  | _ =>
    have hlt := hin (by simp)
    have hnext : u.pc = t.pc + 1 := hlands
    exact ⟨by omega, by simp⟩

theorem Sound.goes (h : Sound face s) {u : VM W} {op : Instruction} (hf : Fetch face s t)
    (hop : opAt s = some op) (hg : Goes face op t u) : Stepped face s true u := by
  obtain ⟨hpc, hjump⟩ := h.lands hf hop hg.lands
  have hcode : u.code = s.code := hg.kept.code.trans hf.code
  have hdests : u.jumpDests = s.jumpDests := hg.kept.jumpDests.trans hf.jumpDests
  have hheight : u.spp.length ≤ 1024 := hg.kept.height.trans_le hf.height
  have hpaid (hm : Metered face) : u.ioGas < s.ioGas := hf.ioGas ▸ hg.paid hm
  refine ⟨hheight, fun hm => (hpaid hm).le, fun _ => ?_, fun _ => hpaid, fun _ => hjump⟩
  constructor
  · rw [hcode]
    exact h.code
  · rw [hcode]
    exact h.padding
  · rw [hdests]
    exact h.jumpDests
  · rw [hcode, h.code]
    exact hpc
  · exact hheight
  · exact hg.kept.ioGas

theorem interpretCase_invalid {op : Option Instruction} (h : isValidInstruction op = false) :
    interpretCase sha3 face op = throw .BadInstruction := by
  cases op with
  | none => rfl
  | some op =>
    cases op with
    | BAD => rfl
    | _ => exact Bool.noConfusion (show true = false from h)

theorem Fails.of_fetch {e : VMException} {u : VM W} (hf : Fetch face s t) (h : Fails t e u) :
    Fails s e u := ⟨h.1, h.2.trans hf.ioGas.le⟩

/-- An instruction that goes on, and the end of a run, with the machine that has fetched. -/
theorem Sound.run_step (h : Sound face s) (sha3 : Bytes → H256) (stray : UInt32) :
    Runs (VM.step sha3 face stray) s (fun b t => ∃ op u, opAt s = some op ∧ Fetch face s u ∧
      (b = true ∧ Goes face op u t ∨ b = false ∧ Kept u t ∧ t.ioGas ≤ u.ioGas)) (Fails s) := by
  unfold VM.step
  refine runs_bind (h.fetch.imp fun op t hfetch => ?_)
  obtain ⟨rfl, hf⟩ := hfetch
  by_cases hvalid : isValidInstruction (opAt s) = true
  · obtain ⟨op, hop⟩ : ∃ op, opAt s = some op := by
      cases hcase : opAt s with
      | none =>
        rw [hcase] at hvalid
        cases hvalid
      | some op => exact ⟨op, rfl⟩
    rw [hop] at hvalid ⊢
    have hfetched := hf.fetched op hop hvalid
    have hgoes : ∀ u, Goes face op t u → ∃ op' u', some op = some op' ∧ Fetch face s u' ∧
        (true = true ∧ Goes face op' u' u ∨ true = false ∧ Kept u' u ∧ u.ioGas ≤ u'.ioGas) :=
      fun u hg => ⟨op, t, rfl, hf, Or.inl ⟨rfl, hg⟩⟩
    refine runs_bind (hfetched.interpretCase.mono (fun bounce u hb => ?_) fun e u he => he.of_fetch hf)
    cases bounce with
    | interpretCases => exact runs_pure (hgoes u hb)
    | caseCreate =>
      obtain ⟨rfl, rfl⟩ := hb
      exact runs_bind (hfetched.caseCreate.mono (fun _ v hg => runs_pure (hgoes v hg))
        fun e v he => he.of_fetch hf)
    | caseCall =>
      obtain ⟨rfl, hcall⟩ := hb
      exact runs_bind ((hfetched.caseCall hcall).mono (fun _ v hg => runs_pure (hgoes v hg))
        fun e v he => he.of_fetch hf)
    | stop => exact runs_pure ⟨op, t, rfl, hf, Or.inr ⟨rfl, hb⟩⟩
  · rw [interpretCase_invalid (Bool.not_eq_true _ ▸ hvalid)]
    exact runs_bind (runs_throw ⟨by decide, hf.ioGas.le⟩)

theorem Sound.step (h : Sound face s) (sha3 : Bytes → H256) (stray : UInt32) :
    Runs (step sha3 face stray) s (Stepped face s) (Fails s) := by
  refine (h.run_step sha3 stray).imp fun b t hstep => ?_
  obtain ⟨op, u, hop, hf, ⟨rfl, hg⟩ | ⟨rfl, hkept, hgas⟩⟩ := hstep
  · exact h.goes hf hop hg
  · refine ⟨hkept.height.trans_le hf.height, fun _ => hf.ioGas ▸ hgas, ?_, ?_, ?_⟩ <;>
      exact fun hgoes => absurd hgoes (by decide)

end Step

section Runs

theorem reaches_sound {gas : Word} {ext : W}
    (h : Reaches (step sha3 face stray) (initEntry face gas ext) s) : Sound face s :=
  h.invariant (fun _ hs => (hs.step sha3 stray).imp fun _ _ ht => ht.sound) (initEntry_sound face gas ext)

/-- The gas falls with every instruction, so the fuel of one step for each unit is
enough. -/
theorem exec_some (hm : Metered face) (sha3 : Bytes → H256) (stray : UInt32) (gas : Word)
    (ext : W) : ∃ r, exec sha3 face stray (gas.toNat + 1) gas ext = some r := by
  have hpays : ∀ s, Sound face s → Runs (step sha3 face stray) s
      (fun b t => b = true → Sound face t ∧ t.ioGas < s.ioGas) (Fails s) := fun s hs =>
    (hs.step sha3 stray).imp fun b t ht hb => ⟨ht.sound hb, ht.charged hb hm⟩
  exact runFor_terminates VM.ioGas hpays (initEntry_sound face gas ext)
    (Nat.lt_succ_of_le (Nat.mod_le _ _))

theorem reaches_ioGas_le (hm : Metered face) {gas : Word} {ext : W}
    (h : Reaches (step sha3 face stray) (initEntry face gas ext) s) : s.ioGas ≤ gas.toNat := by
  have hstep : ∀ s, (Sound face s ∧ s.ioGas ≤ gas.toNat) → Runs (step sha3 face stray) s
      (fun b t => b = true → Sound face t ∧ t.ioGas ≤ gas.toNat) (Fails s) := fun s hs =>
    (hs.1.step sha3 stray).imp fun b t ht hb => ⟨ht.sound hb, (ht.paid hm).trans hs.2⟩
  exact (h.invariant hstep ⟨initEntry_sound face gas ext, Nat.mod_le _ _⟩).2

/-- The machine that a run leaves has no more gas than there was. -/
theorem exec_ioGas_le (hm : Metered face) {fuel : ℕ} {gas : Word} {ext : W}
    {r : EStateM.Result VMException (VM W) Unit} (h : exec sha3 face stray fuel gas ext = some r) :
    (∀ vm, r = .ok () vm → vm.ioGas ≤ gas.toNat) ∧ ∀ x vm, r = .error x vm → vm.ioGas ≤ gas.toNat := by
  obtain ⟨s', hs, hend⟩ := runFor_end .start h
  have hle := reaches_ioGas_le hm hs
  have hstep := (reaches_sound hs).step sha3 stray
  constructor
  · rintro vm rfl
    rcases hend with ⟨t, ht, heq⟩ | ⟨x, t, -, heq⟩
    · obtain rfl : vm = t := by cases heq; rfl
      exact ((hstep.ok ht).paid hm).trans hle
    · cases heq
  · rintro x vm rfl
    rcases hend with ⟨t, -, heq⟩ | ⟨y, t, ht, heq⟩
    · cases heq
    · obtain rfl : vm = t := by cases heq; rfl
      exact (hstep.error ht).2.trans hle

/-- Every instruction pays, so a run ends. -/
theorem exec_halts (sha3 : Bytes → H256) (face : ExtVMFace W)
    (hschedule : face.evmSchedule ∈ schedules)
    (hcreate : ∀ ext endowment gas init, (face.create ext endowment gas init).2.1 ≤ gas)
    (hcall : ∀ ext params, (face.call ext params).2.2.1 ≤ params.gas) (stray : UInt32)
    (gas : Word) (ext : W) :
    (∀ s, Reaches (step sha3 face stray) (initEntry face gas ext) s →
      (∀ t, step sha3 face stray s = .ok true t → t.ioGas < s.ioGas) ∧
      (∀ t, step sha3 face stray s = .ok false t → t.ioGas ≤ s.ioGas) ∧
      ∀ e t, step sha3 face stray s = .error e t → t.ioGas ≤ s.ioGas) ∧
    ∃ r, exec sha3 face stray (gas.toNat + 1) gas ext = some r := by
  have hm : Metered face := ⟨priced_of_mem hschedule, hcreate, hcall⟩
  constructor
  · intro s hs
    have hstep := (reaches_sound hs).step sha3 stray
    constructor
    · intro t ht
      exact (hstep.ok ht).charged rfl hm
    · constructor
      · intro t ht
        exact (hstep.ok ht).paid hm
      · intro e t ht
        exact (hstep.error ht).2
  · exact exec_some hm sha3 stray gas ext

/-- A world without state, in which calls and creations only give their gas back. -/
def stillFace (code : Bytes) (hcode : code.length < 2 ^ 64) : ExtVMFace Unit where
  evmSchedule := MetropolisSchedule
  myAddress := 1
  caller := 2
  origin := 2
  value := 0
  gasPrice := 1
  data := []
  code := code
  depth := 0
  author := 3
  timestamp := 0
  number := 0
  difficulty := 0
  gasLimit := 1000000
  balance := fun _ _ => 0
  existsAccount := fun _ _ => false
  codeAt := fun _ _ => []
  codeSizeAt := fun _ _ => 0
  blockHash := fun _ _ => 0
  store := fun _ _ => 0
  setStore := fun _ _ _ => ()
  suicide := fun _ _ => ()
  log := fun _ _ _ => ()
  addRefunds := fun _ _ => ()
  create := fun _ _ gas _ => (0, gas, ())
  call := fun _ params => (true, [], params.gas, ())
  size_data := by norm_num
  size_code := hcode
  size_codeAt := fun _ _ => by norm_num

/-- A loop: `JUMPDEST`, `PUSH1 0`, `JUMP`. -/
theorem exec_halts_loop :
    ∃ r, exec (fun _ => H256.ofNat 0) (stillFace [0x5b, 0x60, 0x00, 0x56] (by decide)) 0 1001 1000
      () = some r :=
  (exec_halts (fun _ => H256.ofNat 0) (stillFace [0x5b, 0x60, 0x00, 0x56] (by decide))
    (by simp [schedules, stillFace]) (fun _ _ _ _ => BitVec.le_refl _)
    (fun _ _ => BitVec.le_refl _) 0 1000 ()).2

/-- Every access of the next instruction is in range, the stack stays within its bounds
and a jump that is taken stays in the code. -/
structure InRange (sha3 : Bytes → H256) (face : ExtVMFace W) (stray : UInt32) (s : VM W) :
    Prop where
  access : ∀ t, step sha3 face stray s ≠ .error .outOfBounds t
  tier : (instructionInfo (opAt s)).gasPriceTier.index < face.evmSchedule.tierStepGas.size
  heightBefore : s.spp.length ≤ 1024
  heightAfter : ∀ b t, step sha3 face stray s = .ok b t → t.spp.length ≤ 1024
  jump : ∀ t, step sha3 face stray s = .ok true t → Jumps s → t.pc < face.code.length

theorem index_lt_iff (tier : Tier) : tier.index < 8 ↔ tier ≠ .Invalid := by
  cases tier <;> decide

/-- The accesses are in range exactly for the bytes of the table of instructions. -/
theorem exec_inRange (sha3 : Bytes → H256) (face : ExtVMFace W) (stray : UInt32) (gas : Word)
    (ext : W) (s : VM W) (h : Reaches (step sha3 face stray) (initEntry face gas ext) s) :
    InRange sha3 face stray s ↔ isValidInstruction (opAt s) = true := by
  have hs := reaches_sound h
  have hstep := hs.step sha3 stray
  constructor
  · intro hrange
    have htier := (index_lt_iff _).mp hrange.tier
    rwa [ne_eq, gasPriceTier_invalid_iff, Bool.not_eq_false] at htier
  · intro hvalid
    constructor
    · intro t ht
      exact (hstep.error ht).1 rfl
    · refine (index_lt_iff _).mpr ?_
      rwa [ne_eq, gasPriceTier_invalid_iff, Bool.not_eq_false]
    · exact hs.height
    · intro b t ht
      exact (hstep.ok ht).height
    · intro t ht
      exact (hstep.ok ht).jump rfl

theorem exec_inRange_push : InRange (fun _ => H256.ofNat 0)
    (stillFace [0x60, 0x01] (by decide)) 0 (initEntry (stillFace [0x60, 0x01] (by decide)) 1000 ()) :=
  (exec_inRange (fun _ => H256.ofNat 0) (stillFace [0x60, 0x01] (by decide)) 0 1000 () _
    .start).mpr (by decide)

/-- The byte 0x0c is no instruction: its tier is read behind the end of the prices. -/
theorem tier_out_of_range : ¬ ∀ s, Reaches (step (fun _ => H256.ofNat 0)
    (stillFace [0x0c] (by decide)) 0) (initEntry (stillFace [0x0c] (by decide)) 1000 ()) s →
    InRange (fun _ => H256.ofNat 0) (stillFace [0x0c] (by decide)) 0 s := by
  intro h
  have htier := (h _ .start).tier
  exact absurd htier (by decide)

end Runs

end VM
end XChain
