import XChain.VMFetch
import XChain.VMOpt

/-!
# Runs of the optimized code

Between instructions the machine is at a place of the scan, and behind a push of a
constant the constant is on top of the stack. There the build that optimizes does the
same as the other one, unless a push that has moved to the pool is done whose index is
not the number of its bytes, or a `JUMPI` to a constant is done: `PUSHC` adds the index
to the program counter instead of the number of bytes, and `JUMPCI` leaves the condition
on the stack.
-/
namespace XChain
namespace VM

open Machine

variable {W : Type} {sha3 : Bytes → H256} {face : ExtVMFace W} {stray : UInt32} {s t u : VM W}

section Cases

theorem shiftIn_zero (b : UInt8) : shiftIn 0 b = BitVec.ofNat 256 b.toNat := by
  show (0#256 <<< 8) ||| BitVec.ofNat 256 b.toNat = _
  rw [BitVec.zero_shiftLeft, BitVec.zero_or]

/-- The bytes of a push end up in the top of the stack. -/
theorem pushLoop_ok {n : ℕ} {w : Word} {rest : List Word} (hspp : s.spp = w :: rest)
    (hpc : s.pc + n ≤ s.code.length) :
    (pushLoop n : Exec W Unit) s = .ok () { s with
      pc := s.pc + n
      spp := ((s.code.drop s.pc).take n).foldl shiftIn w :: rest } := by
  induction n generalizing s w with
  | zero =>
    rw [List.take_zero, List.foldl_nil, ← hspp]
    rfl
  | succ n ih =>
    have hlt : s.pc < s.code.length := by omega
    have hbyte : s.code[s.pc]? = some s.code[s.pc] := List.getElem?_eq_getElem hlt
    unfold pushLoop
    rw [bind_ok (top_ok hspp), get_bind, bind_ok (codeByte_ok hbyte), bind_ok (setTop_ok hspp),
      modify_bind, ih rfl (show s.pc + 1 + n ≤ s.code.length by omega)]
    rw [List.drop_eq_getElem_cons hlt, List.take_succ_cons, List.foldl_cons,
      show s.pc + (n + 1) = s.pc + 1 + n by omega]
    rfl

theorem pushCase_ok {n : Fin 32} {w : Word} {rest : List Word} (hspp : s.spp = w :: rest)
    (hpc : s.pc + n.val + 1 < s.code.length) (hgas : s.runGas ≤ s.ioGas) :
    (pushCase n : Exec W Bounce) s = .ok .interpretCases { s with
      ioGas := s.ioGas - s.runGas
      pc := s.pc + n.val + 2
      spp := pushedVal ((s.code.drop (s.pc + 1)).take (n.val + 1)) :: rest } := by
  have hlt : s.pc + 1 < s.code.length := by omega
  have hbyte : s.code[s.pc + 1]? = some s.code[s.pc + 1] := List.getElem?_eq_getElem hlt
  -- The paid machine at its first byte.
  obtain ⟨t, ht⟩ : ∃ t : VM W, t = { s with ioGas := s.ioGas - s.runGas, pc := s.pc + 1 } := ⟨_, rfl⟩
  have hspp' : t.spp = w :: rest := by rw [ht, ← hspp]
  have hbyte' : t.code[t.pc]? = some s.code[s.pc + 1] := by rw [ht, ← hbyte]
  unfold pushCase
  rw [bind_ok (updateIOGas_ok hgas)]
  by_cases hn : n = 0
  · subst hn
    rw [if_pos rfl, modify_bind, get_bind, ← ht, bind_ok (codeByte_ok hbyte'),
      bind_ok (setTop_ok hspp'), ht, List.drop_eq_getElem_cons hlt]
    rfl
  · rw [if_neg hn]
    have hspp'' : ({ s with ioGas := s.ioGas - s.runGas } : VM W).spp = w :: rest := hspp
    rw [bind_ok (setTop_ok hspp''), modify_bind,
      bind_ok (pushLoop_ok rfl (show s.pc + 1 + (n.val + 1) ≤ s.code.length by omega))]
    dsimp only
    rw [List.drop_eq_getElem_cons hlt, List.take_succ_cons, List.foldl_cons, pushedVal, shiftIn_zero,
      show s.pc + 1 + (n.val + 1) = s.pc + n.val + 2 by omega]
    rfl

/-- `PUSHC` goes on behind as many bytes as its index says. -/
theorem pushc_ok {pool : hash256} {b : UInt8} {w : Word} {rest : List Word}
    (hspp : s.spp = w :: rest) (hb : s.code[s.pc + 1]? = some b) (hgas : s.runGas ≤ s.ioGas) :
    (pushc pool : Exec W Bounce) s = .ok .interpretCases { s with
      ioGas := s.ioGas - s.runGas
      pc := s.pc + 1 + b.toNat
      spp := pool.table b :: rest } := by
  obtain ⟨t, ht⟩ : ∃ t : VM W, t = { s with ioGas := s.ioGas - s.runGas, pc := s.pc + 1 } := ⟨_, rfl⟩
  have hspp' : t.spp = w :: rest := by rw [ht, ← hspp]
  have hb' : t.code[t.pc]? = some b := by rw [ht, ← hb]
  have hb'' : ({ t with spp := pool.table b :: rest } : VM W).code[t.pc]? = some b := hb'
  unfold pushc
  rw [bind_ok (updateIOGas_ok hgas), modify_bind, get_bind, ← ht, bind_ok (codeByte_ok hb'),
    bind_ok (setTop_ok hspp'), bind_ok (codeByte_ok hb''), ht]
  rfl

theorem isJumpDest_le {dests : List ℕ} {a : Word} (h : isJumpDest dests a = true) :
    a.toNat ≤ maxInt63 := by
  rw [isJumpDest, Bool.and_eq_true, decide_eq_true_iff] at h
  exact h.1

theorem verifyJumpDest_ok {a : Word} (h : isJumpDest s.jumpDests a = true) :
    (verifyJumpDest a : Exec W ℕ) s = .ok a.toNat s := by
  rw [isJumpDest, Bool.and_eq_true, decide_eq_true_iff] at h
  unfold verifyJumpDest
  rw [get_bind, if_pos h]
  rfl

theorem jump_ok {a : Word} (ha : s.sp[0]? = some a) (hdest : isJumpDest s.jumpDests a = true)
    (hgas : s.runGas ≤ s.ioGas) :
    (jump : Exec W Bounce) s = .ok .interpretCases { s with
      ioGas := s.ioGas - s.runGas
      pc := a.toNat } := by
  obtain ⟨t, ht⟩ : ∃ t : VM W, t = { s with ioGas := s.ioGas - s.runGas } := ⟨_, rfl⟩
  have ha' : t.sp[0]? = some a := by rw [ht, ← ha]
  have hdest' : isJumpDest t.jumpDests a = true := by rw [ht, ← hdest]
  unfold jump
  rw [bind_ok (updateIOGas_ok hgas), ← ht, bind_ok (item_ok ha'), bind_ok (verifyJumpDest_ok hdest'),
    modify_bind, ht]
  rfl

theorem u64_of_jumpDest {dests : List ℕ} {a : Word} (h : isJumpDest dests a = true) :
    u64 a.toNat = a.toNat := by
  have hle := isJumpDest_le h
  unfold maxInt63 at hle
  exact u64_of_lt (by omega)

/-- The destination is not checked again. -/
theorem jumpc_ok {a : Word} (ha : s.sp[0]? = some a) (hgas : s.runGas ≤ s.ioGas) :
    (jumpc : Exec W Bounce) s = .ok .interpretCases { s with
      ioGas := s.ioGas - s.runGas
      pc := u64 a.toNat } := by
  obtain ⟨t, ht⟩ : ∃ t : VM W, t = { s with ioGas := s.ioGas - s.runGas } := ⟨_, rfl⟩
  have ha' : t.sp[0]? = some a := by rw [ht, ← ha]
  unfold jumpc
  rw [bind_ok (updateIOGas_ok hgas), ← ht, bind_ok (item_ok ha'), modify_bind, ht]
  rfl

theorem jumpi_ok {a w : Word} (ha : s.sp[0]? = some a) (hw : s.sp[1]? = some w)
    (hdest : isJumpDest s.jumpDests a = true) (hgas : s.runGas ≤ s.ioGas) :
    ∃ pc, (jumpi : Exec W Bounce) s = .ok .interpretCases { s with
      ioGas := s.ioGas - s.runGas
      pc := pc } := by
  obtain ⟨t, ht⟩ : ∃ t : VM W, t = { s with ioGas := s.ioGas - s.runGas } := ⟨_, rfl⟩
  have ha' : t.sp[0]? = some a := by rw [ht, ← ha]
  have hw' : t.sp[1]? = some w := by rw [ht, ← hw]
  have hdest' : isJumpDest t.jumpDests a = true := by rw [ht, ← hdest]
  unfold jumpi
  rw [bind_ok (updateIOGas_ok hgas), ← ht, bind_ok (item_ok hw')]
  by_cases hzero : w ≠ 0
  · refine ⟨a.toNat, ?_⟩
    rw [if_pos hzero, bind_ok (item_ok ha'), bind_ok (verifyJumpDest_ok hdest'), modify_bind, ht]
    rfl
  · refine ⟨s.pc + 1, ?_⟩
    rw [if_neg hzero, ht]
    rfl

theorem jumpci_ok {a w : Word} (ha : s.sp[0]? = some a) (hw : s.sp[1]? = some w)
    (hgas : s.runGas ≤ s.ioGas) :
    ∃ pc, (jumpci : Exec W Bounce) s = .ok .interpretCases { s with
      ioGas := s.ioGas - s.runGas
      pc := pc } := by
  obtain ⟨t, ht⟩ : ∃ t : VM W, t = { s with ioGas := s.ioGas - s.runGas } := ⟨_, rfl⟩
  have ha' : t.sp[0]? = some a := by rw [ht, ← ha]
  have hw' : t.sp[1]? = some w := by rw [ht, ← hw]
  unfold jumpci
  rw [bind_ok (updateIOGas_ok hgas), ← ht, bind_ok (item_ok hw')]
  by_cases hzero : w ≠ 0
  · refine ⟨u64 a.toNat, ?_⟩
    rw [if_pos hzero, bind_ok (item_ok ha'), modify_bind, ht]
    rfl
  · refine ⟨s.pc + 1, ?_⟩
    rw [if_neg hzero, ht]
    rfl

end Cases

section Tracked

/-- How many bytes an instruction pushes. -/
def pushes : Option Instruction → ℕ
  | some (.PUSH n) => n.val + 1
  | _ => 0

theorem byte_table : ∀ i : Fin 256, nPush (UInt8.ofNat i.val) =
    pushes (Instruction.ofByte (UInt8.ofNat i.val)) ∧
    (Instruction.ofByte (UInt8.ofNat i.val) = some .PUSHC ∨
      Instruction.ofByte (UInt8.ofNat i.val) = some .JUMPC ∨
      Instruction.ofByte (UInt8.ofNat i.val) = some .JUMPCI →
      UInt8.ofNat i.val = 0xac ∨ UInt8.ofNat i.val = 0xad ∨ UInt8.ofNat i.val = 0xae) := by
  decide +kernel

theorem nPush_eq (b : UInt8) : nPush b = pushes (Instruction.ofByte b) := by
  have h := (byte_table ⟨b.toNat, b.toNat_lt⟩).1
  rwa [UInt8.ofNat_toNat] at h

theorem synthetic_of_ofByte {b : UInt8} (h : Instruction.ofByte b = some .PUSHC ∨
    Instruction.ofByte b = some .JUMPC ∨ Instruction.ofByte b = some .JUMPCI) : Synthetic b := by
  have hb := (byte_table ⟨b.toNat, b.toNat_lt⟩).2
  rw [UInt8.ofNat_toNat] at hb
  exact hb h

theorem push_of_pos {b : UInt8} (h : 0 < nPush b) :
    ∃ n, Instruction.ofByte b = some (.PUSH n) ∧ nPush b = n.val + 1 := by
  rw [nPush_eq] at h ⊢
  unfold pushes at h ⊢
  split at h
  · exact ⟨_, ‹_›, rfl⟩
  · omega

/-- What holds of the machine between two instructions, besides what is in range. -/
structure Tracked (face : ExtVMFace W) (s : VM W) : Prop where
  sound : Sound face s
  code : s.code = (optimize face.code).1
  jumpDests : s.jumpDests = (optimize face.code).2
  scan : Scan s.code face.code.length 0 s.pc
  pushed : ∀ p < face.code.length, Scan s.code face.code.length 0 p → 0 < nPush (s.code.getD p 0) →
    after s.code p = s.pc → s.code.getD s.pc 0 ≠ 0x5b →
    s.spp[0]? = some (pushedVal (dataAt s.code p))

theorem initEntry_tracked (face : ExtVMFace W) (gas : Word) (ext : W) :
    Tracked face (initEntry face gas ext) := by
  refine ⟨initEntry_sound face gas ext, rfl, rfl, .here 0, fun p _ _ _ hafter _ => ?_⟩
  have hlt := lt_after (initEntry face gas ext).code p
  rw [hafter] at hlt
  exact absurd hlt (Nat.not_lt_zero p)

/-- An instruction that goes on is followed by the next one of the scan or by a jump
destination. -/
theorem Goes.after {op : Instruction} (h : Goes face op s t) :
    t.pc ∈ s.jumpDests ∨ t.pc = s.pc + 1 + pushes (some op) := by
  have hlands := h.lands
  cases op with
  | STOP => exact hlands.elim
  | JUMP => exact Or.inl hlands
  | JUMPI =>
    unfold Lands at hlands
    dsimp only at hlands
    split_ifs at hlands
    · exact Or.inr hlands
    · exact Or.inl hlands
  | PUSH n =>
    right
    have hpc : t.pc = s.pc + n.val + 2 := hlands
    rw [hpc, pushes]
    omega
  | _ => exact Or.inr hlands

theorem Sound.fetch_eq (h : Sound face s) (stray : UInt32) :
    fetchInstruction face stray s = charge face stray (instructionInfo (opAt s)).args
      (instructionInfo (opAt s)).ret (instructionInfo (opAt s)).gasPriceTier (opAt s) s := by
  have hpc := h.pc
  have hbyte : s.code[s.pc]? = some s.code[s.pc] := List.getElem?_eq_getElem hpc
  rw [fetchInstruction_eq hbyte, (h.byte hbyte).1]

/-- The gas is enough for the price of a tier. -/
def Affords (face : ExtVMFace W) (stray : UInt32) (tier : Tier) (s : VM W) : Prop :=
  tierGas face stray tier ≤ maxInt63 ∧ tierGas face stray tier ≤ s.ioGas

/-- A case that begins with its payment, after the fetch: it throws the same whatever the
case and the code are, or it is done. -/
theorem charge_pay (face : ExtVMFace W) (stray : UInt32) (args ret : ℕ) (tier : Tier) (s : VM W) :
    (∃ e t, ¬ (args ≤ s.spp.length ∧ s.spp.length + ret ≤ 1024 + args ∧
        Affords face stray tier s) ∧
      ∀ c op (f : Option Instruction → Exec W Bool),
        (∀ u : VM W, u.ioGas < u.runGas → f op u = .error .OutOfGas u) →
        (charge face stray args ret tier op >>= f) (withCode c s) = .error e (withCode c t)) ∨
    (args ≤ s.spp.length ∧ s.spp.length + ret ≤ 1024 + args ∧ Affords face stray tier s ∧
      ∀ c op (f : Option Instruction → Exec W Bool),
        (charge face stray args ret tier op >>= f) (withCode c s) =
          f op (withCode c (charged face stray args ret tier s))) := by
  rcases charge_cases face stray args ret tier s with
    ⟨e, t, -, -, hno, herror⟩ | ⟨hargs, hroom, hprice, hok⟩
  · refine Or.inl ⟨e, t, fun hall => hno ⟨hall.1, hall.2.1, hall.2.2.1⟩, fun c op f _ => bind_error ?_⟩
    rw [blind_charge, herror op]
    rfl
  · have hcharge : ∀ c op, charge face stray args ret tier op (withCode c s) =
        .ok op (withCode c (charged face stray args ret tier s)) := by
      intro c op
      rw [blind_charge, hok op]
      rfl
    by_cases hpay : tierGas face stray tier ≤ s.ioGas
    · exact Or.inr ⟨hargs, hroom, ⟨hprice, hpay⟩, fun c op f => bind_ok (hcharge c op)⟩
    · refine Or.inl ⟨.OutOfGas, charged face stray args ret tier s, fun hall => hpay hall.2.2.2,
        fun c op f hf => ?_⟩
      rw [bind_ok (hcharge c op)]
      exact hf _ (Nat.not_le.mp hpay)

theorem pay_error {α : Type} {f : Unit → Exec W Bounce} {g : Bounce → Exec W α}
    (h : u.ioGas < u.runGas) : ((updateIOGas >>= f) >>= g) u = .error .OutOfGas u :=
  bind_error (bind_error (updateIOGas_error h))

theorem Sound.step_eq (h : Sound face s) (sha3 : Bytes → H256) (stray : UInt32) :
    VM.step sha3 face stray s = (charge face stray (instructionInfo (opAt s)).args
      (instructionInfo (opAt s)).ret (instructionInfo (opAt s)).gasPriceTier (opAt s) >>=
        fun op => interpretCase sha3 face op >>= trampoline face op) s :=
  bind_congr (h.fetch_eq stray)

theorem stepOptimized_eq {pool : hash256} {opt : Bytes} {b : UInt8} (hb : opt[s.pc]? = some b) :
    stepOptimized sha3 face pool stray (withCode opt s) =
      (charge face stray (instructionInfo (Instruction.ofByte b)).args
        (instructionInfo (Instruction.ofByte b)).ret
        (instructionInfo (Instruction.ofByte b)).gasPriceTier (Instruction.ofByte b) >>=
          fun op => interpretOptimized sha3 face pool op >>= trampoline face op) (withCode opt s) :=
  bind_congr (fetchInstruction_eq hb)

theorem Sound.dataAt_push (h : Sound face s) {n : Fin 32} (hop : opAt s = some (.PUSH n)) :
    s.pc + n.val + 1 < s.code.length ∧
      dataAt s.code s.pc = (s.code.drop (s.pc + 1)).take (n.val + 1) := by
  constructor
  · have hbytes := h.bytes
    rw [hop] at hbytes
    exact hbytes
  · rw [dataAt, nPush_eq, show Instruction.ofByte (s.code.getD s.pc 0) = some (.PUSH n) from hop]
    rfl

/-- A push that goes on does so behind its bytes, with their value on top of the stack. -/
theorem step_push (h : Sound face s) {n : Fin 32} (hop : opAt s = some (.PUSH n))
    (hgo : step sha3 face stray s = .ok true t) :
    t.spp = pushedVal (dataAt s.code s.pc) :: s.spp := by
  obtain ⟨hpc, hdata⟩ := h.dataAt_push hop
  rw [h.step_eq, hop] at hgo
  change (charge face stray 0 1 .VeryLow _ >>= _) (withCode s.code s) = _ at hgo
  rcases charge_pay face stray 0 1 .VeryLow s with
    ⟨e, v, -, herror⟩ | ⟨-, -, hafford, hok⟩
  · rw [herror _ _ _ fun u hu => pay_error hu] at hgo
    cases hgo
  · have hcase : interpretCase sha3 face (some (.PUSH n)) (charged face stray 0 1 .VeryLow s) = _ :=
      pushCase_ok rfl hpc hafford.2
    rw [hok] at hgo
    have hend := (bind_ok hcase).symm.trans hgo
    obtain rfl := (EStateM.Result.ok.inj hend).2
    exact congrArg (fun d => pushedVal d :: s.spp) hdata.symm

theorem Tracked.next (h : Tracked face s) (hgo : step sha3 face stray s = .ok true t) :
    Tracked face t := by
  obtain ⟨op, u, hop, hf, ⟨-, hg⟩ | ⟨hend, -⟩⟩ := (h.sound.run_step sha3 stray).ok hgo
  swap
  · cases hend
  have hcode : t.code = s.code := hg.kept.code.trans hf.code
  have hdests : t.jumpDests = s.jumpDests := hg.kept.jumpDests.trans hf.jumpDests
  have hne : op ≠ .STOP := by
    rintro rfl
    exact hg.lands
  have hlt := h.sound.pc_lt hop hne
  -- Where the machine is now: at a jump destination or behind the instruction.
  have hplace : (Scan s.code face.code.length 0 t.pc ∧ s.code.getD t.pc 0 = 0x5b) ∨
      t.pc = after s.code s.pc := by
    rcases hg.after with hdest | hnext
    · rw [hf.jumpDests, h.jumpDests] at hdest
      rcases (optimize_collected face.code).dests _ hdest with hnone | hscan
      · cases hnone
      · left
        rw [h.code]
        exact hscan
    · right
      rw [hnext, hf.pc, after, nPush_eq, ← hop]
      rfl
  constructor
  · exact ((h.sound.step sha3 stray).ok hgo).sound rfl
  · rw [hcode, h.code]
  · rw [hdests, h.jumpDests]
  · rw [hcode]
    rcases hplace with ⟨hscan, -⟩ | hnext
    · exact hscan
    · rw [hnext]
      exact h.scan.next hlt
  · rw [hcode]
    intro p _ hscan hpush hafter hne'
    rcases hplace with ⟨-, hdest⟩ | hnext
    · exact absurd hdest hne'
    · obtain rfl := hscan.eq_of_after h.scan (hafter.trans hnext)
      obtain ⟨n, hn, -⟩ := push_of_pos hpush
      rw [step_push h.sound hn hgo]
      rfl

theorem reaches_tracked {gas : Word} {ext : W}
    (h : Reaches (step sha3 face stray) (initEntry face gas ext) s) : Tracked face s := by
  induction h with
  | start => exact initEntry_tracked face gas ext
  | next _ hgo ih => exact ih.next hgo

end Tracked

section Steps

/-- Where the machine is, and its stack. -/
def located (s : VM W) : ℕ × List Word := (s.pc, s.spp)

/-- A push that has moved to the pool and is done has the number of its bytes for its
index, and a `JUMPI` that has become `JUMPCI` runs out of gas. -/
structure Fits (face : ExtVMFace W) (stray : UInt32) (s : VM W) : Prop where
  push : (firstPass face.code).1.getD s.pc 0 = 0xac → s.spp.length < 1024 →
    Affords face stray .VeryLow s →
    (poolIndex (dataAt s.code s.pc)).toNat = nPush (s.code.getD s.pc 0)
  jumpi : (firstPass face.code).1.getD s.pc 0 = 0xae → 2 ≤ s.spp.length ∧ ¬ Affords face stray .High s

variable {pool : hash256} {opt : Bytes}

theorem getElem?_of_getD {opt opt' : Bytes} (hlen : opt'.length = opt.length) {i : ℕ}
    (h : opt'.getD i 0 = opt.getD i 0) : opt'[i]? = opt[i]? := by
  by_cases hi : i < opt.length
  · have hi' : i < opt'.length := by omega
    rw [List.getD_eq_getElem?_getD, List.getD_eq_getElem?_getD, List.getElem?_eq_getElem hi,
      List.getElem?_eq_getElem hi'] at h
    rw [List.getElem?_eq_getElem hi, List.getElem?_eq_getElem hi']
    exact congrArg some h
  · rw [List.getElem?_eq_none (by omega), List.getElem?_eq_none (by omega)]

theorem getElem?_getD {opt : Bytes} {i : ℕ} (hi : i < opt.length) : opt[i]? = some (opt.getD i 0) := by
  rw [List.getD_eq_getElem?_getD, List.getElem?_eq_getElem hi]
  rfl

theorem take_drop_congr {opt opt' : Bytes} (hlen : opt'.length = opt.length) {p k : ℕ}
    (h : ∀ i < k, opt'.getD (p + i) 0 = opt.getD (p + i) 0) :
    (opt'.drop p).take k = (opt.drop p).take k := by
  refine List.ext_getElem? fun i => ?_
  rw [List.getElem?_take, List.getElem?_take]
  split_ifs with hi
  · rw [List.getElem?_drop, List.getElem?_drop]
    exact getElem?_of_getD hlen (h i hi)
  · rfl

theorem Tracked.not_own (h : Tracked face s) :
    opAt s ≠ some .PUSHC ∧ opAt s ≠ some .JUMPC ∧ opAt s ≠ some .JUMPCI := by
  have hno : ¬ Synthetic (s.code.getD s.pc 0) := by
    by_cases hlt : s.pc < face.code.length
    · have hscan := h.scan
      rw [h.code] at hscan ⊢
      exact (optimize_collected face.code).places s.pc hlt hscan
    · rw [List.getD_eq_getElem?_getD, h.sound.padding s.pc (by omega) h.sound.pc]
      unfold Synthetic
      decide
  refine ⟨fun hop => hno (synthetic_of_ofByte (Or.inl hop)), fun hop => ?_, fun hop => ?_⟩
  · exact hno (synthetic_of_ofByte (Or.inr (Or.inl hop)))
  · exact hno (synthetic_of_ofByte (Or.inr (Or.inr hop)))

theorem interpretOptimized_of_not {op : Option Instruction}
    (h : op ≠ some .PUSHC ∧ op ≠ some .JUMPC ∧ op ≠ some .JUMPCI) :
    interpretOptimized sha3 face pool op = interpretCase sha3 face op := by
  cases op with
  | none => rfl
  | some op =>
    cases op with
    | PUSHC => exact absurd rfl h.1
    | JUMPC => exact absurd rfl h.2.1
    | JUMPCI => exact absurd rfl h.2.2
    | _ => rfl

/-- An instruction that the first pass has left as it was. -/
theorem Tracked.kept (h : Tracked face s) (hlen : opt.length = s.code.length)
    (hkept : ∀ i ≤ nPush (s.code.getD s.pc 0), opt.getD (s.pc + i) 0 = s.code.getD (s.pc + i) 0) :
    stepOptimized sha3 face pool stray (withCode opt s) =
      mapState (withCode opt) (VM.step sha3 face stray s) := by
  have hpc := h.sound.pc
  have hb : s.code[s.pc]? = some s.code[s.pc] := List.getElem?_eq_getElem hpc
  have hb' : opt[s.pc]? = some s.code[s.pc] :=
    (getElem?_of_getD hlen (hkept 0 (Nat.zero_le _))).trans hb
  rw [stepOptimized_eq hb', ← (h.sound.byte hb).1, h.sound.step_eq]
  by_cases hpush : ∃ n, opAt s = some (.PUSH n)
  · obtain ⟨n, hop⟩ := hpush
    obtain ⟨hbytes, hdata⟩ := h.sound.dataAt_push hop
    have hdata' : (opt.drop (s.pc + 1)).take (n.val + 1) = dataAt s.code s.pc := by
      rw [hdata]
      refine take_drop_congr hlen fun i hi => ?_
      rw [show s.pc + 1 + i = s.pc + (i + 1) by omega]
      refine hkept (i + 1) ?_
      rw [nPush_eq, show Instruction.ofByte (s.code.getD s.pc 0) = some (.PUSH n) from hop, pushes]
      omega
    rw [hop]
    change (charge face stray 0 1 .VeryLow _ >>= _) (withCode opt s) =
      mapState (withCode opt) ((charge face stray 0 1 .VeryLow _ >>= _) (withCode s.code s))
    rcases charge_pay face stray 0 1 .VeryLow s with
      ⟨e, v, -, herror⟩ | ⟨-, -, hafford, hok⟩
    · rw [herror _ _ _ fun u hu => pay_error hu, herror _ _ _ fun u hu => pay_error hu]
      rfl
    · rw [hok, hok]
      have hcase : interpretCase sha3 face (some (.PUSH n))
          (charged face stray 0 1 .VeryLow s) = _ := pushCase_ok rfl hbytes hafford.2
      have hcase' : interpretOptimized sha3 face pool (some (.PUSH n))
          (withCode opt (charged face stray 0 1 .VeryLow s)) = _ :=
        pushCase_ok rfl (hbytes.trans_le hlen.ge) hafford.2
      refine (bind_ok hcase').trans (Eq.trans ?_ (congrArg _ (bind_ok hcase)).symm)
      rw [show ((withCode opt (charged face stray 0 1 .VeryLow s)).code.drop
        ((withCode opt (charged face stray 0 1 .VeryLow s)).pc + 1)).take (n.val + 1) =
          ((charged face stray 0 1 .VeryLow s).code.drop
            ((charged face stray 0 1 .VeryLow s).pc + 1)).take (n.val + 1) from hdata'.trans hdata]
      rfl
  · have hblind : Blind (interpretCase sha3 face (opAt s) >>= trampoline face (opAt s)) :=
      (blind_interpretCase fun n hn => hpush ⟨n, hn⟩).bind fun bounce => blind_trampoline _ bounce
    have hcharge := (blind_charge : Blind (charge face stray (instructionInfo (opAt s)).args
      (instructionInfo (opAt s)).ret (instructionInfo (opAt s)).gasPriceTier (opAt s))) opt s
    rcases charge_cases face stray (instructionInfo (opAt s)).args (instructionInfo (opAt s)).ret
      (instructionInfo (opAt s)).gasPriceTier s with ⟨e, v, -, -, -, herror⟩ | ⟨-, -, -, hok⟩
    · rw [herror] at hcharge
      rw [bind_error hcharge, bind_error (herror _)]
      rfl
    · rw [hok] at hcharge
      rw [bind_ok hcharge, bind_ok (hok _), interpretOptimized_of_not h.not_own]
      exact hblind opt _

/-- A push that has moved to the pool: it throws the same, or goes on with the same value
behind as many bytes as its index says. -/
theorem Tracked.pooled (h : Tracked face s) (hlen : opt.length = s.code.length)
    (hsize : 1 < nPush (s.code.getD s.pc 0)) (hop : opt.getD s.pc 0 = 0xac)
    (hindex : opt.getD (s.pc + 1) 0 = poolIndex (dataAt s.code s.pc))
    (hval : pool.table (poolIndex (dataAt s.code s.pc)) = pushedVal (dataAt s.code s.pc))
    (sha3 : Bytes → H256) (stray : UInt32) :
    (¬ (s.spp.length < 1024 ∧ Affords face stray .VeryLow s) ∧
      ∃ e t, VM.step sha3 face stray s = .error e t ∧
        stepOptimized sha3 face pool stray (withCode opt s) = .error e (withCode opt t)) ∨
    (s.spp.length < 1024 ∧ Affords face stray .VeryLow s ∧ ∃ t : VM W,
      VM.step sha3 face stray s = .ok true t ∧ t.pc = s.pc + 1 + nPush (s.code.getD s.pc 0) ∧
      stepOptimized sha3 face pool stray (withCode opt s) = .ok true
        { withCode opt t with pc := s.pc + 1 + (poolIndex (dataAt s.code s.pc)).toNat }) := by
  obtain ⟨n, hpush, hn⟩ := push_of_pos (show 0 < nPush (s.code.getD s.pc 0) by omega)
  obtain ⟨hbytes, hdata⟩ := h.sound.dataAt_push hpush
  have hb : opt[s.pc]? = some 0xac := by
    rw [← hop]
    exact getElem?_getD (by omega)
  have hb' : opt[s.pc + 1]? = some (poolIndex (dataAt s.code s.pc)) := by
    rw [← hindex]
    exact getElem?_getD (by omega)
  rw [stepOptimized_eq hb, h.sound.step_eq, show opAt s = some (.PUSH n) from hpush]
  change (_ ∧ ∃ e t, (charge face stray 0 1 .VeryLow _ >>= _) (withCode s.code s) = _ ∧
    (charge face stray 0 1 .VeryLow _ >>= _) (withCode opt s) = _) ∨ (_ ∧ _ ∧ ∃ t : VM W,
      (charge face stray 0 1 .VeryLow _ >>= _) (withCode s.code s) = _ ∧ _ ∧
      (charge face stray 0 1 .VeryLow _ >>= _) (withCode opt s) = _)
  rcases charge_pay face stray 0 1 .VeryLow s with
    ⟨e, v, hno, herror⟩ | ⟨-, hroom, hafford, hok⟩
  · left
    refine ⟨fun hall => hno ⟨Nat.zero_le _, by omega, hall.2⟩, e, withCode s.code v, ?_, ?_⟩
    · exact herror _ _ _ fun u hu => pay_error hu
    · exact herror _ _ _ fun u hu => pay_error hu
  · right
    have hcase : interpretCase sha3 face (some (.PUSH n))
        (charged face stray 0 1 .VeryLow s) = _ := pushCase_ok rfl hbytes hafford.2
    have hcase' : interpretOptimized sha3 face pool (some .PUSHC)
        (withCode opt (charged face stray 0 1 .VeryLow s)) = _ := pushc_ok rfl hb' hafford.2
    refine ⟨by omega, hafford, _, (hok _ _ _).trans (bind_ok hcase), ?_, ?_⟩
    · show s.pc + n.val + 2 = _
      omega
    · refine (hok _ _ _).trans ((bind_ok hcase').trans ?_)
      rw [hval, hdata]
      rfl

/-- A jump to a constant that has been checked beforehand. -/
theorem Tracked.jump (h : Tracked face s) (hlen : opt.length = s.code.length) {val : Word}
    (hop : s.code.getD s.pc 0 = 0x56) (hop' : opt.getD s.pc 0 = 0xad)
    (hbefore : PushedBefore s.code s.jumpDests face.code.length s.pc val) :
    stepOptimized sha3 face pool stray (withCode opt s) =
      mapState (withCode opt) (VM.step sha3 face stray s) := by
  obtain ⟨p, hp, hscan, hpush, hafter, rfl, hdest⟩ := hbefore
  have htop := h.pushed p hp hscan hpush hafter (by rw [hop]; decide)
  have hpc := h.sound.pc
  have hb : opt[s.pc]? = some 0xad := by
    rw [← hop']
    exact getElem?_getD (by omega)
  have hat : opAt s = some .JUMP := by rw [opAt, hop]; rfl
  rw [stepOptimized_eq hb, h.sound.step_eq, hat]
  change (charge face stray 1 0 .Mid _ >>= _) (withCode opt s) =
    mapState (withCode opt) ((charge face stray 1 0 .Mid _ >>= _) (withCode s.code s))
  rcases charge_pay face stray 1 0 .Mid s with ⟨e, v, -, herror⟩ | ⟨-, -, hafford, hok⟩
  · rw [herror _ _ _ fun u hu => pay_error hu, herror _ _ _ fun u hu => pay_error hu]
    rfl
  · rw [hok, hok]
    have hcase : interpretCase sha3 face (some .JUMP) (charged face stray 1 0 .Mid s) = _ :=
      jump_ok htop hdest hafford.2
    have hcase' : interpretOptimized sha3 face pool (some .JUMPC)
        (withCode opt (charged face stray 1 0 .Mid s)) = _ := jumpc_ok htop hafford.2
    refine (bind_ok hcase').trans (Eq.trans ?_ (congrArg _ (bind_ok hcase)).symm)
    rw [u64_of_jumpDest hdest]
    rfl

/-- An instruction that cannot be paid. -/
theorem charge_broke {args ret : ℕ} {tier : Tier} (op : Option Instruction)
    {f : Option Instruction → Exec W Bool} (hargs : args ≤ s.spp.length)
    (hroom : s.spp.length + ret ≤ 1024 + args) (hbroke : ¬ Affords face stray tier s)
    (hf : ∀ u : VM W, u.ioGas < u.runGas → f op u = .error .OutOfGas u) :
    ∃ t, t.ioGas = s.ioGas ∧ t.ext = s.ext ∧
      (charge face stray args ret tier op >>= f) s = .error .OutOfGas t := by
  by_cases hprice : tierGas face stray tier ≤ maxInt63
  · refine ⟨charged face stray args ret tier s, rfl, rfl, ?_⟩
    rw [bind_ok (charge_ok hargs hroom hprice)]
    exact hf _ (Nat.not_le.mp fun hle => hbroke ⟨hprice, hle⟩)
  · refine ⟨_, ?_, ?_, bind_error (charge_dear hargs hroom (Nat.not_le.mp hprice))⟩ <;> rfl

/-- A conditional jump to a constant that has been checked beforehand: it runs out of gas in
both builds, or something else is to be seen. -/
theorem Tracked.jumpi (h : Tracked face s) (hlen : opt.length = s.code.length) {val : Word}
    (hop : s.code.getD s.pc 0 = 0x57) (hop' : opt.getD s.pc 0 = 0xae)
    (hbefore : PushedBefore s.code s.jumpDests face.code.length s.pc val)
    (sha3 : Bytes → H256) (stray : UInt32) (pool : hash256) :
    (2 ≤ s.spp.length ∧ ¬ Affords face stray .High s ∧ ∃ t t', t.ioGas = t'.ioGas ∧ t.ext = t'.ext ∧
      VM.step sha3 face stray s = .error .OutOfGas t ∧
      stepOptimized sha3 face pool stray (withCode opt s) = .error .OutOfGas t') ∨
    (∃ required got t e' t', VM.step sha3 face stray s = .error (.StackUnderflow required got) t ∧
      stepOptimized sha3 face pool stray (withCode opt s) = .error e' t' ∧
      (s.spp.length < 2) ∧ (e' = .OutOfGas ∨ e' = .outOfBounds)) ∨
    (Affords face stray .High s ∧ ∃ t t', VM.step sha3 face stray s = .ok true t ∧
      stepOptimized sha3 face pool stray (withCode opt s) = .ok true t' ∧
      t.spp.length < t'.spp.length) := by
  obtain ⟨p, hp, hscan, hpush, hafter, rfl, hdest⟩ := hbefore
  have htop := h.pushed p hp hscan hpush hafter (by rw [hop]; decide)
  have hpc := h.sound.pc
  have hheight := h.sound.height
  have hone : 1 ≤ s.spp.length := by
    cases hspp : s.spp with
    | nil =>
      rw [hspp] at htop
      cases htop
    | cons x rest => exact Nat.succ_pos _
  have hb : opt[s.pc]? = some 0xae := by
    rw [← hop']
    exact getElem?_getD (by omega)
  have hat : opAt s = some .JUMPI := by rw [opAt, hop]; rfl
  have hstep : VM.step sha3 face stray s = (charge face stray 2 0 .High (some .JUMPI) >>=
      fun op => interpretCase sha3 face op >>= trampoline face op) s := by
    rw [h.sound.step_eq, hat]
    rfl
  have hopt : stepOptimized sha3 face pool stray (withCode opt s) =
      (charge face stray 1 0 .High (some .JUMPCI) >>=
        fun op => interpretOptimized sha3 face pool op >>= trampoline face op) (withCode opt s) := by
    rw [stepOptimized_eq hb]
    rfl
  rw [hstep, hopt]
  by_cases htwo : 2 ≤ s.spp.length
  · by_cases hafford : Affords face stray .High s
    · right
      right
      obtain ⟨w, hw⟩ : ∃ w, s.spp[1]? = some w := ⟨_, List.getElem?_eq_getElem htwo⟩
      obtain ⟨pc, hjump⟩ := jumpi_ok (s := charged face stray 2 0 .High s) htop hw hdest hafford.2
      obtain ⟨pc', hjump'⟩ :=
        jumpci_ok (s := withCode opt (charged face stray 1 0 .High s)) htop hw hafford.2
      have hcase : interpretCase sha3 face (some .JUMPI) _ = _ := hjump
      have hcase' : interpretOptimized sha3 face pool (some .JUMPCI) _ = _ := hjump'
      refine ⟨hafford, _, _, (bind_ok (charge_ok htwo (by omega) hafford.1)).trans (bind_ok hcase),
        (bind_ok (charge_ok (s := withCode opt s) hone ?_ hafford.1)).trans (bind_ok hcase'), ?_⟩
      · show s.spp.length + 0 ≤ 1024 + 1
        omega
      · show (s.spp.drop 2).length < (s.spp.drop 1).length
        rw [List.length_drop, List.length_drop]
        omega
    · left
      obtain ⟨t, hgas, hext, hpay⟩ := charge_broke (some .JUMPI)
        (f := fun op => interpretCase sha3 face op >>= trampoline face op) htwo
        (show s.spp.length + 0 ≤ 1024 + 2 by omega) hafford fun u hu => pay_error hu
      obtain ⟨t', hgas', hext', hpay'⟩ := charge_broke (s := withCode opt s) (some .JUMPCI)
        (f := fun op => interpretOptimized sha3 face pool op >>= trampoline face op) hone
        (show s.spp.length + 0 ≤ 1024 + 1 by omega) hafford fun u hu => pay_error hu
      exact ⟨htwo, hafford, t, t', hgas.trans hgas'.symm, hext.trans hext'.symm, hpay, hpay'⟩
  · right
    left
    have hunder := charge_under face stray 0 .High (some .JUMPI) (Nat.not_le.mp htwo)
    by_cases hafford : Affords face stray .High s
    · have hnone : s.spp[1]? = none := List.getElem?_eq_none (by omega)
      have hcase : interpretOptimized sha3 face pool (some .JUMPCI)
          (withCode opt (charged face stray 1 0 .High s)) = .error .outOfBounds _ :=
        (bind_ok (updateIOGas_ok hafford.2)).trans (bind_error (item_error hnone))
      refine ⟨_, _, _, _, _, bind_error hunder,
        (bind_ok (charge_ok (s := withCode opt s) hone ?_ hafford.1)).trans (bind_error hcase),
        Nat.not_le.mp htwo, Or.inr rfl⟩
      show s.spp.length + 0 ≤ 1024 + 1
      omega
    · obtain ⟨t', -, -, hpay'⟩ := charge_broke (s := withCode opt s) (some .JUMPCI)
        (f := fun op => interpretOptimized sha3 face pool op >>= trampoline face op) hone
        (show s.spp.length + 0 ≤ 1024 + 1 by omega) hafford fun u hu => pay_error hu
      exact ⟨_, _, _, _, _, bind_error hunder, hpay', Nat.not_le.mp htwo, Or.inl rfl⟩

theorem Tracked.placed (h : Tracked face s) :
    Placed s.code s.jumpDests face.code.length (firstPass face.code).1 (firstPass face.code).2 s.pc ∧
      (firstPass face.code).1.length = s.code.length := by
  have hscan := h.scan
  rw [h.code] at hscan ⊢
  rw [h.jumpDests]
  exact ⟨(firstPass_passed face.code).placed s.pc hscan, (firstPass_passed face.code).length⟩

/-- An instruction that the first pass has left as it was is none of the interpreter's own. -/
theorem Tracked.fits_of_kept (h : Tracked face s)
    (hkept : (firstPass face.code).1.getD s.pc 0 = s.code.getD s.pc 0) (stray : UInt32) :
    Fits face stray s := by
  obtain ⟨hpushc, -, hjumpci⟩ := h.not_own
  constructor
  · intro hop
    rw [hkept] at hop
    exact absurd (by rw [opAt, hop]; rfl) hpushc
  · intro hop
    rw [hkept] at hop
    exact absurd (by rw [opAt, hop]; rfl) hjumpci

theorem Tracked.matches_of_fits (h : Tracked face s) (hfits : Fits face stray s)
    (sha3 : Bytes → H256) :
    Matches outcome (withCode (firstPass face.code).1)
      (stepOptimized sha3 face (firstPass face.code).2 stray (withCode (firstPass face.code).1 s))
      (VM.step sha3 face stray s) := by
  obtain ⟨hplaced, hlen⟩ := h.placed
  have hout := outcome_mapState (W := W) (firstPass face.code).1
  cases hplaced with
  | kept hkept =>
    rw [h.kept hlen hkept]
    exact matches_mapState outcome hout _
  | jump hop hop' hbefore =>
    rw [h.jump hlen hop hop' hbefore]
    exact matches_mapState outcome hout _
  | pooled hsize hop hindex hval =>
    rcases h.pooled hlen hsize hop hindex hval sha3 stray with
      ⟨-, e, t, hstep, hopt⟩ | ⟨hroom, hafford, t, hstep, hpc, hopt⟩
    · rw [hstep, hopt]
      rfl
    · rw [hstep, hopt, hfits.push hop hroom hafford, ← hpc]
      rfl
  | jumpi hop hop' hbefore =>
    obtain ⟨htwo, hbroke⟩ := hfits.jumpi hop'
    rcases h.jumpi hlen hop hop' hbefore sha3 stray (firstPass face.code).2 with
      ⟨-, -, t, t', hgas, hext, hstep, hopt⟩ | ⟨required, got, t, e, t', hstep, -, hlt, -⟩ |
      ⟨hafford, -⟩
    · rw [hstep, hopt]
      show (_, _, t'.ioGas, t'.ext) = (_, _, t.ioGas, t.ext)
      rw [hgas, hext]
    · omega
    · exact absurd hafford hbroke

theorem Tracked.differs_of_not_fits (h : Tracked face s) (hfits : ¬ Fits face stray s)
    (sha3 : Bytes → H256) :
    ∃ fuel, trace located outcome (stepOptimized sha3 face (firstPass face.code).2 stray) fuel
      (withCode (firstPass face.code).1 s) ≠ trace located outcome (VM.step sha3 face stray) fuel s := by
  obtain ⟨hplaced, hlen⟩ := h.placed
  cases hplaced with
  | kept hkept => exact absurd (h.fits_of_kept (hkept 0 (Nat.zero_le _)) stray) hfits
  | jump hop hop' hbefore =>
    refine absurd ⟨fun hop'' => ?_, fun hop'' => ?_⟩ hfits
    · rw [hop'] at hop''
      exact absurd hop'' (by decide)
    · rw [hop'] at hop''
      exact absurd hop'' (by decide)
  | pooled hsize hop hindex hval =>
    have hne : s.spp.length < 1024 ∧ Affords face stray .VeryLow s ∧
        (poolIndex (dataAt s.code s.pc)).toNat ≠ nPush (s.code.getD s.pc 0) := by
      by_contra hno
      refine hfits ⟨fun _ hroom hafford => ?_, fun hop'' => ?_⟩
      · exact Classical.byContradiction fun hne => hno ⟨hroom, hafford, hne⟩
      · rw [hop] at hop''
        exact absurd hop'' (by decide)
    rcases h.pooled hlen hsize hop hindex hval sha3 stray with
      ⟨hno, -⟩ | ⟨-, -, t, hstep, hpc, hopt⟩
    · exact absurd ⟨hne.1, hne.2.1⟩ hno
    · refine ⟨2, trace_ne_of_next located outcome hstep hopt fun hsame => hne.2.2 ?_⟩
      have hpcs := congrArg Prod.fst hsame
      have hpcs' : s.pc + 1 + (poolIndex (dataAt s.code s.pc)).toNat = t.pc := hpcs
      omega
  | jumpi hop hop' hbefore =>
    rcases h.jumpi hlen hop hop' hbefore sha3 stray (firstPass face.code).2 with
      ⟨htwo, hbroke, -⟩ | ⟨required, got, t, e, t', hstep, hopt, -, he⟩ |
      ⟨-, t, t', hstep, hopt, hlt⟩
    · refine absurd ⟨fun hop'' => ?_, fun _ => ⟨htwo, hbroke⟩⟩ hfits
      rw [hop'] at hop''
      exact absurd hop'' (by decide)
    · refine ⟨1, trace_ne_of_error located outcome hstep hopt fun hsame => ?_⟩
      have hexc := Option.some.inj (congrArg Prod.fst hsame)
      rcases he with rfl | rfl <;> cases hexc
    · refine ⟨2, trace_ne_of_next located outcome hstep hopt fun hsame => ?_⟩
      have hspp : t'.spp = t.spp := congrArg Prod.snd hsame
      rw [hspp] at hlt
      exact absurd hlt (Nat.lt_irrefl _)

/-- As long as the pushes and jumps that are replaced fit, the two builds end in the same way,
with the same output, gas and world; and they are at the same places with the same stack all
the way exactly then. -/
theorem optimized_same_iff (sha3 : Bytes → H256) (face : ExtVMFace W) (stray : UInt32) (gas : Word)
    (ext : W) :
    ((∀ s, Reaches (step sha3 face stray) (initEntry face gas ext) s → Fits face stray s) →
      ∀ fuel, (execOptimized sha3 face stray fuel gas ext).map outcome =
        (exec sha3 face stray fuel gas ext).map outcome) ∧
    ((∀ fuel, trace located outcome (stepOptimized sha3 face (firstPass face.code).2 stray) fuel
        (initEntryOptimized face gas ext) =
      trace located outcome (step sha3 face stray) fuel (initEntry face gas ext)) ↔
      ∀ s, Reaches (step sha3 face stray) (initEntry face gas ext) s → Fits face stray s) := by
  have hiff : (∀ fuel, trace located outcome (stepOptimized sha3 face (firstPass face.code).2 stray)
        fuel (withCode (firstPass face.code).1 (initEntry face gas ext)) =
      trace located outcome (step sha3 face stray) fuel (initEntry face gas ext)) ↔
      ∀ s, Reaches (step sha3 face stray) (initEntry face gas ext) s → Fits face stray s := by
    refine trace_eq_iff located outcome (fun _ => rfl) ?_ ?_
    · exact fun s hs hfits => (reaches_tracked hs).matches_of_fits hfits sha3
    · exact fun s hs hfits => (reaches_tracked hs).differs_of_not_fits hfits sha3
  refine ⟨fun hall fuel => ?_, hiff⟩
  have hsame := congrArg Prod.snd (hiff.mpr hall fuel)
  rw [trace_snd, trace_snd] at hsame
  exact hsame

/-- `PUSH2 0x00ba` and `STOP`, and behind it an `ADD` that is never reached: the index of the
constant is 3, so the build that optimizes goes on at the `ADD`. -/
theorem push_not_same :
    ¬ ∀ fuel, (execOptimized (fun _ => H256.ofNat 0)
        (stillFace [0x61, 0x00, 0xba, 0x00, 0x01] (by decide)) 0 fuel 100 ()).map outcome =
      (exec (fun _ => H256.ofNat 0)
        (stillFace [0x61, 0x00, 0xba, 0x00, 0x01] (by decide)) 0 fuel 100 ()).map outcome := by
  intro h
  exact absurd (h 2) (by decide +kernel)

end Steps

end VM
end XChain
