import XChain.VMFrame
import XChain.VMFetch
import XChain.VMRuns

/-!
# Dispatch by a table of labels

The other build of the interpreter jumps through a table of labels instead of
switching. The bodies of the cases are the same, and so are the labels that the table
gives for the bytes, apart from labels that all reject and from `REVERT`, which the
table rejects. The macro `NEXT` sets the program counter to zero in this build, where
the switch adds one. The two builds run alike exactly as long as neither is used.
-/
namespace XChain
namespace VM

open Machine

variable {W : Type} {sha3 : Bytes → H256} {face : ExtVMFace W} {stray : UInt32} {s : VM W}

section Table

/-- The label of the default case. -/
def INVALID : Option Instruction := none

/-- A part of the table without the default case. -/
def labels (ops : List Instruction) : List (Option Instruction) := ops.map some

/-- The labels by the bytes. -/
def jumpTable : List (Option Instruction) :=
  labels [.STOP, .ADD, .MUL, .SUB, .DIV, .SDIV, .MOD, .SMOD, .ADDMOD, .MULMOD, .EXP,
    .SIGNEXTEND] ++ List.replicate 4 INVALID ++
  labels [.LT, .GT, .SLT, .SGT, .EQ, .ISZERO, .AND, .OR, .XOR, .NOT, .BYTE] ++
  List.replicate 5 INVALID ++
  labels [.SHA3] ++ List.replicate 15 INVALID ++
  labels [.ADDRESS, .BALANCE, .ORIGIN, .CALLER, .CALLVALUE, .CALLDATALOAD, .CALLDATASIZE,
    .CALLDATACOPY, .CODESIZE, .CODECOPY, .GASPRICE, .EXTCODESIZE, .EXTCODECOPY] ++
  List.replicate 3 INVALID ++
  labels [.BLOCKHASH, .COINBASE, .TIMESTAMP, .NUMBER, .DIFFICULTY, .GASLIMIT, .JUMPTO, .JUMPIF,
    .JUMPV, .JUMPSUB, .JUMPSUBV, .RETURNSUB, .BEGINSUB, .BEGINDATA] ++ List.replicate 2 INVALID ++
  labels [.POP, .MLOAD, .MSTORE, .MSTORE8, .SLOAD, .SSTORE, .JUMP, .JUMPI, .PC, .MSIZE, .GAS,
    .JUMPDEST, .BEGINDATA, .BEGINSUB] ++ List.replicate 2 INVALID ++
  labels ((List.finRange 32).map .PUSH) ++
  labels ((List.finRange 16).map .DUP) ++
  labels ((List.finRange 16).map .SWAP) ++
  labels ((List.finRange 5).map .LOG) ++ List.replicate 7 INVALID ++
  labels [.PUSHC, .JUMPC, .JUMPCI, .BAD] ++ List.replicate 64 INVALID ++
  labels [.CREATE, .CALL, .CALLCODE, .RETURN, .DELEGATECALL] ++ List.replicate 10 INVALID ++
  labels [.SUICIDE]

/-- The label that the table has for a byte. -/
def label (b : UInt8) : Option Instruction := (jumpTable[b.toNat]?).getD INVALID

/-- The labels whose cases only throw `BadInstruction`. -/
def rejected : Option Instruction → Bool
  | some .PUSHC | some .JUMPC | some .JUMPCI => true
  | some .JUMPTO | some .JUMPIF | some .JUMPV | some .JUMPSUB | some .JUMPSUBV => true
  | some .RETURNSUB | some .BEGINSUB | some .BEGINDATA | some .BAD => true
  | some _ => false
  | none => true

/-- The table has a label for every byte. -/
theorem jumpTable_length : jumpTable.length = 256 := by decide +kernel

theorem interpretCase_rejected {op : Option Instruction} (h : rejected op = true) :
    interpretCase sha3 face op = throw .BadInstruction := by
  cases op with
  | none => rfl
  | some op => cases op <;> first | rfl | exact absurd h (by simp [rejected])

theorem label_table : ∀ row ∈ jumpTable.zipIdx,
    (row.1 = Instruction.ofByte (UInt8.ofNat row.2) ∧
      Instruction.ofByte (UInt8.ofNat row.2) ≠ some .REVERT) ∨
    (rejected row.1 = true ∧
      (rejected (Instruction.ofByte (UInt8.ofNat row.2)) = true ∨
        Instruction.ofByte (UInt8.ofNat row.2) = some .REVERT)) := by
  decide +kernel

/-- The table and the switch have the same case for a byte, or both reject it, or the byte
is `REVERT`, which only the table rejects. -/
theorem label_cases (b : UInt8) :
    (label b = Instruction.ofByte b ∧ Instruction.ofByte b ≠ some .REVERT) ∨
    (rejected (label b) = true ∧
      (rejected (Instruction.ofByte b) = true ∨ Instruction.ofByte b = some .REVERT)) := by
  have hlt : b.toNat < jumpTable.length := jumpTable_length ▸ b.toNat_lt
  have hrow : jumpTable[b.toNat]? = some (label b) := by
    rw [label, List.getElem?_eq_getElem hlt, Option.getD_some]
  have h := label_table (label b, b.toNat) (List.mk_mem_zipIdx_iff_getElem?.mpr hrow)
  rwa [UInt8.ofNat_toNat] at h

end Table

section Dispatch

/-- The body of a case as this build has it: its `NEXT` sets the program counter to zero. -/
def interpretLabel (sha3 : Bytes → H256) (face : ExtVMFace W) (op : Option Instruction) :
    Exec W Bounce := do
  let bounce ← interpretCase sha3 face op
  (if op.any endsWithNext then modify fun s => { s with pc := 0 } else pure ())
  pure bounce

/-- One instruction in this build. -/
def jumpStep (sha3 : Bytes → H256) (face : ExtVMFace W) (stray : UInt32) : Exec W Bool := do
  let op ← fetchInstruction face stray
  let s ← get
  let b ← codeByte s.pc
  let bounce ← interpretLabel sha3 face (label b)
  trampoline face op bounce

/-- The instruction that is executed next: where it stands and its byte. -/
def executed (s : VM W) : ℕ × UInt8 := (s.pc, s.code.getD s.pc 0)

/-- No instruction that ends with `NEXT` goes on from here, and no `REVERT` that is allowed
is fetched here. -/
structure Alike (sha3 : Bytes → H256) (face : ExtVMFace W) (stray : UInt32) (s : VM W) : Prop where
  next : ∀ t, step sha3 face stray s = .ok true t → (opAt s).any endsWithNext = false
  revert : opAt s = some .REVERT → face.evmSchedule.haveRevert = true →
    ∃ e t, fetchInstruction face stray s = .error e t

theorem Sound.jumpStep_of_fetch (h : Sound face s) (sha3 : Bytes → H256)
    {op : Option Instruction} {t : VM W}
    (hfetch : fetchInstruction face stray s = .ok op t) :
    op = opAt s ∧ ∃ b, opAt s = Instruction.ofByte b ∧
      jumpStep sha3 face stray s = (interpretLabel sha3 face (label b) >>= trampoline face op) t := by
  obtain ⟨hop, hf⟩ := h.fetch.ok hfetch
  have hlt := h.pc
  have hpc : t.code[t.pc]? = some s.code[s.pc] := by
    rw [hf.code, hf.pc]
    exact List.getElem?_eq_getElem h.pc
  have hbyte : codeByte t.pc t = .ok s.code[s.pc] t := codeByte_ok hpc
  refine ⟨hop, s.code[s.pc], (h.byte (List.getElem?_eq_getElem h.pc)).1, ?_⟩
  unfold jumpStep
  rw [bind_ok hfetch]
  exact bind_ok hbyte

/-- A case that ends with `NEXT` goes on at zero. -/
theorem interpretLabel_next {op : Instruction} (hop : endsWithNext op = true) {t u : VM W}
    {bounce : Bounce} (h : interpretCase sha3 face (some op) t = .ok bounce u) :
    bounce = .interpretCases ∧ u.pc = t.pc + 1 ∧
      interpretLabel sha3 face (some op) t = .ok .interpretCases { u with pc := 0 } := by
  obtain ⟨rfl, hpc⟩ := ((nexts_interpretCase hop).goes t).ok h
  refine ⟨rfl, hpc, ?_⟩
  unfold interpretLabel
  rw [bind_ok h, show (some op).any endsWithNext = true from hop]
  rfl

theorem interpretLabel_of_not_next {op : Option Instruction} (hop : op.any endsWithNext = false)
    (t : VM W) : interpretLabel sha3 face op t = interpretCase sha3 face op t := by
  unfold interpretLabel
  rw [hop]
  cases h : interpretCase sha3 face op t with
  | ok bounce u => exact bind_ok h
  | error e u => exact bind_error h

theorem rejected_not_next {op : Option Instruction} (h : rejected op = true) :
    op.any endsWithNext = false := by
  cases op with
  | none => rfl
  | some op => cases op <;> first | rfl | exact absurd h (by simp [rejected])

/-- The label of a byte that the table rejects throws in this build. -/
theorem interpretLabel_rejected {op : Option Instruction} (h : rejected op = true) :
    interpretLabel sha3 face op = throw .BadInstruction := by
  funext t
  rw [interpretLabel_of_not_next (rejected_not_next h), interpretCase_rejected h]

/-- Where the states are alike, so are the steps. -/
theorem jumpStep_eq (h : Sound face s) (ha : Alike sha3 face stray s) :
    jumpStep sha3 face stray s = step sha3 face stray s := by
  cases hfetch : fetchInstruction face stray s with
  | error e t =>
    have hjump : jumpStep sha3 face stray s = .error e t := bind_error hfetch
    have hstep : step sha3 face stray s = .error e t := bind_error hfetch
    rw [hjump, hstep]
  | ok op t =>
    obtain ⟨rfl, b, hb, hjump⟩ := h.jumpStep_of_fetch sha3 hfetch
    rw [hjump, step_of_fetch hfetch]
    refine bind_congr ?_
    rcases label_cases b with ⟨hlabel, -⟩ | ⟨hreject, hreject' | hrevert⟩
    · rw [hlabel, ← hb]
      by_cases hnext : (opAt s).any endsWithNext = true
      · -- The case does not get to its `NEXT`.
        obtain ⟨op, hop, hends⟩ := (Option.any_eq_true _ _).mp hnext
        rw [hop]
        cases hcase : interpretCase sha3 face (some op) t with
        | error e u => exact bind_error hcase
        | ok bounce u =>
          obtain ⟨rfl, -, -⟩ := interpretLabel_next hends hcase
          have hgo : step sha3 face stray s = .ok true u := by
            rw [step_of_fetch hfetch, hop]
            exact bind_ok hcase
          rw [ha.next u hgo] at hnext
          cases hnext
      · exact interpretLabel_of_not_next (Bool.not_eq_true _ ▸ hnext) t
    · rw [interpretLabel_rejected hreject, hb, interpretCase_rejected hreject']
    · rw [interpretLabel_rejected hreject, hb, hrevert]
      have hoff : face.evmSchedule.haveRevert = false := by
        cases hon : face.evmSchedule.haveRevert with
        | false => rfl
        | true =>
          obtain ⟨e, u, herror⟩ := ha.revert (hb.trans hrevert) hon
          rw [hfetch] at herror
          cases herror
      show _ = (if face.evmSchedule.haveRevert = true then _ else throw .BadInstruction : Exec W Bounce) t
      rw [hoff]
      rfl

/-- A case that gets to its `NEXT` is followed by another instruction in this build. -/
theorem jumpStep_next (h : Sound face s) {t : VM W}
    (hgo : step sha3 face stray s = .ok true t) (hnext : (opAt s).any endsWithNext = true) :
    t.pc ≠ 0 ∧ jumpStep sha3 face stray s = .ok true { t with pc := 0 } := by
  obtain ⟨op, hop, hends⟩ := (Option.any_eq_true _ _).mp hnext
  cases hfetch : fetchInstruction face stray s with
  | error e u =>
    have herror : step sha3 face stray s = .error e u := bind_error hfetch
    rw [hgo] at herror
    cases herror
  | ok op' u =>
    obtain ⟨rfl, b, hb, hjump⟩ := h.jumpStep_of_fetch sha3 hfetch
    have hlabel : label b = some op := by
      rcases label_cases b with ⟨hlabel, -⟩ | ⟨-, hreject | hrevert⟩
      · rw [hlabel, ← hb, hop]
      · rw [← hb, hop] at hreject
        have hno := rejected_not_next hreject
        rw [← hop, hnext] at hno
        cases hno
      · rw [← hb, hop] at hrevert
        rw [Option.some.inj hrevert] at hends
        cases hends
    rw [step_of_fetch hfetch, hop] at hgo
    rw [hjump, hlabel]
    cases hcase : interpretCase sha3 face (some op) u with
    | error e v =>
      rw [bind_error hcase] at hgo
      cases hgo
    | ok bounce v =>
      obtain ⟨rfl, hpc, hzero⟩ := interpretLabel_next hends hcase
      rw [bind_ok hcase] at hgo
      obtain rfl : v = t := (EStateM.Result.ok.inj hgo).2
      refine ⟨by omega, ?_⟩
      rw [bind_ok hzero]
      rfl

/-- A `REVERT` that is allowed ends the run in both builds, with different exceptions. -/
theorem jumpStep_revert (h : Sound face s) (hop : opAt s = some .REVERT)
    (hon : face.evmSchedule.haveRevert = true) {op : Option Instruction} {t : VM W}
    (hfetch : fetchInstruction face stray s = .ok op t) :
    jumpStep sha3 face stray s = .error .BadInstruction t ∧
      ∃ e u, step sha3 face stray s = .error e u ∧ e ≠ .BadInstruction := by
  have hfetched := (h.fetch.ok hfetch).2.fetched _ hop rfl
  obtain ⟨rfl, b, hb, hjump⟩ := h.jumpStep_of_fetch sha3 hfetch
  constructor
  · have hreject : rejected (label b) = true := by
      rcases label_cases b with ⟨-, hno⟩ | ⟨hreject, -⟩
      · exact absurd (hb.symm.trans hop) hno
      · exact hreject
    rw [hjump, interpretLabel_rejected hreject]
    rfl
  · have hcase : Runs (interpretCase sha3 face (opAt s)) t (fun _ _ => False)
        fun e _ => e ≠ .BadInstruction := by
      rw [hop]
      refine runs_ite (fun _ => runs_bind ?_) fun hoff => absurd hon hoff
      refine hfetched.outputCase hfetched.args (fun b u _ _ => runs_throw ?_) fun _ _ => ?_
      · simp
      · simp
    cases hresult : interpretCase sha3 face (opAt s) t with
    | ok bounce u => exact (hcase.ok hresult).elim
    | error e u =>
      refine ⟨e, u, ?_, hcase.error hresult⟩
      rw [step_of_fetch hfetch]
      exact bind_error hresult

/-- The builds execute the same instructions and end in the same way, however far they are
run, exactly when no instruction goes on through its `NEXT` and no `REVERT` that is allowed
is fetched. -/
theorem jumpStep_same_iff (sha3 : Bytes → H256) (face : ExtVMFace W) (stray : UInt32) (gas : Word)
    (ext : W) :
    (∀ fuel, trace executed outcome (jumpStep sha3 face stray) fuel (initEntry face gas ext) =
      trace executed outcome (step sha3 face stray) fuel (initEntry face gas ext)) ↔
    ∀ s, Reaches (step sha3 face stray) (initEntry face gas ext) s → Alike sha3 face stray s := by
  refine trace_eq_iff executed outcome (φ := id) (fun _ => rfl) ?_ ?_
  · intro s hs ha
    have hsame := matches_mapState outcome (fun r => congrArg outcome (mapState_id r))
      (step sha3 face stray s)
    rw [mapState_id] at hsame
    rw [id, jumpStep_eq (reaches_sound hs) ha]
    exact hsame
  · intro s hs hdiffer
    have hsound := reaches_sound hs
    by_cases hnext : ∃ t, step sha3 face stray s = .ok true t ∧ (opAt s).any endsWithNext = true
    · obtain ⟨t, hgo, hends⟩ := hnext
      obtain ⟨hpc, hjump⟩ := jumpStep_next hsound hgo hends
      refine ⟨2, trace_ne_of_next executed outcome hgo hjump fun hsame => hpc ?_⟩
      exact (congrArg Prod.fst hsame).symm
    · have hrevert : ∃ op t, opAt s = some .REVERT ∧ face.evmSchedule.haveRevert = true ∧
          fetchInstruction face stray s = .ok op t := by
        by_contra hno
        refine hdiffer ⟨fun t hgo => ?_, fun hop hon => ?_⟩
        · exact Bool.not_eq_true _ ▸ fun hends => hnext ⟨t, hgo, hends⟩
        · cases hfetch : fetchInstruction face stray s with
          | ok op t => exact absurd ⟨op, t, hop, hon, hfetch⟩ hno
          | error e t => exact ⟨e, t, rfl⟩
      obtain ⟨op, t, hop, hon, hfetch⟩ := hrevert
      obtain ⟨hjump, e, u, hstep, hne⟩ := jumpStep_revert hsound hop hon hfetch
      refine ⟨1, trace_ne_of_error executed outcome hstep hjump fun hsame => hne ?_⟩
      exact (Option.some.inj (congrArg Prod.fst hsame)).symm

/-- The code `JUMPDEST` ends after its last byte in one build and runs out of gas in the
other. -/
theorem jumpdest_not_same :
    ¬ ∀ fuel, trace executed outcome (jumpStep (fun _ => H256.ofNat 0)
      (stillFace [0x5b] (by decide)) 0) fuel (initEntry (stillFace [0x5b] (by decide)) 10 ()) =
      trace executed outcome (step (fun _ => H256.ofNat 0) (stillFace [0x5b] (by decide)) 0) fuel
        (initEntry (stillFace [0x5b] (by decide)) 10 ()) := by
  intro h
  have hresult := congrArg Prod.snd (h 11)
  exact absurd hresult (by decide +kernel)

end Dispatch

end VM
end XChain
