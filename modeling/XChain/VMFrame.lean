import XChain.VM

/-!
# What an instruction leaves alone

Most of the machine neither reads the code nor moves the program counter, except for
the step to the next instruction at the end of a case. Such a case does the same with
any other code, and goes on at the next byte. The jumps, the pushes and the calls do
the same with any other code as well as far as they do not read it.
-/
namespace XChain
namespace VM

open Machine

variable {W : Type} {α β : Type} {sha3 : Bytes → H256} {face : ExtVMFace W} {stray : UInt32}
  {s : VM W}

/-- The same machine over another code. -/
def withCode (c : Bytes) (s : VM W) : VM W := { s with code := c }

/-- The program does the same over any other code. -/
def Blind (m : Exec W α) : Prop := ∀ c, Commutes (withCode c) m

/-- A program that neither reads the code nor moves the program counter. -/
structure Stationary (m : Exec W α) : Prop where
  blind : Blind m
  keeps : ∀ s, Runs m s (fun _ t => t.pc = s.pc) fun _ _ => True

/-- A case that neither reads the code nor jumps: it goes on at the next byte. -/
structure Nexts (m : Exec W Bounce) : Prop where
  blind : Blind m
  goes : ∀ s, Runs m s (fun bounce t => bounce = .interpretCases ∧ t.pc = s.pc + 1) fun _ _ => True

section Rules

theorem Blind.bind {m : Exec W α} {f : α → Exec W β} (hm : Blind m) (hf : ∀ a, Blind (f a)) :
    Blind (m >>= f) := fun c => (hm c).bind fun a => hf a c

theorem blind_pure (a : α) : Blind (pure a : Exec W α) := fun _ => commutes_pure a

theorem blind_throw (e : VMException) : Blind (throw e : Exec W α) := fun _ => commutes_throw e

theorem blind_get {f : VM W → Exec W β} (hf : ∀ s c, f (withCode c s) = f s)
    (h : ∀ s, Blind (f s)) : Blind (get >>= f) := fun c => commutes_get (fun s => hf s c) fun s => h s c

theorem blind_modify {g : VM W → VM W} (hg : ∀ s c, g (withCode c s) = withCode c (g s)) :
    Blind (modify g : Exec W PUnit) := fun c => commutes_modify fun s => hg s c

theorem blind_ite {p : Prop} [Decidable p] {m m' : Exec W α} (hm : Blind m) (hm' : Blind m') :
    Blind (if p then m else m') := fun c => commutes_ite (hm c) (hm' c)

theorem stationary_pure (a : α) : Stationary (pure a : Exec W α) :=
  ⟨blind_pure a, fun _ => runs_pure rfl⟩

theorem stationary_throw (e : VMException) : Stationary (throw e : Exec W α) :=
  ⟨blind_throw e, fun _ => runs_throw trivial⟩

theorem Stationary.bind {m : Exec W α} {f : α → Exec W β} (hm : Stationary m)
    (hf : ∀ a, Stationary (f a)) : Stationary (m >>= f) := by
  constructor
  · exact hm.blind.bind fun a => (hf a).blind
  · intro s
    refine runs_bind ((hm.keeps s).imp fun a t ht => ?_)
    exact ((hf a).keeps t).imp fun _ u hu => hu.trans ht

theorem stationary_get {f : VM W → Exec W β} (hf : ∀ s c, f (withCode c s) = f s)
    (h : ∀ s, Stationary (f s)) : Stationary (get >>= f) := by
  constructor
  · exact blind_get hf fun s => (h s).blind
  · exact fun s => runs_bind (runs_get ((h s).keeps s))

theorem stationary_modify {g : VM W → VM W} (hg : ∀ s c, g (withCode c s) = withCode c (g s))
    (hpc : ∀ s, (g s).pc = s.pc) : Stationary (modify g : Exec W PUnit) :=
  ⟨blind_modify hg, fun s => runs_modify (hpc s)⟩

theorem stationary_ite {p : Prop} [Decidable p] {m m' : Exec W α} (hm : Stationary m)
    (hm' : Stationary m') : Stationary (if p then m else m') := by
  split_ifs
  · exact hm
  · exact hm'

/-- A change of the state that is refused unless a condition holds. -/
theorem stationary_guard {p : VM W → Prop} [DecidablePred p] {g : VM W → VM W} {e : VMException}
    (hp : ∀ s c, p (withCode c s) ↔ p s) (hg : ∀ s c, g (withCode c s) = withCode c (g s))
    (hpc : ∀ s, (g s).pc = s.pc) :
    Stationary (get >>= fun s => if p s then set (g s) else throw e : Exec W PUnit) := by
  constructor
  · intro c s
    show (if _ then _ else _ : Exec W PUnit) (withCode c s) = mapState _ ((if _ then _ else _ :
      Exec W PUnit) s)
    by_cases h : p s
    · rw [if_pos h, if_pos ((hp s c).mpr h), hg]
      rfl
    · rw [if_neg h, if_neg fun hc => h ((hp s c).mp hc)]
      rfl
  · intro s
    exact runs_bind (runs_get (runs_ite (fun _ => runs_set (hpc s)) fun _ => runs_throw trivial))

theorem Stationary.nexts {m : Exec W α} {f : α → Exec W Bounce} (hm : Stationary m)
    (hf : ∀ a, Nexts (f a)) : Nexts (m >>= f) := by
  constructor
  · exact hm.blind.bind fun a => (hf a).blind
  · intro s
    refine runs_bind ((hm.keeps s).imp fun a t ht => ?_)
    exact ((hf a).goes t).imp fun _ u hu => ⟨hu.1, by rw [hu.2, ht]⟩

theorem nexts_get {f : VM W → Exec W Bounce} (hf : ∀ s c, f (withCode c s) = f s)
    (h : ∀ s, Nexts (f s)) : Nexts (get >>= f) := by
  constructor
  · exact blind_get hf fun s => (h s).blind
  · exact fun s => runs_bind (runs_get ((h s).goes s))

theorem nexts_nextPC : Nexts (nextPC 1 : Exec W Bounce) := by
  constructor
  · exact (blind_modify fun _ _ => rfl).bind fun _ => blind_pure _
  · exact fun s => runs_bind (runs_modify (runs_pure ⟨rfl, rfl⟩))

end Rules

section Parts

theorem stationary_item (i : ℕ) : Stationary (item i : Exec W Word) := by
  refine stationary_get (fun _ _ => rfl) fun s => ?_
  cases s.sp[i]? with
  | some w => exact stationary_pure w
  | none => exact stationary_throw _

theorem stationary_setTop (w : Word) : Stationary (setTop w : Exec W Unit) := by
  constructor
  · intro c s
    obtain ⟨_, _, _, _, _, _, _, _, spp, _, _, _⟩ := s
    cases spp with
    | nil => rfl
    | cons x rest => rfl
  · intro s
    unfold setTop
    refine runs_bind (runs_get ?_)
    cases s.spp with
    | nil => exact runs_throw trivial
    | cons x rest => exact runs_set rfl

theorem stationary_slice (b : Bytes) (offset size : ℕ) :
    Stationary (slice b offset size : Exec W Bytes) :=
  stationary_ite (stationary_pure _) (stationary_throw _)

theorem stationary_memSlice (offset size : ℕ) : Stationary (memSlice offset size : Exec W Bytes) :=
  stationary_get (fun _ _ => rfl) fun s => stationary_slice s.mem offset size

theorem stationary_memWrite (offset : ℕ) (b : Bytes) :
    Stationary (memWrite offset b : Exec W Unit) :=
  stationary_guard (fun _ _ => Iff.rfl) (fun _ _ => rfl) fun _ => rfl

theorem stationary_toInt63 (v : ℕ) : Stationary (toInt63 v : Exec W ℕ) :=
  stationary_ite (stationary_throw _) (stationary_pure _)

theorem stationary_memNeed (offset size : Word) : Stationary (memNeed offset size : Exec W ℕ) :=
  stationary_toInt63 _

theorem stationary_setRunGas (gas : ℕ) : Stationary (setRunGas gas : Exec W Unit) :=
  stationary_modify (fun _ _ => rfl) fun _ => rfl

theorem stationary_updateIOGas : Stationary (updateIOGas : Exec W Unit) := by
  have hpaid : (updateIOGas : Exec W Unit) = get >>= fun s =>
      if ¬ s.ioGas < s.runGas then set { s with ioGas := s.ioGas - s.runGas } else throw .OutOfGas := by
    simp only [ite_not]
    rfl
  rw [hpaid]
  exact stationary_guard (fun _ _ => Iff.rfl) (fun _ _ => rfl) fun _ => rfl

theorem stationary_updateGas : Stationary (updateGas face) := by
  refine stationary_get (fun _ _ => rfl) fun s => Stationary.bind (stationary_ite ?_ ?_) fun _ => ?_
  · refine Stationary.bind (stationary_toInt63 _) fun a => ?_
    refine Stationary.bind (stationary_toInt63 _) fun b => ?_
    refine Stationary.bind (stationary_toInt63 _) fun d => ?_
    exact stationary_modify (fun _ _ => rfl) fun _ => rfl
  · exact stationary_pure _
  · refine Stationary.bind (stationary_modify (fun _ _ => rfl) fun _ => rfl) fun _ => ?_
    refine stationary_get (fun _ _ => rfl) fun s => ?_
    exact stationary_ite (stationary_throw _) (stationary_pure _)

theorem stationary_updateMem (newMem : ℕ) : Stationary (updateMem face newMem) := by
  refine Stationary.bind (stationary_modify (fun _ _ => rfl) fun _ => rfl) fun _ => ?_
  refine Stationary.bind stationary_updateGas fun _ => ?_
  exact stationary_modify (fun _ _ => rfl) fun _ => rfl

theorem stationary_logGasMem (n : ℕ) : Stationary (logGasMem face n) := by
  refine Stationary.bind (stationary_item 1) fun size => ?_
  refine Stationary.bind (stationary_toInt63 _) fun gas => ?_
  refine Stationary.bind (stationary_setRunGas gas) fun _ => ?_
  refine Stationary.bind (stationary_item 0) fun offset => ?_
  exact Stationary.bind (stationary_memNeed _ _) fun need => stationary_updateMem need

theorem stationary_nullary {f : VM W → Word} (hf : ∀ s c, f (withCode c s) = f s) :
    Stationary (nullary f) :=
  stationary_get (fun s c => congrArg pure (hf s c)) fun _ => stationary_pure _

theorem stationary_unary {f : VM W → Word → Word} (hf : ∀ s c, f (withCode c s) = f s) :
    Stationary (unary f) := by
  refine stationary_get (fun s c => ?_) fun s => ?_
  · rw [hf s c]
  · exact Stationary.bind (stationary_item 0) fun a => stationary_pure _

theorem stationary_binary (f : Word → Word → Word) : Stationary (binary f : Exec W Word) := by
  refine Stationary.bind (stationary_item 0) fun a => ?_
  exact Stationary.bind (stationary_item 1) fun b => stationary_pure _

theorem stationary_ternary (f : Word → Word → Word → Word) :
    Stationary (ternary f : Exec W Word) := by
  refine Stationary.bind (stationary_item 0) fun a => ?_
  refine Stationary.bind (stationary_item 1) fun b => ?_
  exact Stationary.bind (stationary_item 2) fun c => stationary_pure _

theorem stationary_calldataload : Stationary (calldataload face) := by
  refine Stationary.bind (stationary_item 0) fun a => stationary_ite ?_ ?_
  · exact Stationary.bind (stationary_slice _ _ _) fun b => stationary_pure _
  · exact stationary_ite (stationary_pure _) (stationary_pure _)

theorem stationary_copyDataToMemory (data : Bytes) (k : ℕ) :
    Stationary (copyDataToMemory data k : Exec W Unit) := by
  refine Stationary.bind (stationary_item k) fun a => ?_
  refine Stationary.bind (stationary_item _) fun bigIndex => ?_
  refine Stationary.bind (stationary_item _) fun n => ?_
  refine Stationary.bind (stationary_slice _ _ _) fun b => ?_
  exact Stationary.bind (stationary_memWrite _ _) fun _ => stationary_memWrite _ _

theorem stationary_topics (n : ℕ) : Stationary (topics n : Exec W (List Word)) := by
  induction n with
  | zero => exact stationary_pure _
  | succ n ih =>
    refine Stationary.bind ih fun ts => ?_
    exact Stationary.bind (stationary_item _) fun t => stationary_pure _

theorem stationary_outputCase : Stationary (outputCase face) := by
  refine Stationary.bind (stationary_modify (fun _ _ => rfl) fun _ => rfl) fun _ => ?_
  refine Stationary.bind (stationary_item 0) fun offset => ?_
  refine Stationary.bind (stationary_item 1) fun size => ?_
  refine Stationary.bind (stationary_memNeed _ _) fun need => ?_
  refine Stationary.bind (stationary_updateMem need) fun _ => ?_
  refine Stationary.bind stationary_updateIOGas fun _ => ?_
  refine Stationary.bind (stationary_memSlice _ _) fun b => ?_
  exact Stationary.bind (stationary_modify (fun _ _ => rfl) fun _ => rfl) fun _ => stationary_pure b

end Parts

section Cases

theorem nexts_ordinary {e : Exec W Word} (he : Stationary e) : Nexts (ordinary e) := by
  refine stationary_updateIOGas.nexts fun _ => ?_
  refine he.nexts fun w => ?_
  exact (stationary_setTop w).nexts fun _ => nexts_nextPC

theorem nexts_priced (gas : ℕ) {e : Exec W Word} (he : Stationary e) : Nexts (priced gas e) := by
  refine (stationary_toInt63 gas).nexts fun gas => ?_
  exact (stationary_setRunGas gas).nexts fun _ => nexts_ordinary he

theorem nexts_copyCase (k : ℕ) {data : Exec W Bytes} (hdata : Stationary data) :
    Nexts (copyCase face k data) := by
  refine (stationary_item (k + 2)).nexts fun n => ?_
  refine (stationary_toInt63 _).nexts fun copy => ?_
  refine Stationary.nexts (stationary_modify (fun _ _ => rfl) fun _ => rfl) fun _ => ?_
  refine (stationary_item k).nexts fun a => ?_
  refine (stationary_memNeed a n).nexts fun need => ?_
  refine (stationary_updateMem need).nexts fun _ => ?_
  refine stationary_updateIOGas.nexts fun _ => ?_
  refine hdata.nexts fun b => ?_
  exact (stationary_copyDataToMemory b k).nexts fun _ => nexts_nextPC

theorem nexts_mload : Nexts (mload face) := by
  refine (stationary_item 0).nexts fun a => ?_
  refine (stationary_toInt63 _).nexts fun offset => ?_
  refine (stationary_updateMem _).nexts fun _ => ?_
  refine stationary_updateIOGas.nexts fun _ => ?_
  refine (stationary_memSlice _ _).nexts fun b => ?_
  exact (stationary_setTop _).nexts fun _ => nexts_nextPC

theorem nexts_mstore : Nexts (mstore face) := by
  refine (stationary_item 0).nexts fun a => ?_
  refine (stationary_toInt63 _).nexts fun offset => ?_
  refine (stationary_updateMem _).nexts fun _ => ?_
  refine stationary_updateIOGas.nexts fun _ => ?_
  refine (stationary_item 1).nexts fun w => ?_
  exact (stationary_memWrite _ _).nexts fun _ => nexts_nextPC

theorem nexts_mstore8 : Nexts (mstore8 face) := by
  refine (stationary_item 0).nexts fun a => ?_
  refine (stationary_toInt63 _).nexts fun offset => ?_
  refine (stationary_updateMem _).nexts fun _ => ?_
  refine stationary_updateIOGas.nexts fun _ => ?_
  refine (stationary_item 1).nexts fun w => ?_
  exact (stationary_memWrite _ _).nexts fun _ => nexts_nextPC

theorem nexts_sha3Case : Nexts (sha3Case sha3 face) := by
  refine (stationary_item 1).nexts fun size => ?_
  refine (stationary_toInt63 _).nexts fun gas => ?_
  refine (stationary_setRunGas gas).nexts fun _ => ?_
  refine (stationary_item 0).nexts fun offset => ?_
  refine (stationary_memNeed offset size).nexts fun need => ?_
  refine (stationary_updateMem need).nexts fun _ => ?_
  refine stationary_updateIOGas.nexts fun _ => ?_
  refine (stationary_memSlice _ _).nexts fun b => ?_
  exact (stationary_setTop _).nexts fun _ => nexts_nextPC

theorem nexts_logCase (n : ℕ) : Nexts (logCase face n) := by
  refine (stationary_logGasMem n).nexts fun _ => ?_
  refine stationary_updateIOGas.nexts fun _ => ?_
  refine (stationary_item 0).nexts fun offset => ?_
  refine (stationary_item 1).nexts fun size => ?_
  refine (stationary_topics n).nexts fun ts => ?_
  refine (stationary_memSlice _ _).nexts fun b => ?_
  exact Stationary.nexts (stationary_modify (fun _ _ => rfl) fun _ => rfl) fun _ => nexts_nextPC

theorem nexts_expCase : Nexts (expCase face) :=
  (stationary_item 1).nexts fun _ => nexts_priced _ (stationary_binary exp256)

theorem nexts_sstore : Nexts (sstore face) := by
  have hprice : ∀ price, Stationary (do
      let gas ← toInt63 price
      setRunGas gas : Exec W Unit) := fun price =>
    (stationary_toInt63 price).bind stationary_setRunGas
  refine nexts_get (fun _ _ => rfl) fun s => ?_
  refine (stationary_item 0).nexts fun key => ?_
  refine (stationary_item 1).nexts fun w => ?_
  refine (stationary_ite (hprice _) (stationary_ite ?_ (hprice _))).nexts fun _ => ?_
  · refine (stationary_toInt63 _).bind fun gas => ?_
    refine (stationary_setRunGas gas).bind fun _ => ?_
    exact stationary_modify (fun _ _ => rfl) fun _ => rfl
  · refine stationary_updateIOGas.nexts fun _ => ?_
    exact Stationary.nexts (stationary_modify (fun _ _ => rfl) fun _ => rfl) fun _ => nexts_nextPC

theorem nexts_swapCase (n : ℕ) : Nexts (swapCase n : Exec W Bounce) := by
  refine stationary_updateIOGas.nexts fun _ => ?_
  refine (stationary_item 0).nexts fun a => ?_
  refine (stationary_item n).nexts fun b => ?_
  exact Stationary.nexts (stationary_modify (fun _ _ => rfl) fun _ => rfl) fun _ => nexts_nextPC

/-- The cases that end with `NEXT`. -/
def endsWithNext : Instruction → Bool
  | .MLOAD | .MSTORE | .MSTORE8 | .SHA3 | .LOG _ | .EXP => true
  | .ADD | .MUL | .SUB | .DIV | .SDIV | .MOD | .SMOD | .NOT | .LT | .GT | .SLT | .SGT | .EQ => true
  | .ISZERO | .AND | .OR | .XOR | .BYTE | .ADDMOD | .MULMOD | .SIGNEXTEND => true
  | .ADDRESS | .ORIGIN | .BALANCE | .CALLER | .CALLVALUE | .CALLDATALOAD | .CALLDATASIZE => true
  | .CODESIZE | .EXTCODESIZE | .CALLDATACOPY | .CODECOPY | .EXTCODECOPY => true
  | .GASPRICE | .BLOCKHASH | .COINBASE | .TIMESTAMP | .NUMBER | .DIFFICULTY | .GASLIMIT => true
  | .POP | .DUP _ | .SWAP _ | .SLOAD | .SSTORE | .PC | .MSIZE | .GAS | .JUMPDEST => true
  | _ => false

theorem nexts_interpretCase {op : Instruction} (h : endsWithNext op = true) :
    Nexts (interpretCase sha3 face (some op)) := by
  cases op with
  | MLOAD => exact nexts_mload
  | MSTORE => exact nexts_mstore
  | MSTORE8 => exact nexts_mstore8
  | SHA3 => exact nexts_sha3Case
  | LOG n => exact nexts_logCase n.val
  | EXP => exact nexts_expCase
  | ADDMOD => exact nexts_ordinary (stationary_ternary _)
  | MULMOD => exact nexts_ordinary (stationary_ternary _)
  | NOT => exact nexts_ordinary (stationary_unary fun _ _ => rfl)
  | ISZERO => exact nexts_ordinary (stationary_unary fun _ _ => rfl)
  | BLOCKHASH => exact nexts_ordinary (stationary_unary fun _ _ => rfl)
  | CALLDATALOAD => exact nexts_ordinary stationary_calldataload
  | BALANCE => exact nexts_priced _ (stationary_unary fun _ _ => rfl)
  | EXTCODESIZE => exact nexts_priced _ (stationary_unary fun _ _ => rfl)
  | SLOAD => exact nexts_priced _ (stationary_unary fun _ _ => rfl)
  | CALLDATACOPY => exact nexts_copyCase 0 (stationary_pure _)
  | CODECOPY => exact nexts_copyCase 0 (stationary_pure _)
  | EXTCODECOPY =>
    refine (stationary_toInt63 _).nexts fun gas => ?_
    refine (stationary_setRunGas gas).nexts fun _ => nexts_copyCase 1 ?_
    refine stationary_get (fun _ _ => rfl) fun s => ?_
    exact (stationary_item 0).bind fun a => stationary_pure _
  | POP => exact stationary_updateIOGas.nexts fun _ => nexts_nextPC
  | DUP n => exact nexts_ordinary (stationary_item _)
  | SWAP n => exact nexts_swapCase _
  | SSTORE => exact nexts_sstore
  | JUMPDEST =>
    refine (stationary_setRunGas 1).nexts fun _ => ?_
    exact stationary_updateIOGas.nexts fun _ => nexts_nextPC
  | _ =>
    first
      | exact Bool.noConfusion (show false = true from h)
      | exact nexts_ordinary (stationary_nullary fun _ _ => rfl)
      | exact nexts_ordinary (stationary_binary _)

end Cases

section Steps

/-- Where the machine goes after a case; tells whether it goes on. -/
def trampoline (face : ExtVMFace W) (op : Option Instruction) : Bounce → Exec W Bool
  | .interpretCases => pure true
  | .caseCreate => do
    caseCreate face
    pure true
  | .caseCall => do
    caseCall face (op.getD .CALL)
    pure true
  | .stop => pure false

theorem step_of_fetch {op : Option Instruction} {t : VM W}
    (h : fetchInstruction face stray s = .ok op t) :
    step sha3 face stray s = (interpretCase sha3 face op >>= trampoline face op) t := bind_ok h

theorem stationary_verifyJumpDest (dest : Word) : Stationary (verifyJumpDest dest : Exec W ℕ) := by
  refine stationary_get (fun _ _ => rfl) fun s => ?_
  exact stationary_ite (stationary_pure _) (stationary_throw _)

theorem blind_jump : Blind (jump : Exec W Bounce) := by
  refine stationary_updateIOGas.blind.bind fun _ => ?_
  refine (stationary_item 0).blind.bind fun a => ?_
  refine (stationary_verifyJumpDest a).blind.bind fun pc => ?_
  exact Blind.bind (blind_modify fun _ _ => rfl) fun _ => blind_pure _

theorem blind_jumpi : Blind (jumpi : Exec W Bounce) := by
  refine stationary_updateIOGas.blind.bind fun _ => ?_
  refine (stationary_item 1).blind.bind fun condition => blind_ite ?_ nexts_nextPC.blind
  refine (stationary_item 0).blind.bind fun a => ?_
  refine (stationary_verifyJumpDest a).blind.bind fun pc => ?_
  exact Blind.bind (blind_modify fun _ _ => rfl) fun _ => blind_pure _

theorem blind_suicideCase : Blind (suicideCase face) := by
  refine (stationary_toInt63 _).blind.bind fun gas => ?_
  refine (stationary_setRunGas gas).blind.bind fun _ => ?_
  refine (stationary_item 0).blind.bind fun a => ?_
  refine Blind.bind (blind_modify fun s c => ?_) fun _ => ?_
  · rw [apply_ite (withCode c)]
    rfl
  · refine stationary_updateIOGas.blind.bind fun _ => ?_
    exact Blind.bind (blind_modify fun _ _ => rfl) fun _ => blind_pure _

/-- Only the pushes read the code. -/
theorem blind_interpretCase {op : Option Instruction} (h : ∀ n, op ≠ some (.PUSH n)) :
    Blind (interpretCase sha3 face op) := by
  cases op with
  | none => exact blind_throw _
  | some op =>
    by_cases hnext : endsWithNext op = true
    · exact (nexts_interpretCase hnext).blind
    cases op with
    | CREATE => exact blind_pure _
    | CALL => exact blind_pure _
    | CALLCODE => exact blind_pure _
    | DELEGATECALL => exact blind_ite (blind_pure _) (blind_throw _)
    | RETURN =>
      refine stationary_outputCase.blind.bind fun b => ?_
      exact Blind.bind (blind_modify fun _ _ => rfl) fun _ => blind_pure _
    | REVERT =>
      exact blind_ite (stationary_outputCase.blind.bind fun b => blind_throw _) (blind_throw _)
    | SUICIDE => exact blind_suicideCase
    | STOP => exact stationary_updateIOGas.blind.bind fun _ => blind_pure _
    | JUMP => exact blind_jump
    | JUMPI => exact blind_jumpi
    | PUSH n => exact absurd rfl (h n)
    | _ => first | exact blind_throw _ | exact absurd rfl hnext

theorem blind_caseCreate : Blind (caseCreate face) := by
  refine (stationary_toInt63 _).blind.bind fun gas => ?_
  refine (stationary_setRunGas gas).blind.bind fun _ => ?_
  refine (stationary_item 1).blind.bind fun initOff => ?_
  refine (stationary_item 2).blind.bind fun initSize => ?_
  refine (stationary_memNeed _ _).blind.bind fun need => ?_
  refine (stationary_updateMem need).blind.bind fun _ => ?_
  refine stationary_updateIOGas.blind.bind fun _ => ?_
  refine (stationary_item 0).blind.bind fun endowment => ?_
  refine blind_get (fun _ _ => rfl) fun s => ?_
  refine Blind.bind (blind_ite ?_ (stationary_setTop 0).blind) fun _ => blind_modify fun _ _ => rfl
  refine (stationary_memSlice _ _).blind.bind fun b => ?_
  refine Blind.bind (blind_modify fun _ _ => rfl) fun _ => (stationary_setTop _).blind

theorem blind_caseCallSetup (op : Instruction) : Blind (caseCallSetup face op) := by
  refine (stationary_toInt63 _).blind.bind fun gas => ?_
  refine (stationary_setRunGas gas).blind.bind fun _ => ?_
  refine (stationary_item 1).blind.bind fun a => ?_
  refine (stationary_item 2).blind.bind fun w => ?_
  refine blind_get (fun _ _ => rfl) fun s => ?_
  refine Blind.bind (blind_ite ?_ (blind_pure _)) fun _ => ?_
  · exact (stationary_toInt63 _).blind.bind fun gas => blind_modify fun _ _ => rfl
  refine Blind.bind (blind_ite ?_ (blind_pure _)) fun _ => ?_
  · exact (stationary_toInt63 _).blind.bind fun gas => blind_modify fun _ _ => rfl
  refine (stationary_item _).blind.bind fun inputOffset => ?_
  refine (stationary_item _).blind.bind fun inputSize => ?_
  refine (stationary_item _).blind.bind fun outputOffset => ?_
  refine (stationary_item _).blind.bind fun outputSize => ?_
  refine (stationary_memNeed _ _).blind.bind fun inputMemNeed => ?_
  refine (stationary_memNeed _ _).blind.bind fun outputMemNeed => ?_
  refine (stationary_updateMem _).blind.bind fun _ => ?_
  refine stationary_updateIOGas.blind.bind fun _ => ?_
  refine (stationary_item 0).blind.bind fun requested => ?_
  refine blind_get (fun _ _ => rfl) fun s => ?_
  refine (stationary_toInt63 _).blind.bind fun gas => ?_
  refine (stationary_setRunGas gas).blind.bind fun _ => ?_
  refine stationary_updateIOGas.blind.bind fun _ => ?_
  refine blind_get (fun _ _ => rfl) fun s => ?_
  refine Blind.bind (blind_ite (stationary_memSlice _ _).blind (blind_pure _)) fun data => ?_
  exact blind_pure _

theorem blind_caseCall (op : Instruction) : Blind (caseCall face op) := by
  refine (blind_caseCallSetup op).bind fun setup => ?_
  refine Blind.bind (blind_ite ?_ ?_) fun _ => blind_modify fun _ _ => rfl
  · refine blind_get (fun _ _ => rfl) fun s => ?_
    refine Blind.bind (blind_modify fun _ _ => rfl) fun _ => ?_
    refine (stationary_memWrite _ _).blind.bind fun _ => ?_
    refine (stationary_setTop _).blind.bind fun _ => ?_
    exact blind_modify fun _ _ => rfl
  · exact (stationary_setTop _).blind.bind fun _ => blind_modify fun _ _ => rfl

theorem blind_trampoline (op : Option Instruction) (bounce : Bounce) :
    Blind (trampoline face op bounce) := by
  cases bounce with
  | interpretCases => exact blind_pure _
  | caseCreate => exact blind_caseCreate.bind fun _ => blind_pure _
  | caseCall => exact (blind_caseCall _).bind fun _ => blind_pure _
  | stop => exact blind_pure _

/-- What a run leaves: the exception if there is one, the output, the gas and the world. -/
def outcome : EStateM.Result VMException (VM W) Unit → Option VMException × Bytes × ℕ × W
  | .ok _ s => (none, s.output, s.ioGas, s.ext)
  | .error e s => (some e, [], s.ioGas, s.ext)

theorem outcome_mapState (c : Bytes) (r : EStateM.Result VMException (VM W) Unit) :
    outcome (mapState (withCode c) r) = outcome r := by
  cases r <;> rfl

end Steps

end VM
end XChain
