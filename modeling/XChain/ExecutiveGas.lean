import XChain.ExecutiveFrames

/-!
# The gas of a transaction

An accepted transaction has gas for its base price, and what is left is the budget of its
frame. A precompiled contract, the machine or the deposit for new code spends from the
budget, the refund gives back at most half of what was used, and the rest is paid back.
The machine may end in any way, with any gas that is not more than it was given.
-/
namespace XChain
namespace Executive

open Machine

variable {S : Type}

/-- Code that is run with some gas: how it ends, if it does. -/
abbrev Runner (S : Type) :=
  ExtVMFace (S × SubState) → Word → S × SubState →
    Option (EStateM.Result VMException (VM (S × SubState)) Unit)

/-- The machine of the execution. -/
def interpreter (h : Host S) : Runner S := fun face gas w =>
  VM.exec h.sha3 face h.stray (gas.toNat + 1) gas w

/-- No end leaves more gas than was given. -/
structure Frugal (h : Host S) (env : EnvInfo) (runner : Runner S) : Prop where
  ok : ∀ p gas w vm, runner (h.extVM env p) gas w = some (.ok () vm) → vm.ioGas ≤ gas.toNat
  error : ∀ p gas w x vm, runner (h.extVM env p) gas w = some (.error x vm) →
    vm.ioGas ≤ gas.toNat

theorem interpreter_frugal {h : Host S} {env : EnvInfo}
    (hmetered : ∀ p, VM.Metered (h.extVM env p)) : Frugal h env (interpreter h) :=
  ⟨fun p _ _ vm hrun => (VM.exec_ioGas_le (hmetered p) hrun).1 vm rfl,
    fun p _ _ x vm hrun => (VM.exec_ioGas_le (hmetered p) hrun).2 x vm rfl⟩

section Phases

variable (h : Host S) (e : SealEngine) (env : EnvInfo) (t : Transaction) (runner : Runner S)

/-- `go`, with any machine. -/
def goWith : Exec S Unit := do
  let ex ← get
  match ex.ext with
  | none => pure ()
  | some (face, a, sub) =>
    match runner face ex.gas (ex.state, sub) with
    | none => throw .unfinished
    | some (.ok () vm) => do
      takeOver vm
      if ex.isCreation then deposit h face.evmSchedule a vm.output
      else modify fun ex => { ex with output := vm.output }
    | some (.error (.RevertInstruction output) vm) => do
      takeOver vm
      revert h
      modify fun ex => { ex with output := output, excepted := .RevertInstruction }
    | some (.error x vm) => do
      takeOver vm
      vmFailure h (toTransactionException x)

theorem goWith_interpreter : goWith h (interpreter h) = go h := rfl

/-- The frame of a transaction. -/
def frameOf (sender : Address) (gas : Word) : Frame :=
  if t.isCreation then .create sender t.value t.gasPrice gas t.data sender
  else .call
    { senderAddress := sender, codeAddress := t.receiveAddress, receiveAddress := t.receiveAddress,
      valueTransfer := t.value, apparentValue := t.value, gas := gas, data := t.data }
    t.gasPrice sender

/-- `execute`, where balances wrap. -/
def executeFrame : Exec S Bool := do
  let sender ← senderOf h t
  let ex ← get
  subBalance h.state sender ex.gasCost
  enter h e env t 0 (frameOf t sender (t.gas - BitVec.ofNat 256 ex.baseGasRequired))

/-- `finalize`, where balances wrap. -/
def finalizeFrame : Exec S Unit := do
  modify fun ex => { ex with refunded := refund t ex, gas := ex.gas + refund t ex }
  let ex ← get
  (if ¬ t.isNull then do
    let sender ← senderOf h t
    changeState fun s => h.state.addBalance s sender (ex.gas * t.gasPrice)
    changeState fun s => h.state.addBalance s env.author ((t.gas - ex.gas) * t.gasPrice)
  else pure ())
  modify fun ex => { ex with
    state := (ex.ext.map fun x => x.2.2.suicides).getD [] |>.foldl h.state.kill ex.state
    logs := (ex.ext.map fun x => x.2.2.logs).getD ex.logs }

/-- An accepted transaction is run and settled. -/
def runAccepted : Exec S Unit := do
  let done ← executeFrame h e env t
  (if done then pure () else goWith h runner)
  finalizeFrame h env t

/-- The gas that a transaction has used. -/
def gasUsed (ex : Executive S) : Word := t.gas - ex.gas

end Phases

section Wrapping

theorem addBalance_orWraps (m : StateFace S) (a : Address) (v : Word) :
    OrWraps (addBalance m a v) (changeState fun s => m.addBalance s a v) := by
  intro ex
  by_cases hlt : (m.balance ex.state a).toNat + v.toNat < 2 ^ 256
  · exact Or.inl (by
      show (if _ then _ else _ : Exec S Unit) ex = _
      rw [if_pos hlt]
      rfl)
  · exact Or.inr ⟨ex, by
      show (if _ then _ else _ : Exec S Unit) ex = _
      rw [if_neg hlt]
      rfl⟩

theorem execute_orWraps (h : Host S) (e : SealEngine) (env : EnvInfo) (t : Transaction) :
    OrWraps (execute h e env t) (executeFrame h e env t) := by
  unfold execute executeFrame
  refine (OrWraps.refl _).bind fun sender => (OrWraps.refl _).bind fun ex =>
    (OrWraps.refl _).bind fun _ => ?_
  by_cases hcreation : t.isCreation
  · rw [if_pos hcreation, frameOf, if_pos hcreation]
    exact create_orWraps h e env t sender _
  · rw [if_neg hcreation, frameOf, if_neg hcreation]
    exact call_orWraps h e env t t.receiveAddress sender _

theorem finalize_orWraps (h : Host S) (env : EnvInfo) (t : Transaction) :
    OrWraps (finalize h env t) (finalizeFrame h env t) := by
  unfold finalize finalizeFrame
  refine (OrWraps.refl _).bind fun _ => (OrWraps.refl _).bind fun ex =>
    OrWraps.bind (OrWraps.ite ?_ (OrWraps.refl _)) fun _ => OrWraps.refl _
  exact (OrWraps.refl _).bind fun _ => (addBalance_orWraps _ _ _).bind fun _ =>
    addBalance_orWraps _ _ _

/-- A transaction is what runs after its acceptance, or a balance wraps. -/
theorem transact_orWraps (h : Host S) (e : SealEngine) (env : EnvInfo) (t : Transaction) :
    OrWraps (transact h e env t) (do
      initializeTransaction h e env t
      runAccepted h e env t (interpreter h)) := by
  unfold transact runAccepted
  refine (OrWraps.refl _).bind fun _ => (execute_orWraps h e env t).bind fun done => ?_
  rw [goWith_interpreter]
  exact (OrWraps.refl _).bind fun _ => finalize_orWraps h env t

end Wrapping

section Spending

variable {h : Host S} {e : SealEngine} {env : EnvInfo} {t : Transaction} {runner : Runner S}
  {ex : Executive S} {depth : ℕ}

/-- The ways in which a budget is spent, with what is left of it and the deposit that was
charged for new code. -/
inductive Spends (h : Host S) (e : SealEngine) (env : EnvInfo) (runner : Runner S)
    (budget : Word) : ℕ → ℕ → Prop where
  | idle : Spends h e env runner budget budget.toNat 0
  | precompiled {a : Address} {data : Bytes} (hcost : e.precompiledCost a data ≤ budget.toNat) :
    Spends h e env runner budget (budget.toNat - e.precompiledCost a data) 0
  | failed : Spends h e env runner budget 0 0
  | ran {p : ExtVMParams} {w : S × SubState} {vm : VM (S × SubState)}
    (hrun : runner (h.extVM env p) budget w = some (.ok () vm)) :
    Spends h e env runner budget vm.ioGas 0
  | reverted {p : ExtVMParams} {w : S × SubState} {vm : VM (S × SubState)} {output : Bytes}
    (hrun : runner (h.extVM env p) budget w = some (.error (.RevertInstruction output) vm)) :
    Spends h e env runner budget vm.ioGas 0
  | deposited {p : ExtVMParams} {w : S × SubState} {vm : VM (S × SubState)}
    (hrun : runner (h.extVM env p) budget w = some (.ok () vm))
    (hafford : vm.output.length * (h.extVM env p).evmSchedule.createDataGas ≤ vm.ioGas) :
    Spends h e env runner budget
      (vm.ioGas - vm.output.length * (h.extVM env p).evmSchedule.createDataGas)
      (vm.output.length * (h.extVM env p).evmSchedule.createDataGas)

/-- What is left and the deposit come from the budget. -/
theorem Spends.le (hfrugal : Frugal h env runner) {budget : Word} {left deposit : ℕ}
    (hspends : Spends h e env runner budget left deposit) : left + deposit ≤ budget.toNat := by
  cases hspends with
  | idle => exact Nat.le_refl _
  | precompiled hcost => exact Nat.sub_le _ _
  | failed => exact Nat.zero_le _
  | ran hrun => exact hfrugal.ok _ _ _ _ hrun
  | reverted hrun => exact hfrugal.error _ _ _ _ _ hrun
  | deposited hrun hafford =>
    rw [Nat.sub_add_cancel hafford]
    exact hfrugal.ok _ _ _ _ hrun

/-- The gas after the machine. -/
def Spent (h : Host S) (e : SealEngine) (env : EnvInfo) (runner : Runner S) (budget : Word)
    (ex : Executive S) : Prop :=
  ∃ deposit, Spends h e env runner budget ex.gas.toNat deposit

/-- The gas before the machine: all of the budget, if there is code to run. -/
structure Granted (h : Host S) (e : SealEngine) (env : EnvInfo) (runner : Runner S)
    (budget : Word) (ex : Executive S) : Prop where
  done : ex.ext = none → Spent h e env runner budget ex
  coded : ∀ x, ex.ext = some x → (∃ p, x.1 = h.extVM env p) ∧ ex.gas = budget

def Frame.gas : Frame → Word
  | .call p _ _ => p.gas
  | .create _ _ _ gas _ _ => gas

theorem ofNat_toNat_of_le {n : ℕ} {w : Word} (hle : n ≤ w.toNat) :
    (BitVec.ofNat 256 n).toNat = n := by
  rw [BitVec.toNat_ofNat]
  exact Nat.mod_eq_of_lt (hle.trans_lt w.isLt)

/-- There is nothing to run on the budget. -/
theorem granted_idle {budget : Word} (hgas : ex.gas = budget) (hext : ex.ext = none) :
    Granted h e env runner budget ex := by
  subst hgas
  refine ⟨fun _ => ⟨0, .idle⟩, fun x hx => ?_⟩
  rw [hext] at hx
  cases hx

/-- The value moves, and the gas stays what it was. -/
theorem moveValue_granted {a b : Address} {v budget : Word} (hex : Granted h e env runner budget ex)
    (hle : ex.gas ≤ budget) :
    Runs (do
      moveValue h.state a b v
      let ex ← get
      pure ex.ext.isNone) ex
      (fun done ex' => Granted h e env runner budget ex' ∧ (done = true → ex'.ext = none))
      fun _ ex' => ex'.gas ≤ budget := by
  refine runs_bind (runs_moveValue (fun s _ => runs_bind (runs_get (runs_pure ⟨?_, ?_⟩))) fun _ => hle)
  · exact ⟨hex.done, hex.coded⟩
  · exact fun hdone => Option.isNone_iff_eq_none.mp hdone

theorem callMessage_gas (runner : Runner S) (hgas : ex.gas = 0) (hext : ex.ext = none)
    (p : CallParameters) (gasPrice : Word) (origin : Address) :
    Runs (callMessage h e env t depth p gasPrice origin) ex
      (fun done ex' => Granted h e env runner p.gas ex' ∧ (done = true → ex'.ext = none))
      fun _ ex' => ex'.gas ≤ p.gas := by
  have hfailed : ∀ ex' : Executive S, ex'.gas = 0 → ex'.ext = none →
      Granted h e env runner p.gas ex' := by
    intro ex' hgas' hext'
    refine ⟨fun _ => ⟨0, ?_⟩, fun x hx => ?_⟩
    · rw [hgas']
      exact .failed
    · rw [hext'] at hx
      cases hx
  unfold callMessage
  refine runs_bind (runs_incNonce (runs_bind (runs_modify (runs_ite (fun _ => ?_) fun hcost => ?_))))
  · refine runs_bind (runs_modify (runs_bind (runs_ite (fun _ => ?_) fun _ => ?_)))
    · refine runs_bind (runs_get (runs_ite (fun _ => ?_) fun _ => ?_))
      · exact runs_set (runs_pure ⟨hfailed _ hgas hext, fun _ => hext⟩)
      · refine runs_throw ?_
        show ex.gas ≤ _
        rw [hgas]
        exact zero_le_word _
    · exact runs_pure (runs_pure ⟨hfailed _ hgas hext, fun _ => hext⟩)
  · refine runs_bind (runs_ite (fun hpre => runs_modify ?_) fun _ => runs_bind (runs_modify ?_))
    · have hle : e.precompiledCost p.codeAddress p.data ≤ p.gas.toNat :=
        not_lt.mp fun hlt => hcost ⟨hpre, hlt⟩
      have hleft := ofNat_toNat_of_le
        (Nat.sub_le p.gas.toNat (e.precompiledCost p.codeAddress p.data))
      cases hsuccess : (e.precompiledExecute p.codeAddress p.data).1 with
      | true =>
        refine moveValue_granted ⟨fun _ => ⟨0, ?_⟩, fun x hx => ?_⟩ ?_
        · simp only [if_true, hleft]
          exact .precompiled hle
        · rw [hext] at hx
          cases hx
        · simp only [if_true, BitVec.le_def, hleft]
          exact Nat.sub_le _ _
      | false =>
        refine moveValue_granted (hfailed _ ?_ hext) ?_
        · simp only [Bool.false_eq_true, if_false]
        · simp only [Bool.false_eq_true, if_false]
          exact zero_le_word _
    · refine runs_bind (runs_get (runs_ite (fun _ => runs_modify ?_) fun _ => runs_pure ?_))
      · refine moveValue_granted ⟨fun hn => (by cases hn), fun x hx => ?_⟩ (BitVec.le_refl _)
        obtain rfl := Option.some.inj hx
        exact ⟨⟨_, rfl⟩, rfl⟩
      · exact moveValue_granted (granted_idle rfl hext) (BitVec.le_refl _)

theorem createContract_gas (runner : Runner S) (hext : ex.ext = none) (sender : Address)
    (endowment gasPrice gas : Word) (init : Bytes) (origin : Address) :
    Runs (createContract h e env depth sender endowment gasPrice gas init origin) ex
      (fun done ex' => Granted h e env runner gas ex' ∧ (done = true → ex'.ext = none))
      fun _ ex' => ex'.gas ≤ gas := by
  unfold createContract
  refine runs_bind (runs_get (runs_bind (runs_incNonce (runs_bind (runs_modify (runs_bind
    (runs_modify (runs_bind (runs_moveValue (fun s _ => ?_) fun _ => BitVec.le_refl gas)))))))))
  refine runs_bind (runs_incNonce (runs_bind (runs_get (runs_bind (runs_ite (fun _ => ?_) fun _ =>
    runs_ite (fun _ => ?_) fun _ => ?_)))))
  · refine runs_modify (runs_bind (runs_get (runs_pure ⟨⟨fun hn => ?_, fun x hx => ?_⟩, fun hn => ?_⟩)))
    · cases hn
    · obtain rfl := Option.some.inj hx
      exact ⟨⟨_, rfl⟩, rfl⟩
    · cases hn
  · exact runs_modify (runs_bind (runs_get (runs_pure ⟨granted_idle rfl hext, fun _ => hext⟩)))
  · exact runs_pure (runs_bind (runs_get (runs_pure ⟨granted_idle rfl hext, fun _ => hext⟩)))

theorem enter_gas (runner : Runner S) (hgas : ex.gas = 0) (hext : ex.ext = none) (f : Frame) :
    Runs (enter h e env t depth f) ex
      (fun done ex' => Granted h e env runner f.gas ex' ∧ (done = true → ex'.ext = none))
      fun _ ex' => ex'.gas ≤ f.gas := by
  cases f with
  | call p gasPrice origin => exact callMessage_gas runner hgas hext p gasPrice origin
  | create sender endowment gasPrice gas init origin =>
    exact createContract_gas runner hext sender endowment gasPrice gas init origin

/-- The machine runs on the whole budget. -/
theorem Granted.goWith (hfrugal : Frugal h env runner) {budget : Word}
    (hex : Granted h e env runner budget ex) (hle : ex.gas ≤ budget) :
    Runs (goWith h runner) ex (fun _ ex' => Spent h e env runner budget ex')
      fun _ ex' => ex'.gas ≤ budget := by
  have hfailed : ∀ (x : TransactionException) (ex' : Executive S),
      Runs (vmFailure h x) ex' (fun _ ex'' => Spent h e env runner budget ex'')
        fun _ ex'' => ex''.gas ≤ budget := fun x ex' =>
    runs_bind (runs_modify (runs_modify ⟨0, .failed⟩))
  unfold Executive.goWith
  refine runs_bind (runs_get ?_)
  cases hx : ex.ext with
  | none => exact runs_pure (hex.done hx)
  | some x =>
    obtain ⟨face, a, sub⟩ := x
    obtain ⟨⟨p, hface⟩, hgas⟩ := hex.coded _ hx
    obtain rfl : face = h.extVM env p := hface
    dsimp only
    rw [hgas]
    cases hrun : runner (h.extVM env p) budget (ex.state, sub) with
    | none => exact runs_throw hle
    | some r =>
      cases r with
      | ok u vm =>
        have hleft := ofNat_toNat_of_le (hfrugal.ok _ _ _ _ hrun)
        refine runs_bind (runs_modify (runs_ite (fun _ => ?_) fun _ => ?_))
        · unfold deposit
          refine runs_bind (runs_get (runs_ite (fun _ => hfailed _ _) fun _ =>
            runs_ite (fun hafford => ?_) fun _ => runs_ite (fun _ => hfailed _ _) fun _ => ?_))
          · refine runs_bind (runs_modify (runs_modify
              ⟨vm.output.length * (h.extVM env p).evmSchedule.createDataGas, ?_⟩))
            have hafford' : vm.output.length * (h.extVM env p).evmSchedule.createDataGas ≤
                (BitVec.ofNat 256 vm.ioGas).toNat := hafford
            have hcost := ofNat_toNat_of_le hafford'
            have hle' := BitVec.le_def.mpr (hcost.le.trans hafford')
            simp only [BitVec.toNat_sub_of_le hle', hcost, hleft]
            exact .deposited hrun (hleft ▸ hafford')
          · refine runs_modify ⟨0, ?_⟩
            simp only [hleft]
            exact .ran hrun
        · refine runs_modify ⟨0, ?_⟩
          simp only [hleft]
          exact .ran hrun
      | error x vm =>
        have hleft := ofNat_toNat_of_le (hfrugal.error _ _ _ _ _ hrun)
        cases x with
        | RevertInstruction output =>
          refine runs_bind (runs_modify (runs_bind (runs_modify (runs_modify ⟨0, ?_⟩))))
          simp only [hleft]
          exact .reverted hrun
        | _ => exact runs_bind (runs_modify (hfailed _ _))

end Spending

section Accounting

variable {h : Host S} {e : SealEngine} {env : EnvInfo} {t : Transaction} {runner : Runner S}
  {ex : Executive S}

/-- An execution whose transaction has been accepted: nothing is spent yet, and there is gas
for the base price in the transaction and for the transaction in the block. -/
structure Admitted (e : SealEngine) (env : EnvInfo) (t : Transaction) (ex : Executive S) :
    Prop where
  fresh : Fresh ex
  gas : ex.gas = 0
  base : ex.baseGasRequired = t.baseGasRequired (e.evmSchedule env.number)
  base_le : t.baseGasRequired (e.evmSchedule env.number) ≤ t.gas.toNat
  fits : env.gasUsed.toNat + t.gas.toNat ≤ env.gasLimit.toNat

theorem runs_unless {c : Prop} [Decidable c] {x : TransactionException} {err : ExecutiveError}
    {Q : Unit → Executive S → Prop} (hQ : ¬ c → Q () ex) :
    Runs (if c then fail x err else pure ()) ex Q fun _ _ => True :=
  runs_ite (fun _ => runs_bind (runs_modify (runs_throw trivial))) fun hc => runs_pure (hQ hc)

theorem initialize_admits (h : Host S) (e : SealEngine) (env : EnvInfo) (t : Transaction) (s : S) :
    Runs (initializeTransaction h e env t) (start s) (fun _ ex => Admitted e env t ex)
      fun _ _ => True := by
  unfold initializeTransaction verifyTransaction
  refine runs_bind (runs_bind (runs_unless fun _ => runs_bind (runs_unless fun _ =>
    runs_unless fun _ => ?_)))
  refine runs_bind (runs_unless fun hfits => runs_bind (runs_modify (runs_bind
    (runs_unless fun hbase => runs_ite (fun _ => runs_pure ?_) fun _ => ?_))))
  · exact ⟨⟨rfl, rfl⟩, rfl, rfl, not_lt.mp hbase, not_lt.mp hfits⟩
  · unfold senderOf
    cases t.senderOf h.sha3 h.recover with
    | none => exact runs_bind (runs_bind (runs_modify (runs_throw trivial)))
    | some a =>
      refine runs_bind (runs_pure (runs_bind (runs_get (runs_bind (runs_unless fun _ =>
        runs_bind (runs_unless fun _ => runs_modify ?_))))))
      exact ⟨⟨rfl, rfl⟩, rfl, rfl, not_lt.mp hbase, not_lt.mp hfits⟩

/-- The account of a settled transaction. The base price and the budget make up the limit,
the budget is spent in one way, and half of what was used, at most, comes back. -/
structure Accounted (h : Host S) (e : SealEngine) (env : EnvInfo) (t : Transaction)
    (runner : Runner S) (ex : Executive S) : Prop where
  spent : ∃ (budget : Word) (left deposit : ℕ),
    t.baseGasRequired (e.evmSchedule env.number) + budget.toNat = t.gas.toNat ∧
      Spends h e env runner budget left deposit ∧ left + deposit ≤ budget.toNat ∧
      ex.gas.toNat = left + ex.refunded.toNat ∧ 2 * ex.refunded.toNat ≤ t.gas.toNat - left
  remaining : ex.gas ≤ t.gas
  gasUsed : (gasUsed t ex).toNat + ex.gas.toNat = t.gas.toNat
  block : env.gasUsed.toNat + (Executive.gasUsed t ex).toNat ≤ env.gasLimit.toNat

theorem Granted.le (hfrugal : Frugal h env runner) {budget : Word}
    (hex : Granted h e env runner budget ex) : ex.gas ≤ budget := by
  cases hx : ex.ext with
  | none =>
    obtain ⟨deposit, hspends⟩ := hex.done hx
    have hle := hspends.le hfrugal
    exact BitVec.le_def.mpr (by omega)
  | some x =>
    rw [(hex.coded x hx).2]
    exact BitVec.le_refl _

/-- The budget of a frame is what the base price leaves of the limit. -/
theorem executeFrame_gas (runner : Runner S) (hex : Admitted e env t ex) :
    Runs (executeFrame h e env t) ex (fun done ex' => ∃ budget,
      t.baseGasRequired (e.evmSchedule env.number) + budget.toNat = t.gas.toNat ∧
        Granted h e env runner budget ex' ∧ (done = true → ex'.ext = none))
      fun _ ex' => ex'.gas ≤ t.gas := by
  obtain ⟨⟨-, hext⟩, hgas, hbase, hle, -⟩ := hex
  have hzero : ex.gas ≤ t.gas := by
    rw [hgas]
    exact zero_le_word _
  unfold executeFrame
  refine runs_bind (?_ : Runs (senderOf h t) ex (fun a ex' => Runs _ ex' _ _) _)
  unfold senderOf
  cases t.senderOf h.sha3 h.recover with
  | none => exact runs_bind (runs_modify (runs_throw hzero))
  | some sender =>
    refine runs_pure (runs_bind (runs_get (runs_bind ?_)))
    unfold subBalance
    refine runs_bind (runs_get ?_)
    cases h.state.subBalance ex.state sender ex.gasCost with
    | none => exact runs_throw hzero
    | some s =>
      refine runs_set ?_
      rw [hbase]
      have hcost := ofNat_toNat_of_le hle
      generalize hbudget :
        t.gas - BitVec.ofNat 256 (t.baseGasRequired (e.evmSchedule env.number)) = budget
      have hsplit : t.baseGasRequired (e.evmSchedule env.number) + budget.toNat = t.gas.toNat := by
        rw [← hbudget, BitVec.toNat_sub_of_le (BitVec.le_def.mpr (hcost.le.trans hle)), hcost]
        omega
      have hframe : (frameOf t sender budget).gas = budget := by
        unfold frameOf
        split_ifs <;> rfl
      refine Runs.mono (enter_gas runner ?_ ?_ (frameOf t sender budget)) (fun done ex' hin => ?_)
        fun _ ex' hle' => ?_
      · exact hgas
      · exact hext
      · rw [hframe] at hin
        exact ⟨budget, hsplit, hin⟩
      · rw [hframe] at hle'
        exact BitVec.le_trans hle' (BitVec.le_def.mpr (by omega))

theorem finalizeFrame_gas (hfrugal : Frugal h env runner) {budget : Word}
    (hsplit : t.baseGasRequired (e.evmSchedule env.number) + budget.toNat = t.gas.toNat)
    (hfits : env.gasUsed.toNat + t.gas.toNat ≤ env.gasLimit.toNat)
    (hspent : Spent h e env runner budget ex) :
    Runs (finalizeFrame h env t) ex (fun _ ex' => Accounted h e env t runner ex')
      fun _ ex' => ex'.gas ≤ t.gas := by
  obtain ⟨deposit, hspends⟩ := hspent
  have hledger := hspends.le hfrugal
  have hle : ex.gas ≤ t.gas := BitVec.le_def.mpr (by omega)
  have hrefund := refund_le hle
  have hsum := refund_toNat hle
  have hhalf := refund_half hle
  have hdone : ∀ ex' : Executive S, ex'.gas = ex.gas + refund t ex →
      ex'.refunded = refund t ex → Accounted h e env t runner ex' := by
    intro ex' hgas' hrefunded
    have hremaining : ex'.gas ≤ t.gas := by
      rw [hgas']
      exact BitVec.le_def.mpr hrefund
    have hused : (gasUsed t ex').toNat + ex'.gas.toNat = t.gas.toNat := by
      unfold gasUsed
      rw [BitVec.toNat_sub_of_le hremaining, Nat.sub_add_cancel (BitVec.le_def.mp hremaining)]
    refine ⟨⟨budget, ex.gas.toNat, deposit, hsplit, hspends, hledger, ?_, ?_⟩, hremaining, hused, ?_⟩
    · rw [hgas', hrefunded, hsum]
    · rw [hrefunded]
      exact hhalf
    · omega
  unfold finalizeFrame
  refine runs_bind (runs_modify (runs_bind (runs_get (runs_bind (runs_ite (fun _ => ?_)
    fun _ => runs_pure (runs_modify (hdone _ rfl rfl)))))))
  unfold senderOf
  cases t.senderOf h.sha3 h.recover with
  | none => exact runs_bind (runs_bind (runs_modify (runs_throw (BitVec.le_def.mpr hrefund))))
  | some a => exact runs_bind (runs_pure (runs_bind (runs_modify (runs_modify (runs_modify
      (hdone _ rfl rfl))))))

theorem Admitted.runAccepted (hfrugal : Frugal h env runner) (hex : Admitted e env t ex) :
    Runs (runAccepted h e env t runner) ex (fun _ ex' => Accounted h e env t runner ex')
      fun _ ex' => ex'.gas ≤ t.gas := by
  unfold Executive.runAccepted
  refine runs_bind ((executeFrame_gas runner hex).imp ?_)
  rintro done ex₁ ⟨budget, hsplit, hgranted, hdone⟩
  have hsettled : ∀ ex₂ : Executive S, Spent h e env runner budget ex₂ →
      Runs (finalizeFrame h env t) ex₂ (fun _ ex' => Accounted h e env t runner ex')
        fun _ ex' => ex'.gas ≤ t.gas := fun ex₂ => finalizeFrame_gas hfrugal hsplit hex.fits
  have hbudget : budget ≤ t.gas := BitVec.le_def.mpr (by omega)
  refine runs_bind (runs_ite (fun hd => runs_pure ?_) fun _ => ?_)
  · exact hsettled ex₁ (hgranted.done (hdone hd))
  · exact (hgranted.goWith hfrugal (hgranted.le hfrugal)).mono (fun _ ex₂ => hsettled ex₂)
      fun _ ex₂ hle => BitVec.le_trans hle hbudget

/-- The account of a transaction that the machine itself has run. -/
theorem transact_accounted (hmetered : ∀ p, VM.Metered (h.extVM env p)) {s : S}
    (hrun : transact h e env t (start s) = .ok () ex) :
    Accounted h e env t (interpreter h) ex := by
  have hboth : Runs (do
      initializeTransaction h e env t
      Executive.runAccepted h e env t (interpreter h)) (start s)
      (fun _ ex' => Accounted h e env t (interpreter h) ex') fun _ _ => True :=
    runs_bind ((initialize_admits h e env t s).imp fun _ _ hex =>
      (hex.runAccepted (interpreter_frugal hmetered)).mono (fun _ _ hacc => hacc)
        fun _ _ _ => trivial)
  rcases transact_orWraps h e env t (start s) with heq | ⟨ex', hwraps⟩
  · exact hboth.ok (heq.symm.trans hrun)
  · rw [hwraps] at hrun
    cases hrun

/-- Whatever the machine does with its gas, the account of an accepted transaction is right
when it is settled, and no exit leaves more gas than the limit. -/
theorem runAccepted_accounted (h : Host S) (e : SealEngine) (env : EnvInfo) (t : Transaction)
    (runner : Runner S) (s : S) (ex : Executive S) (hfrugal : Frugal h env runner)
    (haccepted : initializeTransaction h e env t (start s) = .ok () ex) :
    Runs (runAccepted h e env t runner) ex (fun _ ex' => Accounted h e env t runner ex')
      fun _ ex' => ex'.gas ≤ t.gas :=
  ((initialize_admits h e env t s).ok haccepted).runAccepted hfrugal

/-- The transfer of five, accepted. -/
def acceptedTransfer : Executive (Address → Word) :=
  { start millionaire with
    baseGasRequired := 21000
    gasCost := 21000 }

theorem runAccepted_accounted_transfer :
    Runs (runAccepted (plainHost lateForks) lateForks earlyBlock (transfer ⟨1, 1, 0⟩ 5)
        (interpreter (plainHost lateForks))) acceptedTransfer
      (fun _ ex => Accounted (plainHost lateForks) lateForks earlyBlock (transfer ⟨1, 1, 0⟩ 5)
        (interpreter (plainHost lateForks)) ex)
      fun _ ex => ex.gas ≤ (transfer ⟨1, 1, 0⟩ 5).gas :=
  runAccepted_accounted (plainHost lateForks) lateForks earlyBlock (transfer ⟨1, 1, 0⟩ 5)
    (interpreter (plainHost lateForks)) millionaire acceptedTransfer
    (interpreter_frugal (plainHost_honest lateForks earlyBlock).metered) rfl

end Accounting

end Executive
end XChain
