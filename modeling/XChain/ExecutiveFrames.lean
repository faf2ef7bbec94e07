import XChain.ExecutiveEther
import Mathlib.Logic.Function.Basic

/-!
# The frames of an execution

A message call or a creation, for a transaction or inside of another one, is a frame: a
savepoint is taken, value moves, and the machine runs. A frame that ends with an
exception leaves the accounts as they were at the savepoint. A precompiled contract that
reports a failure does not: the value has moved all the same.
-/
namespace XChain

/-- What there is to see of an account. -/
structure Account where
  nonce : Word
  balance : Word
  code : Bytes
  storage : Word → Word

def Account.withBalance (a : Account) (v : Word) : Account := { a with balance := v }

theorem Account.withBalance_self (a : Account) : a.withBalance a.balance = a := rfl

/-- `look` shows the accounts: additions and subtractions change one balance, and a
rollback is exact. -/
structure StateFace.Shows {S : Type} (m : StateFace S) (look : S → Address → Account) :
    Prop where
  nonce : ∀ s a, (look s a).nonce = m.getNonce s a
  balance : ∀ s a, (look s a).balance = m.balance s a
  code : ∀ s a, (look s a).code = m.code s a
  addBalance : ∀ s a v, look (m.addBalance s a v) =
    Function.update (look s) a ((look s a).withBalance (m.balance s a + v))
  subBalance : ∀ s a v s', m.subBalance s a v = some s' → look s' =
    Function.update (look s) a ((look s a).withBalance (m.balance s a - v))
  rollback : ∀ now saved, look (m.rollback now saved) = look saved

namespace Executive

open Machine

variable {S : Type}

section Frames

variable (h : Host S) (e : SealEngine) (env : EnvInfo) (t : Transaction) (depth : ℕ)

/-- The value moves; a balance that leaves the 256 bits starts again at zero. -/
def moveValue (m : StateFace S) (a b : Address) (v : Word) : Exec S Unit := do
  let ex ← get
  match m.transferBalance ex.state a b v with
  | some s => set { ex with state := s }
  | none => throw .NotEnoughCash

/-- The call with all its parameters; tells whether everything is done. The transaction is
null inside of another frame. -/
def callMessage (p : CallParameters) (gasPrice : Word) (origin : Address) : Exec S Bool := do
  (if ¬ t.isNull ∧ p.senderAddress ≠ MaxAddress then
    changeState fun s => h.state.incNonce s p.senderAddress
  else pure ())
  takeSavepoint
  if e.isPrecompiled p.codeAddress env.number ∧
      p.gas.toNat < e.precompiledCost p.codeAddress p.data then do
    modify fun ex => { ex with excepted := .OutOfGasBase }
    (if e.EIP158ForkBlock ≤ env.number then addBalance h.state p.codeAddress 0 else pure ())
    pure true
  else do
    (if e.isPrecompiled p.codeAddress env.number then do
      let left := BitVec.ofNat 256 (p.gas.toNat - e.precompiledCost p.codeAddress p.data)
      let (success, output) := e.precompiledExecute p.codeAddress p.data
      modify fun ex => { ex with gas := if success then left else 0, output := output,
                                 excepted := if success then ex.excepted else .OutOfGas }
    else do
      modify fun ex => { ex with gas := p.gas }
      let ex ← get
      (if h.state.addressHasCode ex.state p.codeAddress then
        modify fun ex => { ex with
          ext := some (h.extVM env
            { myAddress := p.receiveAddress, caller := p.senderAddress, origin := origin,
              value := p.apparentValue, gasPrice := gasPrice, data := p.data,
              code := h.state.code ex.state p.codeAddress,
              codeHash := h.codeHash ex.state p.codeAddress, depth := depth },
            p.receiveAddress, ⟨[], [], 0⟩) }
      else pure ()))
    moveValue h.state p.senderAddress p.receiveAddress p.valueTransfer
    let ex ← get
    pure ex.ext.isNone

/-- The creation with all its parameters; tells whether everything is done. -/
def createContract (sender : Address) (endowment gasPrice gas : Word) (init : Bytes)
    (origin : Address) : Exec S Bool := do
  let ex ← get
  let nonce := h.state.getNonce ex.state sender
  (if sender ≠ MaxAddress then changeState fun s => h.state.incNonce s sender else pure ())
  takeSavepoint
  let new := createdAddress h sender nonce
  modify fun ex => { ex with isCreation := true, newAddress := new, gas := gas }
  moveValue h.state sender new endowment
  (if e.EIP158ForkBlock ≤ env.number then changeState fun s => h.state.incNonce s new else pure ())
  let ex ← get
  (if init ≠ [] then
    modify fun ex => { ex with
      ext := some (h.extVM env
        { myAddress := new, caller := sender, origin := origin, value := endowment,
          gasPrice := gasPrice, data := [], code := init, codeHash := h.sha3 init,
          depth := depth }, new, ⟨[], [], 0⟩) }
  else if h.state.addressHasCode ex.state new then changeState fun s => h.state.setNewCode s new []
  else pure ())
  let ex ← get
  pure ex.ext.isNone

/-- What a frame is about. -/
inductive Frame where
  | call (p : CallParameters) (gasPrice : Word) (origin : Address)
  | create (sender : Address) (endowment gasPrice gas : Word) (init : Bytes) (origin : Address)

def enter : Frame → Exec S Bool
  | .call p gasPrice origin => callMessage h e env t depth p gasPrice origin
  | .create sender endowment gasPrice gas init origin =>
    createContract h e env depth sender endowment gasPrice gas init origin

/-- A frame from its savepoint to the end of its machine. -/
def runFrame (f : Frame) : Exec S Unit := do
  let done ← enter h e env t depth f
  if done then pure () else go h

/-- The accounts at the savepoint: only the nonce of the sender has changed. -/
def Frame.saved (s : S) : Frame → S
  | .call p _ _ =>
    if ¬ t.isNull ∧ p.senderAddress ≠ MaxAddress then h.state.incNonce s p.senderAddress else s
  | .create sender _ _ _ _ _ => if sender ≠ MaxAddress then h.state.incNonce s sender else s

end Frames

section Undoing

variable {h : Host S} {e : SealEngine} {env : EnvInfo} {t : Transaction} {depth : ℕ}
  {ex : Executive S} {look : S → Address → Account} {saved : S}

/-- A frame begins with nothing gone wrong and nothing to run. -/
structure Fresh (ex : Executive S) : Prop where
  excepted : ex.excepted = .None
  ext : ex.ext = none

/-- The accounts are back, and nothing is left to be done at the end. -/
structure Undone (look : S → Address → Account) (saved : S) (ex : Executive S) : Prop where
  accounts : look ex.state = look saved
  sub : ∀ x, ex.ext = some x → x.2.2 = ⟨[], [], 0⟩

/-- What ends with an exception is undone. -/
def Restores (look : S → Address → Account) (saved : S) (m : Exec S Unit) (ex : Executive S) :
    Prop :=
  Runs m ex (fun _ ex' => ex'.excepted ≠ .None → Undone look saved ex')
    fun err ex' => err ≠ .unfinished ∧ Undone look saved ex'

/-- What a frame is before its machine runs. -/
structure Begun (h : Host S) (env : EnvInfo) (look : S → Address → Account) (saved : S)
    (ex : Executive S) : Prop where
  savepoint : ex.savepoint = saved
  excepted : ex.excepted ≠ .None → ex.ext = none ∧ look ex.state = look saved
  ext : ∀ x, ex.ext = some x → ∃ p, x.1 = h.extVM env p

theorem look_addBalance_zero (hlook : h.state.Shows look) (s : S) (a : Address) :
    look (h.state.addBalance s a 0) = look s := by
  rw [hlook.addBalance, show h.state.balance s a + 0 = _ from BitVec.add_zero _, ← hlook.balance,
    Account.withBalance_self, Function.update_eq_self]

theorem moved (law : h.state.Lawful) (hlook : h.state.Shows look) {s s' : S} {a b : Address}
    {v : Word} (hs : h.state.transferBalance s a b v = some s') :
    v ≤ h.state.balance s a ∧ (look s' = look s ↔ v = 0 ∨ a = b) := by
  rw [law.transferBalance, Option.map_eq_some_iff] at hs
  obtain ⟨s₁, hsub, rfl⟩ := hs
  have hle : v ≤ h.state.balance s a := by
    by_contra hlt
    rw [(law.subBalance_none _ _ _).mpr (by simpa using hlt)] at hsub
    cases hsub
  have hfirst := hlook.subBalance s a v s₁ hsub
  have hboth := hlook.addBalance s₁ b v
  have hbalance := law.subBalance_some _ _ _ _ hsub
  refine ⟨hle, fun heq => ?_, ?_⟩
  · by_contra hne
    obtain ⟨hv, hab⟩ := not_or.mp hne
    -- The sender of a value has lost it.
    have ha : (look (h.state.addBalance s₁ b v) a).balance = h.state.balance s a - v := by
      rw [hboth, Function.update_of_ne hab, hfirst, Function.update_self]
      rfl
    rw [heq, hlook.balance] at ha
    refine hv (BitVec.eq_of_toNat_eq ?_)
    have hnat := congrArg BitVec.toNat ha
    rw [BitVec.toNat_sub_of_le hle] at hnat
    have hle' := BitVec.le_def.mp hle
    show v.toNat = 0
    omega
  · rintro (rfl | rfl)
    · have hzero : look s₁ = look s := by
        rw [hfirst, show h.state.balance s a - 0 = _ from BitVec.sub_zero _, ← hlook.balance,
          Account.withBalance_self, Function.update_eq_self]
      exact (look_addBalance_zero hlook s₁ b).trans hzero
    · rw [hboth, hfirst, Function.update_idem, Function.update_self, hbalance a, if_pos rfl,
        BitVec.sub_add_cancel, ← hlook.balance]
      exact Function.update_eq_self a (look s)

theorem vmFailure_undone (hlook : h.state.Shows look) (hsaved : ex.savepoint = saved)
    (x : TransactionException) (err : ExecutiveError → Executive S → Prop) :
    Runs (vmFailure h x) ex (fun _ ex' => Undone look saved ex') err := by
  unfold vmFailure revert
  refine runs_bind (runs_modify (runs_modify ⟨?_, fun y hy => ?_⟩))
  · show look (h.state.rollback ex.state ex.savepoint) = _
    rw [hlook.rollback, hsaved]
  · obtain ⟨z, -, rfl⟩ := Option.map_eq_some_iff.mp hy
    rfl

theorem deposit_undone (hlook : h.state.Shows look) (hsaved : ex.savepoint = saved)
    (hnone : ex.excepted = .None) (schedule : EVMSchedule) (a : Address) (out : Bytes)
    (err : ExecutiveError → Executive S → Prop) :
    Runs (deposit h schedule a out) ex
      (fun _ ex' => ex'.excepted ≠ .None → Undone look saved ex') err := by
  have hfails := (vmFailure_undone (h := h) hlook hsaved .OutOfGas err).imp
    fun _ ex' hu (_ : ex'.excepted ≠ .None) => hu
  unfold deposit
  refine runs_bind (runs_get (runs_ite (fun _ => hfails) fun _ => runs_ite (fun _ => ?_) fun _ =>
    runs_ite (fun _ => hfails) fun _ => ?_))
  · exact runs_bind (runs_modify (runs_modify fun hne => absurd hnone hne))
  · exact runs_modify fun hne => absurd hnone hne

/-- The machine of a frame comes to an end, and what it did is undone after an exception. -/
theorem Begun.go (hmetered : ∀ p, VM.Metered (h.extVM env p)) (hlook : h.state.Shows look)
    (hex : Begun h env look saved ex) : Restores look saved (go h) ex := by
  unfold Restores Executive.go
  refine runs_bind (runs_get ?_)
  cases hx : ex.ext with
  | none => exact runs_pure fun hne => ⟨(hex.excepted hne).2, fun x hx' => by rw [hx] at hx'; cases hx'⟩
  | some x =>
    obtain ⟨face, a, sub⟩ := x
    obtain ⟨p, hface⟩ := hex.ext _ hx
    obtain rfl : face = h.extVM env p := hface
    have hnone : ex.excepted = .None := by
      by_contra hne
      rw [(hex.excepted hne).1] at hx
      cases hx
    dsimp only
    obtain ⟨r, hr⟩ := VM.exec_some (hmetered p) h.sha3 h.stray ex.gas (ex.state, sub)
    rw [hr]
    cases r with
    | ok u vm =>
      refine runs_bind (runs_modify (runs_ite (fun _ => ?_) fun _ => ?_))
      · refine deposit_undone hlook ?_ ?_ _ a vm.output _
        · exact hex.savepoint
        · exact hnone
      · exact runs_modify fun hne => absurd hnone hne
    | error x vm =>
      have hfailure : ∀ y, Restores look saved (do
          takeOver vm
          vmFailure h y) ex := by
        intro y
        refine runs_bind (runs_modify (Runs.imp (vmFailure_undone hlook ?_ y _) fun _ _ hu _ => hu))
        exact hex.savepoint
      cases x with
      | RevertInstruction output =>
        refine runs_bind (runs_modify (runs_bind (runs_modify (runs_modify fun _ => ⟨?_, ?_⟩))))
        · show look (h.state.rollback vm.ext.1 ex.savepoint) = _
          rw [hlook.rollback, hex.savepoint]
        · intro y hy
          obtain ⟨z, -, rfl⟩ := Option.map_eq_some_iff.mp hy
          rfl
      | _ => exact hfailure _
/-- A value moves, or the sender has too little and nothing has changed. -/
theorem runs_moveValue {a b : Address} {v : Word} {Q : Unit → Executive S → Prop}
    {err : ExecutiveError → Executive S → Prop}
    (hQ : ∀ s, h.state.transferBalance ex.state a b v = some s → Q () { ex with state := s })
    (herr : h.state.transferBalance ex.state a b v = none → err .NotEnoughCash ex) :
    Runs (moveValue h.state a b v) ex Q err := by
  unfold moveValue
  refine runs_bind (runs_get ?_)
  cases hs : h.state.transferBalance ex.state a b v with
  | none => exact runs_throw (herr hs)
  | some s => exact runs_set (hQ s hs)

/-- A precompiled contract reports a failure, and the value of the call moves. -/
def FailsPaid (h : Host S) (e : SealEngine) (env : EnvInfo) (saved : S) : Frame → Prop
  | .call p _ _ =>
    e.isPrecompiled p.codeAddress env.number ∧
      e.precompiledCost p.codeAddress p.data ≤ p.gas.toNat ∧
      (e.precompiledExecute p.codeAddress p.data).1 = false ∧
      p.valueTransfer ≠ 0 ∧ p.senderAddress ≠ p.receiveAddress ∧
      p.valueTransfer ≤ h.state.balance saved p.senderAddress
  | .create _ _ _ _ _ _ => False

/-- The nonce of the sender is incremented where the protocol says so. -/
theorem runs_incNonce {c : Prop} [Decidable c] {a : Address} {Q : Unit → Executive S → Prop}
    {err : ExecutiveError → Executive S → Prop}
    (hQ : Q () { ex with state := if c then h.state.incNonce ex.state a else ex.state }) :
    Runs (if c then changeState fun s => h.state.incNonce s a else pure ()) ex Q err := by
  by_cases hc : c
  · rw [if_pos hc] at hQ ⊢
    exact runs_modify hQ
  · rw [if_neg hc] at hQ ⊢
    exact runs_pure hQ

/-- What a frame leaves to its machine. -/
def Entered (h : Host S) (env : EnvInfo) (look : S → Address → Account) (saved : S) (done : Bool)
    (ex : Executive S) : Prop :=
  Begun h env look saved ex ∧ (done = true → ex.ext = none)

/-- The value of a call moves after the rest is settled. -/
theorem callMessage_move {a b : Address} {v : Word}
    (hsavepoint : ex.savepoint = saved) (hstate : ex.state = saved)
    (hexcepted : ex.excepted ≠ .None → ex.ext = none ∧
      ∀ s, h.state.transferBalance saved a b v = some s → look s = look saved)
    (hext : ∀ x, ex.ext = some x → (∃ p, x.1 = h.extVM env p) ∧ x.2.2 = ⟨[], [], 0⟩) :
    Runs (do
      moveValue h.state a b v
      let ex ← get
      pure ex.ext.isNone) ex (Entered h env look saved)
      fun err ex' => err ≠ .unfinished ∧ Undone look saved ex' := by
  refine runs_bind (runs_moveValue (fun s hs => ?_) fun _ => ?_)
  · refine runs_bind (runs_get (runs_pure ⟨⟨hsavepoint, fun hne => ?_, ?_⟩, fun hdone => ?_⟩))
    · rw [hstate] at hs
      exact ⟨(hexcepted hne).1, (hexcepted hne).2 s hs⟩
    · exact fun x hx => (hext x hx).1
    · exact Option.isNone_iff_eq_none.mp hdone
  · exact ⟨by decide, by rw [hstate], fun x hx => (hext x hx).2⟩

theorem callMessage_undone (law : h.state.Lawful) (hlook : h.state.Shows look)
    (hfresh : Fresh ex) (p : CallParameters) (gasPrice : Word) (origin : Address)
    (hpaid : ¬ FailsPaid h e env (Frame.saved h t ex.state (.call p gasPrice origin))
      (.call p gasPrice origin)) :
    Runs (callMessage h e env t depth p gasPrice origin) ex
      (Entered h env look (Frame.saved h t ex.state (.call p gasPrice origin)))
      fun err ex' => err ≠ .unfinished ∧
        Undone look (Frame.saved h t ex.state (.call p gasPrice origin)) ex' := by
  obtain ⟨hnone, hext⟩ := hfresh
  unfold callMessage
  refine runs_bind (runs_incNonce ?_)
  generalize hsaved : (if ¬ t.isNull ∧ p.senderAddress ≠ MaxAddress then
    h.state.incNonce ex.state p.senderAddress else ex.state) = saved
  rw [Frame.saved, hsaved] at hpaid ⊢
  refine runs_bind (runs_modify ?_)
  have hempty : ∀ ex' : Executive S, ex'.ext = none → ∀ x, ex'.ext = some x →
      (∃ p, x.1 = h.extVM env p) ∧ x.2.2 = ⟨[], [], 0⟩ := by
    intro ex' hn x hx
    rw [hn] at hx
    cases hx
  refine runs_ite (fun hcost => ?_) fun hcost => runs_bind (runs_ite (fun hpre => ?_) fun _ => ?_)
  · -- Too little gas for a precompiled contract: the account is touched, and that is all.
    have hdone : ∀ s, look s = look saved → Entered h env look saved true
        { ex with state := s, savepoint := saved, excepted := .OutOfGasBase } := fun s hs =>
      ⟨⟨rfl, fun _ => ⟨hext, hs⟩, fun x hx => (hempty _ hext x hx).1⟩, fun _ => hext⟩
    refine runs_bind (runs_modify (runs_bind (runs_ite (fun _ => ?_) fun _ => ?_)))
    · refine runs_bind (runs_get (runs_ite (fun _ => runs_set (runs_pure (hdone _ ?_))) fun hover => ?_))
      · exact look_addBalance_zero hlook saved p.codeAddress
      · exact absurd (h.state.balance saved p.codeAddress).isLt hover
    · exact runs_pure (runs_pure (hdone saved rfl))
  · refine runs_modify (callMessage_move rfl rfl (fun hne => ⟨hext, fun s hs => ?_⟩)
      (hempty _ hext))
    obtain ⟨hle, hiff⟩ := moved law hlook hs
    have hfails : (e.precompiledExecute p.codeAddress p.data).1 = false := by
      cases hsuccess : (e.precompiledExecute p.codeAddress p.data).1 with
      | true =>
        have hne' : (if (e.precompiledExecute p.codeAddress p.data).1 = true then ex.excepted
          else .OutOfGas) ≠ TransactionException.None := hne
        rw [if_pos hsuccess] at hne'
        exact absurd hnone hne'
      | false => rfl
    refine hiff.mpr ?_
    by_contra hmoves
    obtain ⟨hv, hab⟩ := not_or.mp hmoves
    exact hpaid ⟨hpre, not_lt.mp fun hlt => hcost ⟨hpre, hlt⟩, hfails, hv, hab, hle⟩
  · refine runs_bind (runs_modify (runs_bind (runs_get (runs_ite (fun _ => ?_) fun _ => ?_))))
    · refine runs_modify (callMessage_move rfl rfl (fun hne => absurd hnone hne) fun x hx => ?_)
      obtain rfl := Option.some.inj hx
      exact ⟨⟨_, rfl⟩, rfl⟩
    · exact runs_pure (callMessage_move rfl rfl (fun hne => absurd hnone hne) (hempty _ hext))

theorem createContract_undone (hfresh : Fresh ex) (sender : Address)
    (endowment gasPrice gas : Word) (init : Bytes) (origin : Address) :
    Runs (createContract h e env depth sender endowment gasPrice gas init origin) ex
      (Entered h env look (Frame.saved h t ex.state
        (.create sender endowment gasPrice gas init origin)))
      fun err ex' => err ≠ .unfinished ∧
        Undone look (Frame.saved h t ex.state
          (.create sender endowment gasPrice gas init origin)) ex' := by
  obtain ⟨hnone, hext⟩ := hfresh
  unfold createContract
  refine runs_bind (runs_get (runs_bind (runs_incNonce ?_)))
  rw [Frame.saved]
  generalize (if sender ≠ MaxAddress then h.state.incNonce ex.state sender else ex.state) = saved
  have hempty : ∀ x, ex.ext = some x → ∃ p, x.1 = h.extVM env p := by
    intro x hx
    rw [hext] at hx
    cases hx
  refine runs_bind (runs_modify (runs_bind (runs_modify (runs_bind (runs_moveValue
    (fun s _ => ?_) fun _ => ⟨by decide, rfl, fun x hx => ?_⟩)))))
  · refine runs_bind (runs_incNonce (runs_bind (runs_get ?_)))
    refine runs_bind (runs_ite (fun _ => ?_) fun _ => runs_ite (fun _ => ?_) fun _ => ?_)
    · refine runs_modify (runs_bind (runs_get (runs_pure ⟨⟨rfl, fun hne => absurd hnone hne,
        fun x hx => ?_⟩, fun hdone => ?_⟩)))
      · obtain rfl := Option.some.inj hx
        exact ⟨_, rfl⟩
      · cases hdone
    · exact runs_modify (runs_bind (runs_get (runs_pure
        ⟨⟨rfl, fun hne => absurd hnone hne, hempty⟩, fun _ => hext⟩)))
    · exact runs_pure (runs_bind (runs_get (runs_pure
        ⟨⟨rfl, fun hne => absurd hnone hne, hempty⟩, fun _ => hext⟩)))
  · rw [hext] at hx
    cases hx

/-- A call whose precompiled contract fails is done, and its value has moved. -/
theorem callMessage_failsPaid (law : h.state.Lawful) (p : CallParameters) (gasPrice : Word)
    (origin : Address) (hext : ex.ext = none)
    (hpaid : FailsPaid h e env (Frame.saved h t ex.state (.call p gasPrice origin))
      (.call p gasPrice origin)) :
    Runs (callMessage h e env t depth p gasPrice origin) ex
      (fun done ex' => done = true ∧ ex'.excepted ≠ .None ∧
        h.state.transferBalance (Frame.saved h t ex.state (.call p gasPrice origin))
          p.senderAddress p.receiveAddress p.valueTransfer = some ex'.state)
      fun _ _ => False := by
  obtain ⟨hpre, hcost, hfails, -, -, hle⟩ := hpaid
  unfold callMessage
  refine runs_bind (runs_incNonce ?_)
  rw [Frame.saved] at hle ⊢
  generalize (if ¬ t.isNull ∧ p.senderAddress ≠ MaxAddress then
    h.state.incNonce ex.state p.senderAddress else ex.state) = saved at hle ⊢
  refine runs_bind (runs_modify (runs_ite (fun hlow => absurd hlow.2 (not_lt.mpr hcost)) fun _ => ?_))
  refine runs_bind (runs_ite (fun _ => runs_modify ?_) fun hn => absurd hpre hn)
  refine runs_bind (runs_moveValue (fun s hs => ?_) fun hs => ?_)
  · refine runs_bind (runs_get (runs_pure ⟨?_, ?_, hs⟩))
    · show ex.ext.isNone = true
      rw [hext]
      rfl
    · show (if (e.precompiledExecute p.codeAddress p.data).1 = true then ex.excepted
        else .OutOfGas) ≠ TransactionException.None
      rw [hfails, if_neg Bool.false_ne_true]
      decide
  · rw [law.transferBalance, Option.map_eq_none_iff, law.subBalance_none] at hs
    exact absurd hs (BitVec.not_lt.mpr hle)

theorem runFrame_undone (hmetered : ∀ p, VM.Metered (h.extVM env p)) (law : h.state.Lawful)
    (hlook : h.state.Shows look) (hfresh : Fresh ex) (f : Frame)
    (hpaid : ¬ FailsPaid h e env (f.saved h t ex.state) f) :
    Restores look (f.saved h t ex.state) (runFrame h e env t depth f) ex := by
  have henter : Runs (enter h e env t depth f) ex (Entered h env look (f.saved h t ex.state))
      fun err ex' => err ≠ .unfinished ∧ Undone look (f.saved h t ex.state) ex' := by
    cases f with
    | call p gasPrice origin => exact callMessage_undone law hlook hfresh p gasPrice origin hpaid
    | create sender endowment gasPrice gas init origin =>
      exact createContract_undone hfresh sender endowment gasPrice gas init origin
  unfold Restores runFrame
  refine runs_bind (henter.imp fun done ex' hentered => runs_ite (fun hdone => ?_) fun _ => ?_)
  · refine runs_pure fun hne => ⟨(hentered.1.excepted hne).2, fun x hx => ?_⟩
    rw [hentered.2 hdone] at hx
    cases hx
  · exact hentered.1.go hmetered hlook

/-- A frame that ends with an exception is undone exactly unless a precompiled contract
fails in a call whose value moves. -/
theorem runFrame_restores_iff (h : Host S) (e : SealEngine) (env : EnvInfo) (t : Transaction)
    (depth : ℕ) (look : S → Address → Account) (ex : Executive S) (f : Frame)
    (hmetered : ∀ p, VM.Metered (h.extVM env p)) (law : h.state.Lawful)
    (hlook : h.state.Shows look) (hfresh : Fresh ex) :
    Restores look (f.saved h t ex.state) (runFrame h e env t depth f) ex ↔
      ¬ FailsPaid h e env (f.saved h t ex.state) f := by
  refine ⟨fun hrestores hpaid => ?_, runFrame_undone hmetered law hlook hfresh f⟩
  cases f with
  | create sender endowment gasPrice gas init origin => exact hpaid
  | call p gasPrice origin =>
    have hcall : Runs (callMessage h e env t depth p gasPrice origin) ex _ _ :=
      callMessage_failsPaid law p gasPrice origin hfresh.ext hpaid
    obtain ⟨done, ex', hrun, rfl, hne, hmoved⟩ := hcall.exists_ok
    have hframe : runFrame h e env t depth (.call p gasPrice origin) ex = .ok () ex' := bind_ok hrun
    obtain ⟨-, -, -, hv, hab, -⟩ := hpaid
    have hsame := (hrestores.ok hframe hne).accounts
    rcases (moved law hlook hmoved).2.mp hsame with hzero | hself
    · exact hv hzero
    · exact hab hself

end Undoing

section Transactions

/-- The programs do the same, unless the first one finds a balance that wraps. -/
def OrWraps {α : Type} (m m' : Exec S α) : Prop :=
  ∀ ex, m ex = m' ex ∨ ∃ ex', m ex = .error .wraps ex'

theorem OrWraps.refl {α : Type} (m : Exec S α) : OrWraps m m := fun _ => Or.inl rfl

theorem OrWraps.bind {α β : Type} {m m' : Exec S α} {f f' : α → Exec S β} (hm : OrWraps m m')
    (hf : ∀ a, OrWraps (f a) (f' a)) : OrWraps (m >>= f) (m' >>= f') := by
  intro ex
  rcases hm ex with heq | ⟨ex', hwraps⟩
  · cases hm' : m' ex with
    | ok a ex' =>
      rw [bind_ok hm', bind_ok (heq.trans hm')]
      exact hf a ex'
    | error err ex' => exact Or.inl (by rw [bind_error hm', bind_error (heq.trans hm')])
  · exact Or.inr ⟨ex', bind_error hwraps⟩

theorem OrWraps.ite {α : Type} {c : Prop} [Decidable c] {m m' k k' : Exec S α} (hm : OrWraps m m')
    (hk : OrWraps k k') : OrWraps (if c then m else k) (if c then m' else k') := by
  split_ifs
  · exact hm
  · exact hk

theorem transferBalance_orWraps (m : StateFace S) (a b : Address) (v : Word) :
    OrWraps (transferBalance m a b v) (moveValue m a b v) := by
  unfold transferBalance moveValue
  refine (OrWraps.refl get).bind fun ex ex₀ => ?_
  cases m.transferBalance ex.state a b v with
  | none => exact Or.inl rfl
  | some s =>
    dsimp only
    split_ifs
    · exact Or.inr ⟨ex₀, rfl⟩
    · exact Or.inl rfl

/-- A transaction's call is the call with its parameters, at depth zero. -/
theorem call_orWraps (h : Host S) (e : SealEngine) (env : EnvInfo) (t : Transaction)
    (receiveAddress sender : Address) (gas : Word) :
    OrWraps (call h e env t receiveAddress sender gas)
      (callMessage h e env t 0
        { senderAddress := sender, codeAddress := receiveAddress, receiveAddress := receiveAddress,
          valueTransfer := t.value, apparentValue := t.value, gas := gas, data := t.data }
        t.gasPrice sender) := by
  unfold call callMessage
  refine (OrWraps.refl _).bind fun _ => (OrWraps.refl _).bind fun _ => (OrWraps.refl _).ite ?_
  exact (OrWraps.refl _).bind fun _ => (transferBalance_orWraps _ _ _ _).bind fun _ => OrWraps.refl _

theorem create_orWraps (h : Host S) (e : SealEngine) (env : EnvInfo) (t : Transaction)
    (sender : Address) (gas : Word) :
    OrWraps (create h e env t sender gas)
      (createContract h e env 0 sender t.value t.gasPrice gas t.data sender) := by
  unfold create createContract
  refine (OrWraps.refl _).bind fun _ => (OrWraps.refl _).bind fun _ => (OrWraps.refl _).bind fun _ =>
    (OrWraps.refl _).bind fun _ => ?_
  exact (transferBalance_orWraps _ _ _ _).bind fun _ => OrWraps.refl _

end Transactions

section Failing

/-- Accounts that have a balance only. -/
def plainLook (s : Address → Word) (a : Address) : Account := ⟨0, s a, [], fun _ => 0⟩

theorem plainLook_shows : plainState.Shows plainLook := by
  constructor
  · intro s a
    rfl
  · intro s a
    rfl
  · intro s a
    rfl
  · intro s a v
    funext b
    by_cases hb : b = a
    · subst hb
      simp [plainLook, plainState, plainAdd, Account.withBalance]
    · simp [plainLook, plainState, plainAdd, hb]
  · intro s a v s' hs
    obtain ⟨-, rfl⟩ : ¬ s a < v ∧ (fun b => if b = a then s a - v else s b) = s' := by
      simpa [plainState, plainSub] using hs
    funext b
    by_cases hb : b = a
    · subst hb
      simp [plainLook, plainState, Account.withBalance]
    · simp [plainLook, hb]
  · intro now saved
    rfl

theorem runFrame_restores_transfer :
    Restores plainLook millionaire (runFrame (plainHost lateForks) lateForks earlyBlock
        (transfer ⟨1, 1, 0⟩ 5) 0 (.call ⟨2, 7, 7, 5, 5, 0, []⟩ 1 2)) (start millionaire) ↔
      ¬ FailsPaid (plainHost lateForks) lateForks earlyBlock millionaire
        (.call ⟨2, 7, 7, 5, 5, 0, []⟩ 1 2) :=
  runFrame_restores_iff (plainHost lateForks) lateForks earlyBlock (transfer ⟨1, 1, 0⟩ 5) 0
    plainLook (start millionaire) (.call ⟨2, 7, 7, 5, 5, 0, []⟩ 1 2)
    (plainHost_honest lateForks earlyBlock).metered plainState_lawful plainLook_shows ⟨rfl, rfl⟩

/-- A precompiled contract at 9 that always fails. -/
def failingContract : SealEngine :=
  { lateForks with
    precompiledFrom := fun a => if a = 9 then some 0 else none
    precompiledExecute := fun _ _ => (false, []) }

/-- The call has failed, and the sender's five are gone. -/
theorem runFrame_keeps_value : ¬ Restores plainLook millionaire
    (runFrame (plainHost failingContract) failingContract earlyBlock (transfer ⟨1, 1, 0⟩ 5) 0
      (.call ⟨2, 9, 9, 5, 5, 1000, []⟩ 1 2)) (start millionaire) := by
  intro hrestores
  have hrun : ∃ ex, runFrame (plainHost failingContract) failingContract earlyBlock
      (transfer ⟨1, 1, 0⟩ 5) 0 (.call ⟨2, 9, 9, 5, 5, 1000, []⟩ 1 2) (start millionaire) =
        .ok () ex ∧ ex.excepted = .OutOfGas ∧ ex.state 2 = 999995 := ⟨_, rfl, rfl, by decide⟩
  obtain ⟨ex, hok, hexcepted, hstate⟩ := hrun
  have hsame := (hrestores.ok hok (by rw [hexcepted]; decide)).accounts
  have hbalance : ex.state 2 = millionaire 2 := congrArg Account.balance (congrFun hsame 2)
  rw [hstate] at hbalance
  exact absurd hbalance (by decide)

end Failing

end Executive
end XChain
