import XChain.LogBloom
import XChain.Transaction
import XChain.VM

/-!
# Executing a transaction

A transaction is checked, paid for, run and settled: `initialize`, `execute`, `go` and
`finalize` work on an `Executive` around the state of the accounts. The state is a
parameter with its operations, and so is what a machine sees of the world; an addition to a
balance that leaves the 256 bits ends the run with `wraps`.
-/
namespace XChain

/-- The operations on the accounts. `rollback now saved` undoes everything since the
savepoint that was taken at the state `saved`. -/
structure StateFace (S : Type) where
  balance : S → Address → Word
  getNonce : S → Address → Word
  addressHasCode : S → Address → Bool
  code : S → Address → Bytes
  addBalance : S → Address → Word → S
  subBalance : S → Address → Word → Option S
  transferBalance : S → Address → Address → Word → Option S
  incNonce : S → Address → S
  setNewCode : S → Address → Bytes → S
  kill : S → Address → S
  rollback : S → S → S

/-- What the operations do to balances: a subtraction that an account cannot afford
throws, a transfer subtracts and adds, and the others change none. -/
structure StateFace.Lawful {S : Type} (m : StateFace S) : Prop where
  addBalance : ∀ s a v b,
    m.balance (m.addBalance s a v) b = if b = a then m.balance s a + v else m.balance s b
  subBalance_none : ∀ s a v, m.subBalance s a v = none ↔ m.balance s a < v
  subBalance_some : ∀ s a v s', m.subBalance s a v = some s' → ∀ b,
    m.balance s' b = if b = a then m.balance s a - v else m.balance s b
  subBalance_nonce : ∀ s a v s', m.subBalance s a v = some s' → ∀ b,
    m.getNonce s' b = m.getNonce s b
  transferBalance : ∀ s a b v,
    m.transferBalance s a b v = (m.subBalance s a v).map fun s' => m.addBalance s' b v
  incNonce : ∀ s a b, m.balance (m.incNonce s a) b = m.balance s b
  setNewCode : ∀ s a c b, m.balance (m.setNewCode s a c) b = m.balance s b
  rollback : ∀ now saved b, m.balance (m.rollback now saved) b = m.balance saved b

/-- What the execution of a message leaves to be done at the end. -/
structure SubState where
  suicides : List Address
  logs : List LogEntry
  refunds : Word

/-- The arguments a machine's view of the world is made from. -/
structure ExtVMParams where
  myAddress : Address
  caller : Address
  origin : Address
  value : Word
  gasPrice : Word
  data : Bytes
  code : Bytes
  codeHash : H256
  depth : ℕ

structure EnvInfo where
  number : Word
  author : Address
  gasLimit : Word
  gasUsed : Word

/-- The parameters of the chain that the execution reads. -/
structure SealEngine where
  metropolisForkBlock : Word
  EIP158ForkBlock : Word
  EIP150ForkBlock : Word
  homsteadForkBlock : Word
  precompiledFrom : Address → Option Word
  precompiledCost : Address → Bytes → ℕ
  precompiledExecute : Address → Bytes → Bool × Bytes

namespace SealEngine

variable (e : SealEngine)

def evmSchedule (number : Word) : EVMSchedule :=
  if e.metropolisForkBlock ≤ number then MetropolisSchedule
  else if e.EIP158ForkBlock ≤ number then EIP158Schedule
  else if e.EIP150ForkBlock ≤ number then EIP150Schedule
  else if e.homsteadForkBlock ≤ number then HomesteadSchedule
  else FrontierSchedule

def isPrecompiled (a : Address) (number : Word) : Bool :=
  match e.precompiledFrom a with
  | some start => start ≤ number
  | none => false

end SealEngine

namespace Transaction

/-- The base price; every byte of the data costs, zeros less. -/
def baseGasRequired (t : Transaction) (es : EVMSchedule) : ℕ :=
  (if t.isCreation then es.txCreateGas else es.txGas) +
    (t.data.map fun b => if b ≠ 0 then es.txDataNonZeroGas else es.txDataZeroGas).sum

end Transaction

inductive TransactionException where
  | None
  | Unknown
  | BadRLP
  | InvalidFormat
  | OutOfGasIntrinsic
  | InvalidSignature
  | InvalidNonce
  | NotEnoughCash
  | OutOfGasBase
  | BlockGasLimitReached
  | BadInstruction
  | BadJumpDestination
  | OutOfGas
  | OutOfStack
  | StackUnderflow
  | RevertInstruction
  | InvalidZeroSignatureFormat
  deriving DecidableEq

/-- What ends an execution: the exceptions that leave it, a balance that wraps, and a
machine that does not come to an end. -/
inductive ExecutiveError where
  | InvalidSignature
  | InvalidZeroSignatureTransaction
  | BlockGasLimitReached
  | OutOfGasBase
  | InvalidNonce
  | NotEnoughCash
  | wraps
  | unfinished
  deriving DecidableEq

/-- The execution of one transaction; `ext` is the world of the machine, if code is to be
run. -/
structure Executive (S : Type) where
  state : S
  gas : Word
  gasCost : Word
  baseGasRequired : ℕ
  refunded : Word
  excepted : TransactionException
  ext : Option (ExtVMFace (S × SubState) × Address × SubState)
  isCreation : Bool
  newAddress : Address
  savepoint : S
  output : Bytes
  logs : List LogEntry

namespace Executive

variable {S : Type}

abbrev Exec (S : Type) := EStateM ExecutiveError (Executive S)

/-- The code that an execution calls and that is not part of it. -/
structure Host (S : Type) where
  state : StateFace S
  sha3 : Bytes → H256
  recover : SignatureStruct → H256 → Option Address
  extVM : EnvInfo → ExtVMParams → ExtVMFace (S × SubState)
  codeHash : S → Address → H256
  stray : UInt32

def start (s : S) : Executive S where
  state := s
  gas := 0
  gasCost := 0
  baseGasRequired := 0
  refunded := 0
  excepted := .None
  ext := none
  isCreation := false
  newAddress := 0
  savepoint := s
  output := []
  logs := []

section Balances

variable (m : StateFace S)

def subBalance (a : Address) (v : Word) : Exec S Unit := do
  let ex ← get
  match m.subBalance ex.state a v with
  | some s => set { ex with state := s }
  | none => throw .NotEnoughCash

def addBalance (a : Address) (v : Word) : Exec S Unit := do
  let ex ← get
  if (m.balance ex.state a).toNat + v.toNat < 2 ^ 256 then
    set { ex with state := m.addBalance ex.state a v }
  else throw .wraps

def transferBalance (a b : Address) (v : Word) : Exec S Unit := do
  let ex ← get
  match m.transferBalance ex.state a b v with
  | some s =>
    if a ≠ b ∧ 2 ^ 256 ≤ (m.balance ex.state b).toNat + v.toNat then throw .wraps
    else set { ex with state := s }
  | none => throw .NotEnoughCash

def changeState (f : S → S) : Exec S Unit := modify fun ex => { ex with state := f ex.state }

def takeSavepoint : Exec S Unit := modify fun ex => { ex with savepoint := ex.state }

end Balances

section Phases

variable (h : Host S) (e : SealEngine) (env : EnvInfo) (t : Transaction)

/-- Half of the order of the curve, rounded down. -/
def maxLowS : Word :=
  115792089237316195423570985008687907852837564279074904382605163141518161494337 / 2

/-- Sets the reason and throws. -/
def fail {α : Type} (x : TransactionException) (err : ExecutiveError) : Exec S α := do
  modify fun ex => { ex with excepted := x }
  throw err

def verifyTransaction : Exec S Unit := do
  (if env.number < e.metropolisForkBlock ∧ t.hasZeroSignature ∧ t.isCreation then
    fail .InvalidSignature .InvalidSignature
  else pure ())
  (if e.metropolisForkBlock ≤ env.number ∧ t.hasZeroSignature ∧
      (t.value ≠ 0 ∨ t.gasPrice ≠ 0 ∨ t.nonce ≠ 0) then
    fail .Unknown .InvalidZeroSignatureTransaction
  else pure ())
  if e.homsteadForkBlock ≤ env.number ∧ maxLowS < t.vrs.s then
    fail .InvalidSignature .InvalidSignature
  else pure ()

def senderOf : Exec S Address :=
  match t.senderOf h.sha3 h.recover with
  | some a => pure a
  | none => fail .InvalidSignature .InvalidSignature

/-- The checks of `initialize`, before anything is changed. -/
def initializeTransaction : Exec S Unit := do
  verifyTransaction e env t
  (if env.gasLimit.toNat < env.gasUsed.toNat + t.gas.toNat then
    fail .BlockGasLimitReached .BlockGasLimitReached
  else pure ())
  let base := t.baseGasRequired (e.evmSchedule env.number)
  modify fun ex => { ex with baseGasRequired := base }
  (if t.gas.toNat < base then fail .OutOfGasBase .OutOfGasBase else pure ())
  if t.hasZeroSignature then pure ()
  else do
    let sender ← senderOf h t
    let ex ← get
    (if t.nonce ≠ h.state.getNonce ex.state sender then fail .InvalidNonce .InvalidNonce
    else pure ())
    let gasCost := t.gas.toNat * t.gasPrice.toNat
    (if (h.state.balance ex.state sender).toNat < t.value.toNat + gasCost then
      fail .NotEnoughCash .NotEnoughCash
    else pure ())
    modify fun ex => { ex with gasCost := BitVec.ofNat 256 gasCost }

/-- The call of a transaction's receiver; tells whether everything is done. -/
def call (receiveAddress sender : Address) (gas : Word) : Exec S Bool := do
  (if ¬ t.isNull ∧ sender ≠ MaxAddress then changeState fun s => h.state.incNonce s sender
  else pure ())
  takeSavepoint
  if e.isPrecompiled receiveAddress env.number ∧
      gas.toNat < e.precompiledCost receiveAddress t.data then do
    modify fun ex => { ex with excepted := .OutOfGasBase }
    (if e.EIP158ForkBlock ≤ env.number then addBalance h.state receiveAddress 0 else pure ())
    pure true
  else do
    (if e.isPrecompiled receiveAddress env.number then do
      let left := BitVec.ofNat 256 (gas.toNat - e.precompiledCost receiveAddress t.data)
      let (success, output) := e.precompiledExecute receiveAddress t.data
      modify fun ex => { ex with gas := if success then left else 0, output := output,
                                 excepted := if success then ex.excepted else .OutOfGas }
    else do
      modify fun ex => { ex with gas := gas }
      let ex ← get
      (if h.state.addressHasCode ex.state receiveAddress then
        modify fun ex => { ex with
          ext := some (h.extVM env
            { myAddress := receiveAddress, caller := sender, origin := sender, value := t.value,
              gasPrice := t.gasPrice, data := t.data, code := h.state.code ex.state receiveAddress,
              codeHash := h.codeHash ex.state receiveAddress, depth := 0 }, receiveAddress, ⟨[], [], 0⟩) }
      else pure ()))
    transferBalance h.state sender receiveAddress t.value
    let ex ← get
    pure ex.ext.isNone

/-- The address of the contract that a sender makes with a nonce. -/
def createdAddress (sender : Address) (nonce : Word) : Address :=
  BitVec.ofNat 160 (Rlp.ofBigEndian (h.sha3 (Rlp.encode (.list
    [.data (Transaction.addressBytes sender), Transaction.ofNat nonce.toNat]))).bytes)

/-- The creation of a contract; tells whether everything is done. -/
def create (sender : Address) (gas : Word) : Exec S Bool := do
  let ex ← get
  let nonce := h.state.getNonce ex.state sender
  (if sender ≠ MaxAddress then changeState fun s => h.state.incNonce s sender else pure ())
  takeSavepoint
  let new := createdAddress h sender nonce
  modify fun ex => { ex with isCreation := true, newAddress := new, gas := gas }
  transferBalance h.state sender new t.value
  (if e.EIP158ForkBlock ≤ env.number then changeState fun s => h.state.incNonce s new else pure ())
  let ex ← get
  (if t.data ≠ [] then
    modify fun ex => { ex with
      ext := some (h.extVM env
        { myAddress := new, caller := sender, origin := sender, value := t.value,
          gasPrice := t.gasPrice, data := [], code := t.data, codeHash := h.sha3 t.data,
          depth := 0 }, new, ⟨[], [], 0⟩) }
  else if h.state.addressHasCode ex.state new then changeState fun s => h.state.setNewCode s new []
  else pure ())
  let ex ← get
  pure ex.ext.isNone

def execute : Exec S Bool := do
  let sender ← senderOf h t
  let ex ← get
  subBalance h.state sender ex.gasCost
  let gas := t.gas - BitVec.ofNat 256 ex.baseGasRequired
  if t.isCreation then create h e env t sender gas
  else call h e env t t.receiveAddress sender gas

def revert : Exec S Unit :=
  modify fun ex => { ex with
    ext := ex.ext.map fun x => (x.1, x.2.1, ⟨[], [], 0⟩)
    newAddress := 0
    state := h.state.rollback ex.state ex.savepoint }

def toTransactionException : VMException → TransactionException
  | .OutOfGas => .OutOfGas
  | .BadInstruction => .BadInstruction
  | .BadJumpDestination => .BadJumpDestination
  | .StackUnderflow _ _ => .StackUnderflow
  | .OutOfStack _ _ => .OutOfStack
  | .RevertInstruction _ => .RevertInstruction
  | .outOfBounds => .Unknown

/-- An exception of the machine: all gas is gone. -/
def vmFailure (x : TransactionException) : Exec S Unit := do
  modify fun ex => { ex with gas := 0, excepted := x }
  revert h

/-- What a machine leaves behind. -/
def takeOver (vm : VM (S × SubState)) : Exec S Unit :=
  modify fun ex => { ex with
    gas := BitVec.ofNat 256 vm.ioGas
    state := vm.ext.1
    ext := ex.ext.map fun x => (x.1, x.2.1, vm.ext.2) }

/-- The code that a creation returned is paid for and stored. -/
def deposit (schedule : EVMSchedule) (a : Address) (out : Bytes) : Exec S Unit := do
  let ex ← get
  if schedule.maxCodeSize < out.length then vmFailure h .OutOfGas
  else if out.length * schedule.createDataGas ≤ ex.gas.toNat then do
    modify fun ex => { ex with
      gas := ex.gas - BitVec.ofNat 256 (out.length * schedule.createDataGas) }
    changeState fun s => h.state.setNewCode s a out
  else if schedule.exceptionalFailedCodeDeposit then vmFailure h .OutOfGas
  else changeState fun s => h.state.setNewCode s a []

def go : Exec S Unit := do
  let ex ← get
  match ex.ext with
  | none => pure ()
  | some (face, a, sub) =>
    match VM.exec h.sha3 face h.stray (ex.gas.toNat + 1) ex.gas (ex.state, sub) with
    | none => throw .unfinished
    | some (.ok () vm) => do
      takeOver vm
      if ex.isCreation then deposit h face.evmSchedule a vm.output
      else modify fun ex => { ex with output := vm.output }
    | some (.error (.RevertInstruction output) vm) => do
      takeOver vm
      revert h
      modify fun ex => { ex with output := output, excepted := .RevertInstruction }
    | some (.error x vm) => do
      takeOver vm
      vmFailure h (toTransactionException x)

/-- The refunds that are granted, at most half of the gas that was used. -/
def refund (ex : Executive S) : Word :=
  match ex.ext with
  | none => 0
  | some (face, _, sub) =>
    let refunds := sub.refunds +
      BitVec.ofNat 256 (face.evmSchedule.suicideRefundGas * sub.suicides.length)
    if (t.gas - ex.gas) / 2 ≤ refunds then (t.gas - ex.gas) / 2 else refunds

def finalize : Exec S Unit := do
  modify fun ex => { ex with refunded := refund t ex, gas := ex.gas + refund t ex }
  let ex ← get
  (if ¬ t.isNull then do
    let sender ← senderOf h t
    addBalance h.state sender (ex.gas * t.gasPrice)
    addBalance h.state env.author ((t.gas - ex.gas) * t.gasPrice)
  else pure ())
  modify fun ex => { ex with
    state := (ex.ext.map fun x => x.2.2.suicides).getD [] |>.foldl h.state.kill ex.state
    logs := (ex.ext.map fun x => x.2.2.logs).getD ex.logs }

/-- A transaction from its check to its settlement. -/
def transact : Exec S Unit := do
  initializeTransaction h e env t
  let done ← execute h e env t
  (if done then pure () else go h)
  finalize h env t

end Phases

end Executive
end XChain
