import XChain.Common
import XChain.Instruction
import XChain.Machine
import XChain.MemoryDB

/-!
# The virtual machine

The interpreter with loop-and-switch dispatch and without code rewriting. The
stack from a stack pointer on is a list whose head is the item pointed at. Every
indexed access is checked, and one out of range ends the run with `outOfBounds`;
only the price of a tier past the end of its table is read as a stray word. Gas
and sizes are computed modulo 2^64 where the source computes in 64 bits.
-/
namespace XChain

/-- The exceptions of the machine, and `outOfBounds` for an access out of range. -/
inductive VMException where
  | OutOfGas
  | BadInstruction
  | BadJumpDestination
  | StackUnderflow (required got : ℤ)
  | OutOfStack (required got : ℤ)
  | RevertInstruction (output : Bytes)
  | outOfBounds
  deriving DecidableEq

structure CallParameters where
  senderAddress : Address
  codeAddress : Address
  receiveAddress : Address
  valueTransfer : Word
  apparentValue : Word
  gas : Word
  data : Bytes

/-- What a machine sees of the world `W`. A creation gives the new address and the
gas that is left, a call its success, its output and the gas that is left. Sizes are
64-bit numbers. -/
structure ExtVMFace (W : Type) where
  evmSchedule : EVMSchedule
  myAddress : Address
  caller : Address
  origin : Address
  value : Word
  gasPrice : Word
  data : Bytes
  code : Bytes
  depth : ℕ
  author : Address
  timestamp : Word
  number : Word
  difficulty : Word
  gasLimit : Word
  balance : W → Address → Word
  existsAccount : W → Address → Bool
  codeAt : W → Address → Bytes
  codeSizeAt : W → Address → ℕ
  blockHash : W → Word → Word
  store : W → Word → Word
  setStore : W → Word → Word → W
  suicide : W → Address → W
  log : W → List Word → Bytes → W
  addRefunds : W → ℕ → W
  create : W → Word → Word → Bytes → Address × Word × W
  call : W → CallParameters → Bool × Bytes × Word × W
  size_data : data.length < 2 ^ 64
  size_code : code.length < 2 ^ 64
  size_codeAt : ∀ w a, (codeAt w a).length < 2 ^ 64

theorem length_nil_lt : ([] : Bytes).length < 2 ^ 64 := by norm_num

/-- The machine between and within instructions: `sp` and `spp` are the stack from
the stack pointer and from the next stack pointer on. -/
structure VM (W : Type) where
  ioGas : ℕ
  ext : W
  code : Bytes
  jumpDests : List ℕ
  mem : Bytes
  output : Bytes
  pc : ℕ
  sp : List Word
  spp : List Word
  runGas : ℕ
  newMemSize : ℕ
  copyMemSize : ℕ

namespace VM

variable {W : Type}

abbrev Exec (W : Type) := EStateM VMException (VM W)

/-- A 64-bit unsigned integer. -/
def u64 (n : ℕ) : ℕ := n % 2 ^ 64

/-- An `unsigned`. -/
def u32 (n : ℕ) : ℕ := n % 2 ^ 32

/-- A 512-bit unsigned integer. -/
def u512 (n : ℕ) : ℕ := n % 2 ^ 512

section Access

/-- `m_SP[i]`. -/
def item (i : ℕ) : Exec W Word := do
  let s ← get
  match s.sp[i]? with
  | some w => pure w
  | none => throw .outOfBounds

/-- `m_SPP[0]`. -/
def top : Exec W Word := do
  let s ← get
  match s.spp[0]? with
  | some w => pure w
  | none => throw .outOfBounds

/-- `m_SPP[0] = w`. -/
def setTop (w : Word) : Exec W Unit := do
  let s ← get
  match s.spp with
  | _ :: rest => set { s with spp := w :: rest }
  | [] => throw .outOfBounds

/-- `m_code[pc]`. -/
def codeByte (pc : ℕ) : Exec W UInt8 := do
  let s ← get
  match s.code[pc]? with
  | some b => pure b
  | none => throw .outOfBounds

/-- The bytes of a buffer from `offset` on. -/
def slice (b : Bytes) (offset size : ℕ) : Exec W Bytes :=
  if size = 0 ∨ offset + size ≤ b.length then pure ((b.drop offset).take size)
  else throw .outOfBounds

def memSlice (offset size : ℕ) : Exec W Bytes := do
  let s ← get
  slice s.mem offset size

/-- Overwrites the memory from `offset` on. -/
def memWrite (offset : ℕ) (b : Bytes) : Exec W Unit := do
  let s ← get
  if b.length = 0 ∨ offset + b.length ≤ s.mem.length then
    set { s with mem := s.mem.take offset ++ b ++ s.mem.drop (offset + b.length) }
  else throw .outOfBounds

/-- The word with the given big-endian bytes. -/
def ofBytes (b : Bytes) : Word := BitVec.ofNat 256 (Rlp.ofBigEndian b)

/-- The 32 big-endian bytes of a word. -/
def toBytes (w : Word) : Bytes := (H256.ofNat w.toNat).bytes

def asAddress (w : Word) : Address := w.setWidth 160

def fromAddress (a : Address) : Word := a.setWidth 256

end Access

section Metering

variable (face : ExtVMFace W)

def toInt63 (v : ℕ) : Exec W ℕ := if 0x7FFFFFFFFFFFFFFF < v then throw .OutOfGas else pure v

def memNeed (offset size : Word) : Exec W ℕ :=
  toInt63 (if size ≠ 0 then u512 (offset.toNat + size.toNat) else 0)

def setRunGas (gas : ℕ) : Exec W Unit := modify fun s => { s with runGas := gas }

/-- Moves on to the next stack pointer and sets the one after the instruction. The
items that the instruction is to put there are still what they were. -/
def adjustStack (removed added : ℕ) : Exec W Unit := do
  modify fun s => { s with sp := s.spp }
  let s ← get
  let size : ℤ := s.sp.length - removed
  if size < 0 then throw (.StackUnderflow removed size)
  else if size + added > 1024 then throw (.OutOfStack ((added : ℤ) - removed) (size + added))
  else set { s with spp := List.replicate (added - removed) 0 ++ s.sp.drop (removed - added) }

def gasForMem (size : ℕ) : Exec W ℕ :=
  toInt63 (u512 (u512 (face.evmSchedule.memoryGas * (size / 32)) +
    u512 (size / 32 * (size / 32)) / face.evmSchedule.quadCoeffDiv))

def updateIOGas : Exec W Unit := do
  let s ← get
  if s.ioGas < s.runGas then throw .OutOfGas else set { s with ioGas := s.ioGas - s.runGas }

def updateGas : Exec W Unit := do
  let s ← get
  (if s.mem.length < s.newMemSize then do
    let a ← gasForMem face s.newMemSize
    let b ← gasForMem face s.mem.length
    let d ← toInt63 (u64 (a + 2 ^ 64 - b))
    modify fun s => { s with runGas := u64 (s.runGas + d) }
  else pure ())
  modify fun s =>
    { s with runGas := u64 (s.runGas + u64 (face.evmSchedule.copyGas * ((s.copyMemSize + 31) / 32))) }
  let s ← get
  if s.ioGas < s.runGas then throw .OutOfGas else pure ()

/-- Pays for the memory up to `newMem` and extends it. -/
def updateMem (newMem : ℕ) : Exec W Unit := do
  modify fun s => { s with newMemSize := u64 (newMem + 31) / 32 * 32 }
  updateGas face
  modify fun s => { s with mem := s.mem ++ List.replicate (s.newMemSize - s.mem.length) 0 }

def logGasMem (n : ℕ) : Exec W Unit := do
  let size ← item 1
  let gas ← toInt63 (u512 (u32 (face.evmSchedule.logGas + u32 (face.evmSchedule.logTopicGas * n)) +
    u512 (face.evmSchedule.logDataGas * size.toNat)))
  setRunGas gas
  let offset ← item 0
  let need ← memNeed offset size
  updateMem face need

/-- The price of a tier; past the end of the table it is whatever stands there. -/
def tierGas (stray : UInt32) (tier : Tier) : ℕ :=
  (face.evmSchedule.tierStepGas[tier.index]?).getD stray.toNat

def fetchInstruction (stray : UInt32) : Exec W (Option Instruction) := do
  let s ← get
  let b ← codeByte s.pc
  let op := Instruction.ofByte b
  let metric := instructionInfo op
  adjustStack metric.args metric.ret
  let gas ← toInt63 (tierGas face stray metric.gasPriceTier)
  modify fun s => { s with runGas := gas, newMemSize := s.mem.length, copyMemSize := 0 }
  pure op

end Metering

section Arithmetic

/-- A number with a sign and a magnitude of `bits` bits. -/
def signedMagnitude (bits : ℕ) (n : ℤ) : ℤ := n.sign * (n.natAbs % 2 ^ bits : ℕ)

def s256 (n : ℤ) : ℤ := signedMagnitude 256 n

def s512 (n : ℤ) : ℤ := signedMagnitude 512 n

def u256 (n : ℤ) : Word := BitVec.ofInt 256 n

def u2s (u : Word) : ℤ :=
  if u.getLsbD 255 then s256 (-(2 ^ 256 - (u.toNat : ℤ))) else s256 u.toNat

def s2u (n : ℤ) : Word := if 0 ≤ n then u256 n else u256 (2 ^ 256 + n)

/-- The quotient of two numbers of the type that `conv` converts to. -/
def divWorkaround {S : Type} (conv : ℤ → S) (a b : ℤ) : S := conv (s512 ((s512 a).tdiv (s512 b)))

def modWorkaround {S : Type} (conv : ℤ → S) (a b : ℤ) : S := conv (s512 ((s512 a).tmod (s512 b)))

def div (a b : Word) : Word := if b ≠ 0 then divWorkaround u256 a.toNat b.toNat else 0

def sdiv (a b : Word) : Word := if b ≠ 0 then s2u (divWorkaround s256 (u2s a) (u2s b)) else 0

def mod (a b : Word) : Word := if b ≠ 0 then modWorkaround u256 a.toNat b.toNat else 0

def smod (a b : Word) : Word := if b ≠ 0 then s2u (modWorkaround s256 (u2s a) (u2s b)) else 0

/-- The sum and the product are numbers of 512 bits. -/
def addmod (a b c : Word) : Word :=
  if c ≠ 0 then ((a.setWidth 512 + b.setWidth 512) % c.setWidth 512).setWidth 256 else 0

def mulmod (a b c : Word) : Word :=
  if c ≠ 0 then ((a.setWidth 512 * b.setWidth 512) % c.setWidth 512).setWidth 256 else 0

def byteAt (i w : Word) : Word := if i < 32 then (w >>> (8 * (31 - i.toNat))) &&& 0xff else 0

def signextend (i number : Word) : Word :=
  if i < 31 then
    let testBit := i.toNat * 8 + 7
    let mask : Word := (1 <<< testBit) - 1
    if number.getLsbD testBit then number ||| ~~~mask else number &&& mask
  else number

def exp256Loop : ℕ → Word → Word → Word → Word
  | 0, result, _, _ => result
  | fuel + 1, result, base, exponent =>
    if exponent = 0 then result
    else exp256Loop fuel (if exponent.getLsbD 0 then result * base else result) (base * base)
      (exponent >>> 1)

/-- Square and multiply; an exponent has at most 256 bits. -/
def exp256 (base exponent : Word) : Word := exp256Loop 256 1 base exponent

/-- The number of zero bits in front. -/
def firstBitSet : Bytes → ℕ
  | [] => 0
  | d :: ds => if d = 0 then 8 + firstBitSet ds else 7 - d.toNat.log2

def ofBool (b : Bool) : Word := if b then 1 else 0

end Arithmetic

section Jumps

/-- Whether the sorted list has the value, by its first member not below it. -/
def binarySearch (l : List ℕ) (x : ℕ) : Bool := (l.dropWhile (· < x)).head? == some x

def verifyJumpDest (dest : Word) : Exec W ℕ := do
  let s ← get
  if dest.toNat ≤ 0x7FFFFFFFFFFFFFFF ∧ binarySearch s.jumpDests dest.toNat then pure dest.toNat
  else throw .BadJumpDestination

end Jumps

/-- Where the trampoline goes after an instruction. -/
inductive Bounce where
  | interpretCases
  | caseCreate
  | caseCall
  | stop

section Cases

variable (sha3 : Bytes → H256) (face : ExtVMFace W)

def nextPC (n : ℕ) : Exec W Bounce := do
  modify fun s => { s with pc := s.pc + n }
  pure .interpretCases

/-- An instruction that pays its price and puts one item on the stack. -/
def ordinary (e : Exec W Word) : Exec W Bounce := do
  updateIOGas
  let w ← e
  setTop w
  nextPC 1

/-- The same at a price of its own. -/
def priced (gas : ℕ) (e : Exec W Word) : Exec W Bounce := do
  let gas ← toInt63 gas
  setRunGas gas
  ordinary e

def nullary (f : VM W → Word) : Exec W Word := do
  let s ← get
  pure (f s)

def unary (f : VM W → Word → Word) : Exec W Word := do
  let s ← get
  let a ← item 0
  pure (f s a)

def binary (f : Word → Word → Word) : Exec W Word := do
  let a ← item 0
  let b ← item 1
  pure (f a b)

def ternary (f : Word → Word → Word → Word) : Exec W Word := do
  let a ← item 0
  let b ← item 1
  let c ← item 2
  pure (f a b c)

/-- The 32 bytes of the input from an offset on, with zeros after its end. -/
def calldataload : Exec W Word := do
  let a ← item 0
  if u512 (a.toNat + 31) < face.data.length then do
    let b ← slice face.data (u64 a.toNat) 32
    pure (ofBytes b)
  else if face.data.length ≤ a.toNat then pure 0
  else pure (ofBytes ((List.range 32).map fun j => face.data.getD (u64 a.toNat + j) 0))

/-- Copies from a buffer to the memory; behind the buffer there are zeros. The
three operands are `m_SP[k]` and the two after it. -/
def copyDataToMemory (data : Bytes) (k : ℕ) : Exec W Unit := do
  let a ← item k
  let bigIndex ← item (k + 1)
  let n ← item (k + 2)
  let offset := u64 a.toNat
  let index := u64 bigIndex.toNat
  let size := u64 n.toNat
  let sizeToBeCopied :=
    if bigIndex.toNat + size > data.length then
      (if data.length < bigIndex.toNat then 0 else data.length - index)
    else size
  let b ← slice data index sizeToBeCopied
  memWrite offset b
  memWrite (offset + sizeToBeCopied) (List.replicate (size - sizeToBeCopied) 0)

/-- The copying instructions; the operands start at `m_SP[k]`. -/
def copyCase (k : ℕ) (data : Exec W Bytes) : Exec W Bounce := do
  let n ← item (k + 2)
  let copy ← toInt63 n.toNat
  modify fun s => { s with copyMemSize := copy }
  let a ← item k
  let need ← memNeed a n
  updateMem face need
  updateIOGas
  let b ← data
  copyDataToMemory b k
  nextPC 1

def mload : Exec W Bounce := do
  let a ← item 0
  let offset ← toInt63 a.toNat
  updateMem face (u64 (offset + 32))
  updateIOGas
  -- The offset of the access is cut to 32 bits.
  let b ← memSlice (a.toNat % 2 ^ 32) 32
  setTop (ofBytes b)
  nextPC 1

def mstore : Exec W Bounce := do
  let a ← item 0
  let offset ← toInt63 a.toNat
  updateMem face (u64 (offset + 32))
  updateIOGas
  let w ← item 1
  memWrite (a.toNat % 2 ^ 32) (toBytes w)
  nextPC 1

def mstore8 : Exec W Bounce := do
  let a ← item 0
  let offset ← toInt63 a.toNat
  updateMem face (u64 (offset + 1))
  updateIOGas
  let w ← item 1
  memWrite (a.toNat % 2 ^ 32) [UInt8.ofNat w.toNat]
  nextPC 1

def sha3Case : Exec W Bounce := do
  let size ← item 1
  let gas ← toInt63 (u512 (face.evmSchedule.sha3Gas +
    u512 (u512 (size.toNat + 31) / 32 * face.evmSchedule.sha3WordGas)))
  setRunGas gas
  let offset ← item 0
  let need ← memNeed offset size
  updateMem face need
  updateIOGas
  let b ← memSlice (u64 offset.toNat) (u64 size.toNat)
  setTop (ofBytes (sha3 b).bytes)
  nextPC 1

/-- The topics of a log entry: `m_SP[2]` and the following. -/
def topics : ℕ → Exec W (List Word)
  | 0 => pure []
  | n + 1 => do
    let ts ← topics n
    let t ← item (n + 2)
    pure (ts ++ [t])

def logCase (n : ℕ) : Exec W Bounce := do
  logGasMem face n
  updateIOGas
  let offset ← item 0
  let size ← item 1
  let ts ← topics n
  let b ← memSlice (u64 offset.toNat) (u64 size.toNat)
  modify fun s => { s with ext := face.log s.ext ts b }
  nextPC 1

def expCase : Exec W Bounce := do
  let expon ← item 1
  priced (u32 (face.evmSchedule.expGas +
    u32 (face.evmSchedule.expByteGas * (32 - firstBitSet (toBytes expon) / 8)))) (binary exp256)

def sstore : Exec W Bounce := do
  let s ← get
  let key ← item 0
  let w ← item 1
  (if face.store s.ext key = 0 ∧ w ≠ 0 then do
    let gas ← toInt63 face.evmSchedule.sstoreSetGas
    setRunGas gas
  else if face.store s.ext key ≠ 0 ∧ w = 0 then do
    let gas ← toInt63 face.evmSchedule.sstoreResetGas
    setRunGas gas
    modify fun s => { s with ext := face.addRefunds s.ext face.evmSchedule.sstoreRefundGas }
  else do
    let gas ← toInt63 face.evmSchedule.sstoreResetGas
    setRunGas gas)
  updateIOGas
  modify fun s => { s with ext := face.setStore s.ext key w }
  nextPC 1

/-- Shifts the next `n` bytes of the code into the top of the stack. -/
def pushLoop : ℕ → Exec W Unit
  | 0 => pure ()
  | n + 1 => do
    let w ← top
    let s ← get
    let b ← codeByte s.pc
    setTop ((w <<< 8) ||| BitVec.ofNat 256 b.toNat)
    modify fun s => { s with pc := s.pc + 1 }
    pushLoop n

def pushCase (n : Fin 32) : Exec W Bounce := do
  updateIOGas
  if n = 0 then do
    modify fun s => { s with pc := s.pc + 1 }
    let s ← get
    let b ← codeByte s.pc
    setTop (BitVec.ofNat 256 b.toNat)
    nextPC 1
  else do
    setTop 0
    modify fun s => { s with pc := s.pc + 1 }
    pushLoop (n.val + 1)
    pure .interpretCases

def jump : Exec W Bounce := do
  updateIOGas
  let a ← item 0
  let pc ← verifyJumpDest a
  modify fun s => { s with pc := pc }
  pure .interpretCases

def jumpi : Exec W Bounce := do
  updateIOGas
  let condition ← item 1
  if condition ≠ 0 then do
    let a ← item 0
    let pc ← verifyJumpDest a
    modify fun s => { s with pc := pc }
    pure .interpretCases
  else nextPC 1

/-- Exchanges two items in place: both stack pointers are the same here. -/
def swapCase (n : ℕ) : Exec W Bounce := do
  updateIOGas
  let a ← item 0
  let b ← item n
  modify fun s => { s with spp := (s.spp.set 0 b).set n a }
  nextPC 1

/-- What `RETURN` and `REVERT` pay and give. -/
def outputCase : Exec W Bytes := do
  modify fun s => { s with copyMemSize := 0 }
  let offset ← item 0
  let size ← item 1
  let need ← memNeed offset size
  updateMem face need
  updateIOGas
  let b ← memSlice (u64 offset.toNat) (u64 size.toNat)
  modify fun s => { s with mem := [] }
  pure b

def suicideCase : Exec W Bounce := do
  let gas ← toInt63 face.evmSchedule.suicideGas
  setRunGas gas
  let a ← item 0
  let dest := asAddress a
  modify fun s =>
    if (0 < face.balance s.ext face.myAddress ∨
        face.evmSchedule.zeroValueTransferChargesNewAccountGas) ∧
        face.evmSchedule.suicideChargesNewAccountGas ∧ ¬ face.existsAccount s.ext dest then
      { s with runGas := u64 (s.runGas + face.evmSchedule.callNewAccountGas) }
    else s
  updateIOGas
  modify fun s => { s with ext := face.suicide s.ext dest }
  pure .stop

/-- One case of the switch. -/
def interpretCase : Option Instruction → Exec W Bounce
  | some .CREATE => pure .caseCreate
  | some .DELEGATECALL =>
    if face.evmSchedule.haveDelegateCall then pure .caseCall else throw .BadInstruction
  | some .CALL => pure .caseCall
  | some .CALLCODE => pure .caseCall
  | some .RETURN => do
    let b ← outputCase face
    modify fun s => { s with output := b }
    pure .stop
  | some .REVERT =>
    if face.evmSchedule.haveRevert then do
      let b ← outputCase face
      throw (.RevertInstruction b)
    else throw .BadInstruction
  | some .SUICIDE => suicideCase face
  | some .STOP => do
    updateIOGas
    pure .stop
  | some .MLOAD => mload face
  | some .MSTORE => mstore face
  | some .MSTORE8 => mstore8 face
  | some .SHA3 => sha3Case sha3 face
  | some (.LOG n) => logCase face n.val
  | some .EXP => expCase face
  | some .ADD => ordinary (binary fun a b => a + b)
  | some .MUL => ordinary (binary fun a b => a * b)
  | some .SUB => ordinary (binary fun a b => a - b)
  | some .DIV => ordinary (binary div)
  | some .SDIV => ordinary (binary sdiv)
  | some .MOD => ordinary (binary mod)
  | some .SMOD => ordinary (binary smod)
  | some .NOT => ordinary (unary fun _ a => ~~~a)
  | some .LT => ordinary (binary fun a b => ofBool (decide (a < b)))
  | some .GT => ordinary (binary fun a b => ofBool (decide (b < a)))
  | some .SLT => ordinary (binary fun a b => ofBool (decide (u2s a < u2s b)))
  | some .SGT => ordinary (binary fun a b => ofBool (decide (u2s b < u2s a)))
  | some .EQ => ordinary (binary fun a b => ofBool (decide (a = b)))
  | some .ISZERO => ordinary (unary fun _ a => ofBool (decide (a = 0)))
  | some .AND => ordinary (binary fun a b => a &&& b)
  | some .OR => ordinary (binary fun a b => a ||| b)
  | some .XOR => ordinary (binary fun a b => a ^^^ b)
  | some .BYTE => ordinary (binary byteAt)
  | some .ADDMOD => ordinary (ternary addmod)
  | some .MULMOD => ordinary (ternary mulmod)
  | some .SIGNEXTEND => ordinary (binary signextend)
  | some .ADDRESS => ordinary (nullary fun _ => fromAddress face.myAddress)
  | some .ORIGIN => ordinary (nullary fun _ => fromAddress face.origin)
  | some .BALANCE =>
    priced face.evmSchedule.balanceGas (unary fun s a => face.balance s.ext (asAddress a))
  | some .CALLER => ordinary (nullary fun _ => fromAddress face.caller)
  | some .CALLVALUE => ordinary (nullary fun _ => face.value)
  | some .CALLDATALOAD => ordinary (calldataload face)
  | some .CALLDATASIZE => ordinary (nullary fun _ => BitVec.ofNat 256 face.data.length)
  | some .CODESIZE => ordinary (nullary fun _ => BitVec.ofNat 256 face.code.length)
  | some .EXTCODESIZE =>
    priced face.evmSchedule.extcodesizeGas
      (unary fun s a => BitVec.ofNat 256 (face.codeSizeAt s.ext (asAddress a)))
  | some .CALLDATACOPY => copyCase face 0 (pure face.data)
  | some .CODECOPY => copyCase face 0 (pure face.code)
  | some .EXTCODECOPY => do
    let gas ← toInt63 face.evmSchedule.extcodecopyGas
    setRunGas gas
    copyCase face 1 do
      let s ← get
      let a ← item 0
      pure (face.codeAt s.ext (asAddress a))
  | some .GASPRICE => ordinary (nullary fun _ => face.gasPrice)
  | some .BLOCKHASH => ordinary (unary fun s a => face.blockHash s.ext a)
  | some .COINBASE => ordinary (nullary fun _ => fromAddress face.author)
  | some .TIMESTAMP => ordinary (nullary fun _ => face.timestamp)
  | some .NUMBER => ordinary (nullary fun _ => face.number)
  | some .DIFFICULTY => ordinary (nullary fun _ => face.difficulty)
  | some .GASLIMIT => ordinary (nullary fun _ => face.gasLimit)
  | some .POP => do
    updateIOGas
    nextPC 1
  | some (.PUSH n) => pushCase n
  | some .JUMP => jump
  | some .JUMPI => jumpi
  | some (.DUP n) => ordinary (item n.val)
  | some (.SWAP n) => swapCase (n.val + 1)
  | some .SLOAD => priced face.evmSchedule.sloadGas (unary fun s a => face.store s.ext a)
  | some .SSTORE => sstore face
  | some .PC => ordinary (nullary fun s => BitVec.ofNat 256 s.pc)
  | some .MSIZE => ordinary (nullary fun s => BitVec.ofNat 256 s.mem.length)
  | some .GAS => ordinary (nullary fun s => BitVec.ofNat 256 s.ioGas)
  | some .JUMPDEST => do
    setRunGas 1
    updateIOGas
    nextPC 1
  | some .PUSHC => throw .BadInstruction
  | some .JUMPC => throw .BadInstruction
  | some .JUMPCI => throw .BadInstruction
  | some .JUMPTO => throw .BadInstruction
  | some .JUMPIF => throw .BadInstruction
  | some .JUMPV => throw .BadInstruction
  | some .JUMPSUB => throw .BadInstruction
  | some .JUMPSUBV => throw .BadInstruction
  | some .RETURNSUB => throw .BadInstruction
  | some .BEGINSUB => throw .BadInstruction
  | some .BEGINDATA => throw .BadInstruction
  | some .BAD => throw .BadInstruction
  | none => throw .BadInstruction

def caseCreate : Exec W Unit := do
  let gas ← toInt63 face.evmSchedule.createGas
  setRunGas gas
  let initOff ← item 1
  let initSize ← item 2
  let need ← memNeed initOff initSize
  updateMem face need
  updateIOGas
  let endowment ← item 0
  let s ← get
  (if endowment ≤ face.balance s.ext face.myAddress ∧ face.depth < 1024 then do
    let ioGas := BitVec.ofNat 256 s.ioGas
    let createGas := if face.evmSchedule.staticCallDepthLimit then ioGas else ioGas - ioGas / 64
    let b ← memSlice (u64 initOff.toNat) (u64 initSize.toNat)
    let (a, gas, ext) := face.create s.ext endowment createGas b
    modify fun s => { s with ext := ext, ioGas := u64 (ioGas - (createGas - gas)).toNat }
    setTop (fromAddress a)
  else setTop 0)
  modify fun s => { s with pc := s.pc + 1 }

/-- Pays for a call. Gives its parameters, whether it is made, and where its output
goes. -/
def caseCallSetup (op : Instruction) : Exec W (CallParameters × Bool × ℕ × ℕ) := do
  let gas ← toInt63 face.evmSchedule.callGas
  setRunGas gas
  let a ← item 1
  let w ← item 2
  let s ← get
  (if op = .CALL ∧ ¬ face.existsAccount s.ext (asAddress a) ∧
      (0 < w ∨ face.evmSchedule.zeroValueTransferChargesNewAccountGas) then do
    let gas ← toInt63 face.evmSchedule.callNewAccountGas
    modify fun s => { s with runGas := u64 (s.runGas + gas) }
  else pure ())
  (if op ≠ .DELEGATECALL ∧ 0 < w then do
    let gas ← toInt63 face.evmSchedule.callValueTransferGas
    modify fun s => { s with runGas := u64 (s.runGas + gas) }
  else pure ())
  let sizesOffset := if op = .DELEGATECALL then 2 else 3
  let inputOffset ← item sizesOffset
  let inputSize ← item (sizesOffset + 1)
  let outputOffset ← item (sizesOffset + 2)
  let outputSize ← item (sizesOffset + 3)
  let inputMemNeed ← memNeed inputOffset inputSize
  let outputMemNeed ← memNeed outputOffset outputSize
  updateMem face (max inputMemNeed outputMemNeed)
  updateIOGas
  let requested ← item 0
  let s ← get
  let callGas := if face.evmSchedule.staticCallDepthLimit then requested
    else (if requested ≤ BitVec.ofNat 256 (s.ioGas - s.ioGas / 64) then requested
      else BitVec.ofNat 256 (s.ioGas - s.ioGas / 64))
  let gas ← toInt63 callGas.toNat
  setRunGas gas
  updateIOGas
  let transfers := op ≠ .DELEGATECALL ∧ 0 < w
  let callGas := if transfers then callGas + BitVec.ofNat 256 face.evmSchedule.callStipend
    else callGas
  let valueTransfer := if op = .DELEGATECALL then 0 else w
  let apparentValue := if op = .DELEGATECALL then face.value else w
  let s ← get
  let made := decide (valueTransfer ≤ face.balance s.ext face.myAddress ∧ face.depth < 1024)
  let data ← (if made then memSlice (u64 inputOffset.toNat) (u64 inputSize.toNat) else pure [])
  pure
    ({ senderAddress := if op = .DELEGATECALL then face.caller else face.myAddress
       codeAddress := asAddress a
       receiveAddress := if op = .CALL then asAddress a else face.myAddress
       valueTransfer := valueTransfer
       apparentValue := apparentValue
       gas := callGas
       data := data }, made, u64 outputOffset.toNat, u64 outputSize.toNat)

def caseCall (op : Instruction) : Exec W Unit := do
  let (callParams, made, outOff, outSize) ← caseCallSetup face op
  (if made then do
    let s ← get
    let (success, output, gas, ext) := face.call s.ext callParams
    modify fun s => { s with ext := ext }
    memWrite outOff (output.take outSize)
    setTop (ofBool success)
    modify fun s => { s with ioGas := u64 (s.ioGas + u64 gas.toNat) }
  else do
    setTop 0
    modify fun s => { s with ioGas := u64 (s.ioGas + u64 callParams.gas.toNat) })
  modify fun s => { s with pc := s.pc + 1 }

/-- One instruction with what it calls; tells whether the machine goes on. -/
def step (stray : UInt32) : Exec W Bool := do
  let op ← fetchInstruction face stray
  let bounce ← interpretCase sha3 face op
  match bounce with
  | .interpretCases => pure true
  | .caseCreate => do
    caseCreate face
    pure true
  | .caseCall => do
    caseCall face (op.getD .CALL)
    pure true
  | .stop => pure false

end Cases

section Entry

/-- The scan of `optimize` from `pc` on: the opcodes that are the interpreter's own
become `BAD`, and the jump destinations are collected. -/
def optimizeLoop (nBytes : ℕ) : ℕ → ℕ → Bytes → List ℕ → Bytes × List ℕ
  | 0, _, code, dests => (code, dests)
  | fuel + 1, pc, code, dests =>
    if pc < nBytes then
      let op := code.getD pc 0
      let code' := if op = 0xac ∨ op = 0xad ∨ op = 0xae then code.set pc 0xaf else code
      if op = 0x5b then optimizeLoop nBytes fuel (pc + 1) code' (dests ++ [pc])
      else if 0x60 ≤ op ∧ op ≤ 0x7f then
        optimizeLoop nBytes fuel (pc + 1 + (op.toNat - 0x60 + 1)) code' dests
      else optimizeLoop nBytes fuel (pc + 1) code' dests
    else (code, dests)

/-- The code, extended by 33 zero bytes, and its jump destinations. -/
def optimize (code : Bytes) : Bytes × List ℕ :=
  optimizeLoop code.length code.length 0 (code ++ List.replicate 33 0) []

/-- The machine after `initEntry`, with its gas cut to 64 bits. -/
def initEntry (face : ExtVMFace W) (ioGas : Word) (ext : W) : VM W where
  ioGas := u64 ioGas.toNat
  ext := ext
  code := (optimize face.code).1
  jumpDests := (optimize face.code).2
  mem := []
  output := []
  pc := 0
  sp := []
  spp := []
  runGas := 0
  newMemSize := 0
  copyMemSize := 0

/-- A run of at most `fuel` instructions: how it ends, and the machine that is left. -/
def exec (sha3 : Bytes → H256) (face : ExtVMFace W) (stray : UInt32) (fuel : ℕ) (ioGas : Word)
    (ext : W) : Option (EStateM.Result VMException (VM W) Unit) :=
  Machine.runFor (step sha3 face stray) fuel (initEntry face ioGas ext)

end Entry

end VM
end XChain
