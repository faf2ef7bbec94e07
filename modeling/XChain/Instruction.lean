import XChain.Rlp

/-!
# Instructions and prices

The opcodes of the virtual machine, what each one takes from the stack and puts
back, and the gas schedules. A byte that is no opcode has the tier `Invalid`,
which is past the end of the tier prices.
-/
namespace XChain

/-- The opcodes. `PUSH n` pushes `n + 1` bytes; `DUP n`, `SWAP n` and `LOG n` count
from zero in the same way, except that `LOG n` has `n` topics. -/
inductive Instruction where
  | STOP | ADD | MUL | SUB | DIV | SDIV | MOD | SMOD | ADDMOD | MULMOD | EXP | SIGNEXTEND
  | LT | GT | SLT | SGT | EQ | ISZERO | AND | OR | XOR | NOT | BYTE
  | SHA3
  | ADDRESS | BALANCE | ORIGIN | CALLER | CALLVALUE | CALLDATALOAD | CALLDATASIZE | CALLDATACOPY
  | CODESIZE | CODECOPY | GASPRICE | EXTCODESIZE | EXTCODECOPY
  | BLOCKHASH | COINBASE | TIMESTAMP | NUMBER | DIFFICULTY | GASLIMIT
  | JUMPTO | JUMPIF | JUMPV | JUMPSUB | JUMPSUBV | RETURNSUB
  | POP | MLOAD | MSTORE | MSTORE8 | SLOAD | SSTORE | JUMP | JUMPI | PC | MSIZE | GAS | JUMPDEST
  | BEGINSUB | BEGINDATA
  | PUSH (n : Fin 32) | DUP (n : Fin 16) | SWAP (n : Fin 16) | LOG (n : Fin 5)
  | PUSHC | JUMPC | JUMPCI | BAD
  | CREATE | CALL | CALLCODE | RETURN | DELEGATECALL | REVERT | SUICIDE
  deriving DecidableEq

namespace Instruction

/-- The opcode with a given byte, if there is one. -/
def ofByte (b : UInt8) : Option Instruction :=
  match b.toNat with
  | 0x00 => some STOP
  | 0x01 => some ADD
  | 0x02 => some MUL
  | 0x03 => some SUB
  | 0x04 => some DIV
  | 0x05 => some SDIV
  | 0x06 => some MOD
  | 0x07 => some SMOD
  | 0x08 => some ADDMOD
  | 0x09 => some MULMOD
  | 0x0a => some EXP
  | 0x0b => some SIGNEXTEND
  | 0x10 => some LT
  | 0x11 => some GT
  | 0x12 => some SLT
  | 0x13 => some SGT
  | 0x14 => some EQ
  | 0x15 => some ISZERO
  | 0x16 => some AND
  | 0x17 => some OR
  | 0x18 => some XOR
  | 0x19 => some NOT
  | 0x1a => some BYTE
  | 0x20 => some SHA3
  | 0x30 => some ADDRESS
  | 0x31 => some BALANCE
  | 0x32 => some ORIGIN
  | 0x33 => some CALLER
  | 0x34 => some CALLVALUE
  | 0x35 => some CALLDATALOAD
  | 0x36 => some CALLDATASIZE
  | 0x37 => some CALLDATACOPY
  | 0x38 => some CODESIZE
  | 0x39 => some CODECOPY
  | 0x3a => some GASPRICE
  | 0x3b => some EXTCODESIZE
  | 0x3c => some EXTCODECOPY
  | 0x40 => some BLOCKHASH
  | 0x41 => some COINBASE
  | 0x42 => some TIMESTAMP
  | 0x43 => some NUMBER
  | 0x44 => some DIFFICULTY
  | 0x45 => some GASLIMIT
  | 0x4a => some JUMPTO
  | 0x4b => some JUMPIF
  | 0x4c => some JUMPV
  | 0x4d => some JUMPSUB
  | 0x4e => some JUMPSUBV
  | 0x4f => some RETURNSUB
  | 0x50 => some POP
  | 0x51 => some MLOAD
  | 0x52 => some MSTORE
  | 0x53 => some MSTORE8
  | 0x54 => some SLOAD
  | 0x55 => some SSTORE
  | 0x56 => some JUMP
  | 0x57 => some JUMPI
  | 0x58 => some PC
  | 0x59 => some MSIZE
  | 0x5a => some GAS
  | 0x5b => some JUMPDEST
  | 0x5c => some BEGINSUB
  | 0x5d => some BEGINDATA
  | 0xac => some PUSHC
  | 0xad => some JUMPC
  | 0xae => some JUMPCI
  | 0xaf => some BAD
  | 0xf0 => some CREATE
  | 0xf1 => some CALL
  | 0xf2 => some CALLCODE
  | 0xf3 => some RETURN
  | 0xf4 => some DELEGATECALL
  | 0xfd => some REVERT
  | 0xff => some SUICIDE
  | n =>
    if h : 0x60 ≤ n ∧ n ≤ 0x7f then some (PUSH ⟨n - 0x60, by omega⟩)
    else if h : 0x80 ≤ n ∧ n ≤ 0x8f then some (DUP ⟨n - 0x80, by omega⟩)
    else if h : 0x90 ≤ n ∧ n ≤ 0x9f then some (SWAP ⟨n - 0x90, by omega⟩)
    else if h : 0xa0 ≤ n ∧ n ≤ 0xa4 then some (LOG ⟨n - 0xa0, by omega⟩)
    else none

end Instruction

inductive Tier where
  | Zero | Base | VeryLow | Low | Mid | High | Ext | Special | Invalid
  deriving DecidableEq

/-- The position of a tier in the table of prices. -/
def Tier.index : Tier → ℕ
  | Zero => 0
  | Base => 1
  | VeryLow => 2
  | Low => 3
  | Mid => 4
  | High => 5
  | Ext => 6
  | Special => 7
  | Invalid => 8

/-- `args` items are taken from the stack and `ret` items put back; `additional`
bytes of the code belong to the instruction. -/
structure InstructionInfo where
  additional : ℕ
  args : ℕ
  ret : ℕ
  gasPriceTier : Tier
  deriving DecidableEq

/-- The table of the opcodes. The line for `BAD` has the key of `STOP`, so `BAD` is
not in the table. -/
def c_instructionInfo : Instruction → Option InstructionInfo
  | .STOP => some ⟨0, 0, 0, .Zero⟩
  | .ADD => some ⟨0, 2, 1, .VeryLow⟩
  | .SUB => some ⟨0, 2, 1, .VeryLow⟩
  | .MUL => some ⟨0, 2, 1, .Low⟩
  | .DIV => some ⟨0, 2, 1, .Low⟩
  | .SDIV => some ⟨0, 2, 1, .Low⟩
  | .MOD => some ⟨0, 2, 1, .Low⟩
  | .SMOD => some ⟨0, 2, 1, .Low⟩
  | .EXP => some ⟨0, 2, 1, .Special⟩
  | .NOT => some ⟨0, 1, 1, .VeryLow⟩
  | .LT => some ⟨0, 2, 1, .VeryLow⟩
  | .GT => some ⟨0, 2, 1, .VeryLow⟩
  | .SLT => some ⟨0, 2, 1, .VeryLow⟩
  | .SGT => some ⟨0, 2, 1, .VeryLow⟩
  | .EQ => some ⟨0, 2, 1, .VeryLow⟩
  | .ISZERO => some ⟨0, 1, 1, .VeryLow⟩
  | .AND => some ⟨0, 2, 1, .VeryLow⟩
  | .OR => some ⟨0, 2, 1, .VeryLow⟩
  | .XOR => some ⟨0, 2, 1, .VeryLow⟩
  | .BYTE => some ⟨0, 2, 1, .VeryLow⟩
  | .ADDMOD => some ⟨0, 3, 1, .Mid⟩
  | .MULMOD => some ⟨0, 3, 1, .Mid⟩
  | .SIGNEXTEND => some ⟨0, 2, 1, .Low⟩
  | .SHA3 => some ⟨0, 2, 1, .Special⟩
  | .ADDRESS => some ⟨0, 0, 1, .Base⟩
  | .BALANCE => some ⟨0, 1, 1, .Special⟩
  | .ORIGIN => some ⟨0, 0, 1, .Base⟩
  | .CALLER => some ⟨0, 0, 1, .Base⟩
  | .CALLVALUE => some ⟨0, 0, 1, .Base⟩
  | .CALLDATALOAD => some ⟨0, 1, 1, .VeryLow⟩
  | .CALLDATASIZE => some ⟨0, 0, 1, .Base⟩
  | .CALLDATACOPY => some ⟨0, 3, 0, .VeryLow⟩
  | .CODESIZE => some ⟨0, 0, 1, .Base⟩
  | .CODECOPY => some ⟨0, 3, 0, .VeryLow⟩
  | .GASPRICE => some ⟨0, 0, 1, .Base⟩
  | .EXTCODESIZE => some ⟨0, 1, 1, .Special⟩
  | .EXTCODECOPY => some ⟨0, 4, 0, .Special⟩
  | .BLOCKHASH => some ⟨0, 1, 1, .Ext⟩
  | .COINBASE => some ⟨0, 0, 1, .Base⟩
  | .TIMESTAMP => some ⟨0, 0, 1, .Base⟩
  | .NUMBER => some ⟨0, 0, 1, .Base⟩
  | .DIFFICULTY => some ⟨0, 0, 1, .Base⟩
  | .GASLIMIT => some ⟨0, 0, 1, .Base⟩
  | .JUMPTO => some ⟨4, 1, 0, .VeryLow⟩
  | .JUMPIF => some ⟨4, 2, 0, .Low⟩
  | .JUMPV => some ⟨4, 1, 0, .Mid⟩
  | .JUMPSUB => some ⟨4, 1, 0, .Low⟩
  | .JUMPSUBV => some ⟨4, 1, 0, .Mid⟩
  | .RETURNSUB => some ⟨0, 1, 0, .Mid⟩
  | .POP => some ⟨0, 1, 0, .Base⟩
  | .MLOAD => some ⟨0, 1, 1, .VeryLow⟩
  | .MSTORE => some ⟨0, 2, 0, .VeryLow⟩
  | .MSTORE8 => some ⟨0, 2, 0, .VeryLow⟩
  | .SLOAD => some ⟨0, 1, 1, .Special⟩
  | .SSTORE => some ⟨0, 2, 0, .Special⟩
  | .JUMP => some ⟨0, 1, 0, .Mid⟩
  | .JUMPI => some ⟨0, 2, 0, .High⟩
  | .PC => some ⟨0, 0, 1, .Base⟩
  | .MSIZE => some ⟨0, 0, 1, .Base⟩
  | .GAS => some ⟨0, 0, 1, .Base⟩
  | .JUMPDEST => some ⟨0, 0, 0, .Special⟩
  | .BEGINDATA => some ⟨0, 0, 0, .Special⟩
  | .BEGINSUB => some ⟨0, 0, 0, .Special⟩
  | .PUSH n => some ⟨n.val + 1, 0, 1, .VeryLow⟩
  | .DUP n => some ⟨0, n.val + 1, n.val + 2, .VeryLow⟩
  | .SWAP n => some ⟨0, n.val + 2, n.val + 2, .VeryLow⟩
  | .LOG n => some ⟨0, n.val + 2, 0, .Special⟩
  | .CREATE => some ⟨0, 3, 1, .Special⟩
  | .CALL => some ⟨0, 7, 1, .Special⟩
  | .CALLCODE => some ⟨0, 7, 1, .Special⟩
  | .RETURN => some ⟨0, 2, 0, .Zero⟩
  | .DELEGATECALL => some ⟨0, 6, 1, .Special⟩
  | .REVERT => some ⟨0, 2, 0, .Special⟩
  | .SUICIDE => some ⟨0, 1, 0, .Special⟩
  | .PUSHC => some ⟨2, 0, 1, .VeryLow⟩
  | .JUMPC => some ⟨0, 1, 0, .Mid⟩
  | .JUMPCI => some ⟨0, 1, 0, .High⟩
  | .BAD => none

/-- The entry for a byte of the code. -/
def instructionInfo (op : Option Instruction) : InstructionInfo :=
  (op.bind c_instructionInfo).getD ⟨0, 0, 0, .Invalid⟩

/-- A byte of the code is in the table. -/
def isValidInstruction (op : Option Instruction) : Bool := (op.bind c_instructionInfo).isSome

/-- No entry of the table has the tier that stands for a missing one. -/
theorem tier_ne_invalid {op : Instruction} {info : InstructionInfo}
    (h : c_instructionInfo op = some info) : info.gasPriceTier ≠ .Invalid := by
  have hall : (c_instructionInfo op).all (fun i => decide (i.gasPriceTier ≠ .Invalid)) = true := by
    cases op <;> rfl
  rw [h] at hall
  exact of_decide_eq_true hall

theorem gasPriceTier_invalid_iff (op : Option Instruction) :
    (instructionInfo op).gasPriceTier = .Invalid ↔ isValidInstruction op = false := by
  unfold instructionInfo isValidInstruction
  cases hinfo : op.bind c_instructionInfo with
  | none => simp
  | some info =>
    obtain ⟨op', -, htable⟩ := Option.bind_eq_some_iff.mp hinfo
    simp [tier_ne_invalid htable]

theorem additional_le (op : Option Instruction) : (instructionInfo op).additional ≤ 32 := by
  cases op with
  | none => exact Nat.zero_le _
  | some op =>
    cases op with
    | PUSH n => exact n.isLt
    | _ => exact Nat.le_of_ble_eq_true rfl

/-- The prices and switches of a fork; every price is an `unsigned`. -/
structure EVMSchedule where
  exceptionalFailedCodeDeposit : Bool := true
  haveDelegateCall : Bool := true
  eip150Mode : Bool := false
  eip158Mode : Bool := false
  haveRevert : Bool := false
  tierStepGas : Vector ℕ 8 := #v[0, 2, 3, 5, 8, 10, 20, 0]
  expGas : ℕ := 10
  expByteGas : ℕ := 10
  sha3Gas : ℕ := 30
  sha3WordGas : ℕ := 6
  sloadGas : ℕ := 50
  sstoreSetGas : ℕ := 20000
  sstoreResetGas : ℕ := 5000
  sstoreRefundGas : ℕ := 15000
  jumpdestGas : ℕ := 1
  logGas : ℕ := 375
  logDataGas : ℕ := 8
  logTopicGas : ℕ := 375
  createGas : ℕ := 32000
  callGas : ℕ := 40
  callStipend : ℕ := 2300
  callValueTransferGas : ℕ := 9000
  callNewAccountGas : ℕ := 25000
  suicideRefundGas : ℕ := 24000
  memoryGas : ℕ := 3
  quadCoeffDiv : ℕ := 512
  createDataGas : ℕ := 200
  txGas : ℕ := 21000
  txCreateGas : ℕ := 53000
  txDataZeroGas : ℕ := 4
  txDataNonZeroGas : ℕ := 68
  copyGas : ℕ := 3
  extcodesizeGas : ℕ := 20
  extcodecopyGas : ℕ := 20
  balanceGas : ℕ := 20
  suicideGas : ℕ := 0
  maxCodeSize : ℕ := 2 ^ 32 - 1

namespace EVMSchedule

def staticCallDepthLimit (s : EVMSchedule) : Bool := !s.eip150Mode

def suicideChargesNewAccountGas (s : EVMSchedule) : Bool := s.eip150Mode

def emptinessIsNonexistence (s : EVMSchedule) : Bool := s.eip158Mode

def zeroValueTransferChargesNewAccountGas (s : EVMSchedule) : Bool := !s.eip158Mode

end EVMSchedule

def DefaultSchedule : EVMSchedule := {}

def FrontierSchedule : EVMSchedule :=
  { exceptionalFailedCodeDeposit := false, haveDelegateCall := false, txCreateGas := 21000 }

def HomesteadSchedule : EVMSchedule :=
  { exceptionalFailedCodeDeposit := true, haveDelegateCall := true, txCreateGas := 53000 }

def EIP150Schedule : EVMSchedule :=
  { HomesteadSchedule with
    eip150Mode := true
    extcodesizeGas := 700
    extcodecopyGas := 700
    balanceGas := 400
    sloadGas := 200
    callGas := 700
    suicideGas := 5000
    maxCodeSize := 0x6000 }

def EIP158Schedule : EVMSchedule :=
  { EIP150Schedule with
    expByteGas := 50
    eip158Mode := true }

def MetropolisSchedule : EVMSchedule := { EIP158Schedule with haveRevert := true }

/-- The schedules that are defined. -/
def schedules : List EVMSchedule :=
  [DefaultSchedule, FrontierSchedule, HomesteadSchedule, EIP150Schedule, EIP158Schedule,
    MetropolisSchedule]

/-- Every instruction that goes on has a price, a transfer of value costs more than
the stipend it gives, and no price is large. -/
structure EVMSchedule.Priced (s : EVMSchedule) : Prop where
  tiers : s.tierStepGas = #v[0, 2, 3, 5, 8, 10, 20, 0]
  positive : ∀ price ∈ [s.expGas, s.sha3Gas, s.sloadGas, s.sstoreSetGas, s.sstoreResetGas,
    s.logGas, s.createGas, s.callGas, s.extcodesizeGas, s.extcodecopyGas, s.balanceGas], 1 ≤ price
  stipend : s.callStipend ≤ s.callValueTransferGas
  small : ∀ price ∈ [s.expGas, s.expByteGas, s.sha3Gas, s.sha3WordGas, s.logGas, s.logDataGas,
    s.logTopicGas, s.callGas, s.callNewAccountGas, s.callValueTransferGas, s.callStipend,
    s.extcodecopyGas, s.createGas, s.suicideGas], price ≤ 100000
  copyGas : s.copyGas = 3

theorem priced_of_mem {s : EVMSchedule} (hs : s ∈ schedules) : s.Priced := by
  simp only [schedules, List.mem_cons, List.not_mem_nil, or_false] at hs
  rcases hs with rfl | rfl | rfl | rfl | rfl | rfl <;>
    exact ⟨rfl, by decide, by decide, by decide, rfl⟩

end XChain
