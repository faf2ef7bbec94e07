import XChain.Common
import XChain.MemoryDB
import XChain.Rlp

/-!
# Transactions

The fields of a transaction as they are held, and its two encodings: with the
signature, and without it for the hash that is signed.
-/
namespace XChain

structure SignatureStruct where
  r : Word
  s : Word
  v : UInt8
  deriving DecidableEq

/-- Whether a transaction is nothing yet, makes a contract or calls an account. -/
inductive TransactionType where
  | NullTransaction
  | ContractCreation
  | MessageCall
  deriving DecidableEq

/-- A transaction. Only the default constructor makes a null transaction, and it
leaves the gas at zero. A zero `sender` has not been recovered or forced yet. -/
structure Transaction where
  type : TransactionType
  nonce : Word
  value : Word
  receiveAddress : Address
  gasPrice : Word
  gas : Word
  data : Bytes
  vrs : SignatureStruct
  chainId : ℤ
  sender : Address
  null_gas : type = .NullTransaction → gas = 0

namespace Transaction

/-- A call for the gas of a plain transfer is no null transaction. -/
theorem null_gas_call : TransactionType.MessageCall = .NullTransaction → (21000 : Word) = 0 :=
  fun h => nomatch h

variable (t : Transaction)

def isNull : Bool := t.type = .NullTransaction

def isCreation : Bool := t.type = .ContractCreation

def hasZeroSignature : Bool := t.vrs.s = 0 ∧ t.vrs.r = 0

/-- A number as an item: its digits without leading zeros. -/
def ofNat (n : ℕ) : Item := .data (Rlp.bigEndian n)

/-- The bytes of an address. -/
def addressBytes (a : Address) : Bytes :=
  List.ofFn fun i : Fin 20 => UInt8.ofNat (a.toNat / 256 ^ (19 - i.val))

/-- The list of items that `streamRLP` writes; a null transaction writes nothing. The
sum with the recovery id is an `unsigned`. -/
def streamItem (sig forEip155hash : Bool) : Option Item :=
  if t.type = .NullTransaction then none
  else
    some (.list ([ofNat t.nonce.toNat, ofNat t.gasPrice.toNat, ofNat t.gas.toNat,
      (if t.type = .MessageCall then .data (addressBytes t.receiveAddress) else .data []),
      ofNat t.value.toNat, .data t.data] ++
      if sig then
        [ofNat ((t.vrs.v.toNat + (t.chainId * 2 + 35)) % 2 ^ 32).toNat, ofNat t.vrs.r.toNat,
          ofNat t.vrs.s.toNat]
      else if forEip155hash then
        [ofNat (t.chainId % 2 ^ 32).toNat, ofNat 0, ofNat 0]
      else []))

def rlp (sig forEip155hash : Bool) : Bytes := ((t.streamItem sig forEip155hash).map Rlp.encode).getD []

/-- The hash that is signed. -/
def sha3WithoutSignature (sha3 : Bytes → H256) : H256 := sha3 (t.rlp false (0 < t.chainId))

/-- The sender that was forced or found before, or the one that the signature gives.
There is none when the signature is invalid. -/
def senderOf (sha3 : Bytes → H256) (recover : SignatureStruct → H256 → Option Address) :
    Option Address :=
  if t.sender ≠ 0 then some t.sender
  else if t.hasZeroSignature then some MaxAddress
  else recover t.vrs (t.sha3WithoutSignature sha3)

end Transaction
end XChain
