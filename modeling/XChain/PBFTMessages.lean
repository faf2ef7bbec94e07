import Mathlib.Data.Set.Function
import XChain.Common
import XChain.FixedHash
import XChain.Text

/-!
# Messages of the PBFT client

Every message is a list of its fields, and reading that list into any message of its class
gives the fields back. What a node signs beside the block is not a list but four numbers one
after the other; no number is the beginning of another one, so they can still be told apart.
-/
namespace XChain

namespace Rlp

/-- Reads a hash of exactly its size. -/
def toHashExact (n : ℕ) : Item → Option (FixedHash n)
  | .data b => if h : b.length = n then some ⟨b, h⟩ else none
  | .list _ => none

@[simp] theorem toHashExact_bytes {n : ℕ} (a : FixedHash n) :
    toHashExact n (.data a.bytes) = some a := by
  simp [toHashExact, a.size]

/-- Items can be told apart without a header around them. -/
theorem encodeAll_injective : Function.Injective encodeAll := by
  intro xs ys h
  have hlist : encode (.list xs) = encode (.list ys) := by simp only [encode, h]
  simpa using encode_injective hlist

theorem ofNat_injective : Function.Injective ofNat := by
  intro n m h
  have hdigits : bigEndian n = bigEndian m := by simpa [ofNat] using h
  simpa using congrArg ofBigEndian hdigits

end Rlp

namespace PBFT

open Rlp

/-- The value of a number that was not given. -/
def Invalid256 : Word := BitVec.allOnes 256

abbrev Signature := FixedHash 65

/-- What is added to an exception about a field: the field and its bytes. -/
structure BadField where
  name : Text
  field : ℕ
  data : Text

def BadField.ofField (r : Item) (field : ℕ) : BadField where
  name := "invalid msg format".toList
  field := field
  data := Text.toHex ((get? r field).elim [] encode)

@[simp] theorem BadField.field_ofField (r : Item) (field : ℕ) :
    (BadField.ofField r field).field = field := rfl

/-- A field is read into a message, which is left as it is if that throws. -/
def readField {M α : Type} (r : Item) (field : ℕ) (read : Option Item → Option α)
    (set : α → M → M) (m : M) : Except (BadField × M) M :=
  match read (get? r field) with
  | some v => .ok (set v m)
  | none => .error (.ofField r field, m)

/-- A number. A field that is missing is none. -/
def toU256 (x : Option Item) : Option Word := x.bind (toUint 256)

def toH256 (x : Option Item) : Option (FixedHash 32) := x.bind (toHashExact 32)

/-- The bytes of a field, without any for a field that is missing or a list. -/
def toBytesLax (x : Option Item) : Option Bytes := some (x.elim [] toBytes)

structure PBFTMsg where
  height : Word := Invalid256
  view : Word := Invalid256
  idx : Word := Invalid256
  timestamp : Word := Invalid256
  block_hash : FixedHash 32 := .zero 32
  sig : Signature := .zero 65
  sig2 : Signature := .zero 65

namespace PBFTMsg

variable (m : PBFTMsg)

def streamRLPFields : List Item :=
  [ofNat m.height.toNat, ofNat m.view.toNat, ofNat m.idx.toNat, ofNat m.timestamp.toNat,
    .data m.block_hash.bytes, .data m.sig.bytes, .data m.sig2.bytes]

/-- Reads the fields one after the other. Those before the first bad one are changed. -/
def populate (r : Item) : Except (BadField × PBFTMsg) PBFTMsg := do
  let m ← readField r 0 toU256 (fun v m => { m with height := v }) m
  let m ← readField r 1 toU256 (fun v m => { m with view := v }) m
  let m ← readField r 2 toU256 (fun v m => { m with idx := v }) m
  let m ← readField r 3 toU256 (fun v m => { m with timestamp := v }) m
  let m ← readField r 4 toH256 (fun v m => { m with block_hash := v }) m
  let m ← readField r 5 toBytesLax (fun v m => { m with sig := .ofRef 65 v }) m
  readField r 6 toBytesLax (fun v m => { m with sig2 := .ofRef 65 v }) m

/-- The bytes under the second signature: no list, only the numbers. -/
def outWithoutBlock : Bytes :=
  encodeAll [ofNat m.height.toNat, ofNat m.view.toNat, ofNat m.idx.toNat, ofNat m.timestamp.toNat]

def fieldsWithoutBlock (sha3 : Bytes → FixedHash 32) : FixedHash 32 := sha3 m.outWithoutBlock

end PBFTMsg

structure PrepareReq extends PBFTMsg where
  block : Bytes := []

structure SignReq extends PBFTMsg

structure CommitReq extends PBFTMsg

structure ViewChangeReq extends PBFTMsg

/-- The fields of a base class are read, those of the class itself stay. -/
def populateBase {M : Type} (base : M → PBFTMsg) (withBase : PBFTMsg → M → M) (m : M) (r : Item) :
    Except (BadField × M) M :=
  match (base m).populate r with
  | .ok b => .ok (withBase b m)
  | .error (e, b) => .error (e, withBase b m)

namespace PrepareReq

variable (m : PrepareReq)

def streamRLPFields : List Item := m.toPBFTMsg.streamRLPFields ++ [.data m.block]

def populate (r : Item) : Except (BadField × PrepareReq) PrepareReq := do
  let m ← populateBase toPBFTMsg (fun b m => { m with toPBFTMsg := b }) m r
  readField r 7 toBytesLax (fun v m => { m with block := v }) m

end PrepareReq

/-- The classes of messages: each writes its fields and reads them. -/
class Message (M : Type) where
  streamRLPFields : M → List Item
  populate : M → Item → Except (BadField × M) M

instance instMessagePBFTMsg : Message PBFTMsg := ⟨PBFTMsg.streamRLPFields, PBFTMsg.populate⟩

instance instMessagePrepareReq : Message PrepareReq :=
  ⟨PrepareReq.streamRLPFields, PrepareReq.populate⟩

instance instMessageSignReq : Message SignReq :=
  ⟨fun m => m.toPBFTMsg.streamRLPFields, populateBase SignReq.toPBFTMsg fun b _ => ⟨b⟩⟩

instance instMessageCommitReq : Message CommitReq :=
  ⟨fun m => m.toPBFTMsg.streamRLPFields, populateBase CommitReq.toPBFTMsg fun b _ => ⟨b⟩⟩

instance instMessageViewChangeReq : Message ViewChangeReq :=
  ⟨fun m => m.toPBFTMsg.streamRLPFields, populateBase ViewChangeReq.toPBFTMsg fun b _ => ⟨b⟩⟩

/-- A list that was written is read back into any message of the class. -/
def Restores (M : Type) [Message M] : Prop :=
  ∀ m old : M, ∃ r, decodeStrict (encode (.list (Message.streamRLPFields m))) = some r ∧
    Message.populate old r = .ok m

section Fields

variable {M α : Type} {r : Item} {field : ℕ} {read : Option Item → Option α} {set : α → M → M}
  {m m' : M} {e : BadField}

theorem readField_ok {x : Item} {v : α} (hx : get? r field = some x) (hv : read (some x) = some v) :
    readField r field read set m = .ok (set v m) := by
  simp only [readField, hx, hv]

theorem readField_bind {β : Type} {x : Item} {v : α} (k : M → Except (BadField × M) β)
    (hx : get? r field = some x) (hv : read (some x) = some v) :
    (readField r field read set m >>= k) = k (set v m) := by
  rw [readField_ok hx hv]
  rfl

/-- An exception is about the field that was read, and the message is as before. -/
theorem readField_bind_error {β : Type} {k : M → Except (BadField × M) β}
    (h : (readField r field read set m >>= k) = .error (e, m')) :
    (e = .ofField r field ∧ m' = m) ∨ ∃ v, k (set v m) = .error (e, m') := by
  cases hv : read (get? r field) with
  | some v =>
    simp only [readField, hv] at h
    exact .inr ⟨v, h⟩
  | none =>
    simp only [readField, hv] at h
    cases h
    exact .inl ⟨rfl, rfl⟩

@[simp] theorem toU256_ofNat (w : Word) : toU256 (some (ofNat w.toNat)) = some w :=
  toUint_ofNat (by norm_num) w

@[simp] theorem toH256_bytes (h : FixedHash 32) : toH256 (some (.data h.bytes)) = some h :=
  toHashExact_bytes h

@[simp] theorem toBytesLax_data (b : Bytes) : toBytesLax (some (.data b)) = some b := by
  simp [toBytesLax, toBytes]

end Fields

/-- Whatever follows the fields, they are read. -/
theorem PBFTMsg.populate_streamRLPFields (m old : PBFTMsg) (rest : List Item) :
    old.populate (.list (m.streamRLPFields ++ rest)) = .ok m := by
  have hget (i : ℕ) (h : i < 7) : get? (.list (m.streamRLPFields ++ rest)) i =
      m.streamRLPFields[i]? := List.getElem?_append_left h
  rw [populate, readField_bind _ (hget 0 (by omega)) (toU256_ofNat _),
    readField_bind _ (hget 1 (by omega)) (toU256_ofNat _),
    readField_bind _ (hget 2 (by omega)) (toU256_ofNat _),
    readField_bind _ (hget 3 (by omega)) (toU256_ofNat _),
    readField_bind _ (hget 4 (by omega)) (toH256_bytes _),
    readField_bind _ (hget 5 (by omega)) (toBytesLax_data _),
    readField_ok (hget 6 (by omega)) (toBytesLax_data _)]
  simp

theorem PBFTMsg.populate_written (m old : PBFTMsg) :
    old.populate (.list m.streamRLPFields) = .ok m := by
  simpa using m.populate_streamRLPFields old []

theorem populateBase_bind {M β : Type} {base : M → PBFTMsg} {withBase : PBFTMsg → M → M} {m : M}
    {r : Item} {b : PBFTMsg} (k : M → Except (BadField × M) β) (h : (base m).populate r = .ok b) :
    (populateBase base withBase m r >>= k) = k (withBase b m) := by
  simp only [populateBase, h]
  rfl

theorem PrepareReq.populate_written (m old : PrepareReq) :
    old.populate (.list m.streamRLPFields) = .ok m := by
  have hbase := m.toPBFTMsg.populate_streamRLPFields old.toPBFTMsg [.data m.block]
  have hblock : get? (.list m.streamRLPFields) 7 = some (.data m.block) := by
    simp [streamRLPFields, PBFTMsg.streamRLPFields, get?]
  unfold populate streamRLPFields
  rw [populateBase_bind _ hbase]
  exact readField_ok hblock (toBytesLax_data _)

/-- A class that adds no fields restores what its base class does. -/
theorem populateBase_written {M : Type} (base : M → PBFTMsg) (mk : PBFTMsg → M)
    (hmk : ∀ m, mk (base m) = m) (m old : M) :
    populateBase base (fun b _ => mk b) old (.list (base m).streamRLPFields) = .ok m := by
  simp only [populateBase, PBFTMsg.populate_written, hmk]

theorem restores_of_populate {M : Type} [Message M]
    (h : ∀ m old : M, Message.populate old (.list (Message.streamRLPFields m)) = .ok m) :
    Restores M := by
  intro m old
  exact ⟨_, decodeStrict_encode _, h m old⟩

/-- The numbers under the second signature can be read off its bytes. -/
theorem PBFTMsg.outWithoutBlock_inj {m m' : PBFTMsg} (h : m.outWithoutBlock = m'.outWithoutBlock) :
    m.height = m'.height ∧ m.view = m'.view ∧ m.idx = m'.idx ∧ m.timestamp = m'.timestamp := by
  have hitems := encodeAll_injective h
  simp only [List.cons.injEq, ofNat_injective.eq_iff, BitVec.toNat_inj, and_true] at hitems
  exact hitems

/-- The messages of every class are restored, and as long as no two of the texts in `S` have
one hash, messages with equal signed hashes agree on the four numbers. -/
theorem messages_restored {sha3 : Bytes → FixedHash 32} {S : Set Bytes} (hs : Set.InjOn sha3 S) :
    Restores PBFTMsg ∧ Restores PrepareReq ∧ Restores SignReq ∧ Restores CommitReq ∧
      Restores ViewChangeReq ∧
      ∀ m m' : PBFTMsg, m.outWithoutBlock ∈ S → m'.outWithoutBlock ∈ S →
        m.height ≠ m'.height ∨ m.view ≠ m'.view ∨ m.idx ≠ m'.idx ∨ m.timestamp ≠ m'.timestamp →
        m.fieldsWithoutBlock sha3 ≠ m'.fieldsWithoutBlock sha3 := by
  refine ⟨restores_of_populate PBFTMsg.populate_written,
    restores_of_populate PrepareReq.populate_written,
    restores_of_populate (populateBase_written SignReq.toPBFTMsg SignReq.mk fun _ => rfl),
    restores_of_populate (populateBase_written CommitReq.toPBFTMsg CommitReq.mk fun _ => rfl),
    restores_of_populate (populateBase_written ViewChangeReq.toPBFTMsg ViewChangeReq.mk
      fun _ => rfl), ?_⟩
  intro m m' hm hm' hne heq
  have hsame := PBFTMsg.outWithoutBlock_inj (hs hm hm' heq)
  simp [hsame] at hne

/-- The digests of the signed bytes of heights one and two with zeros behind them. -/
def sha3Heights (b : Bytes) : FixedHash 32 :=
  if b = [0x01, 0x80, 0x80, 0x80] then .ofRef 32 [
    0x65, 0x64, 0x3b, 0x4a, 0xcd, 0xed, 0x07, 0xed, 0x7d, 0x02, 0x87, 0xb8, 0x6c, 0x24, 0x34, 0x3a,
    0x8c, 0x60, 0x66, 0x01, 0x15, 0x05, 0xa8, 0x74, 0xc5, 0x02, 0x8b, 0x86, 0x00, 0xc1, 0x7a, 0xe6]
  else .ofRef 32 [
    0x51, 0xee, 0x6c, 0x5a, 0x1f, 0xbf, 0xca, 0x30, 0xf5, 0x9f, 0x1e, 0x9a, 0x84, 0x13, 0xbf, 0xc1,
    0xb7, 0xab, 0x37, 0xa3, 0x87, 0xca, 0xe3, 0x8a, 0xbb, 0x3d, 0x3e, 0xcd, 0x24, 0xf1, 0xae, 0x44]

theorem messages_restored_heights :
    PBFTMsg.fieldsWithoutBlock { height := 1, view := 0, idx := 0, timestamp := 0 } sha3Heights ≠
      PBFTMsg.fieldsWithoutBlock { height := 2, view := 0, idx := 0, timestamp := 0 }
        sha3Heights := by
  have hinj : Set.InjOn sha3Heights {[0x01, 0x80, 0x80, 0x80], [0x02, 0x80, 0x80, 0x80]} := by
    apply Set.injOn_pair.mpr
    intro h
    exact absurd h (by decide)
  obtain ⟨-, -, -, -, -, hne⟩ := messages_restored hinj
  apply hne
  · left
    decide
  · right
    decide
  · left
    decide

section Errors

variable {r : Item} {e : BadField}

/-- A message that cannot be read names the number or the hash at fault. The signatures behind
it are not touched. -/
theorem PBFTMsg.populate_error {m m' : PBFTMsg} (h : m.populate r = .error (e, m')) :
    e = .ofField r e.field ∧ e.field < 5 ∧ m'.sig = m.sig ∧ m'.sig2 = m.sig2 := by
  unfold populate at h
  obtain ⟨rfl, rfl⟩ | ⟨height, h⟩ := readField_bind_error h
  · simp
  obtain ⟨rfl, rfl⟩ | ⟨view, h⟩ := readField_bind_error h
  · simp
  obtain ⟨rfl, rfl⟩ | ⟨idx, h⟩ := readField_bind_error h
  · simp
  obtain ⟨rfl, rfl⟩ | ⟨timestamp, h⟩ := readField_bind_error h
  · simp
  obtain ⟨rfl, rfl⟩ | ⟨block_hash, h⟩ := readField_bind_error h
  · simp
  -- The signatures are read whatever stands there.
  simp [readField, toBytesLax, bind, Except.bind] at h

end Errors

end PBFT
end XChain
