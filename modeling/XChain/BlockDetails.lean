import XChain.Common
import XChain.FixedHash
import XChain.RlpSizes

/-!
# Records beside the blocks

What the chain keeps of a block beside its body: its place, its blooms, its receipts, the hash
of a number and the place of a transaction. Each is written and read on its own, and the larger
ones remember the size of their encoding.
-/
namespace XChain

namespace Rlp

/-- Reads a hash of any size: the front of a longer string, zeros before a shorter one. -/
def toHashLax (n : ℕ) : Item → FixedHash n
  | .data b => ⟨List.replicate (n - (b.take n).length) 0 ++ b.take n,
      length_zeros_append (List.length_take_le n b)⟩
  | .list _ => .zero n

/-- The hashes of a list. Anything else has none. -/
def toVector (n : ℕ) : Item → List (FixedHash n)
  | .data _ => []
  | .list l => l.map (toHashLax n)

/-- As many hashes as there have to be, or none that is set. A string has no items. -/
def toArray (n k : ℕ) : Item → Option (Fin k → FixedHash n)
  | .data _ => none
  | .list l => some fun i => if h : l.length = k then toHashLax n l[i] else .zero n

@[simp] theorem toHashLax_bytes {n : ℕ} (a : FixedHash n) : toHashLax n (.data a.bytes) = a := by
  have htake : a.bytes.take n = a.bytes := List.take_of_length_le a.size.le
  apply FixedHash.ext
  simp [toHashLax, htake]

end Rlp

/-- Bytes, and the item that they are the encoding of. -/
structure RlpRef where
  data : Bytes
  item : Item

def RlpRef.ofBytes (b : Bytes) : Option RlpRef := (Rlp.decode b).map (⟨b, ·⟩)

abbrev LogBloomHash := FixedHash 256

def c_bloomIndexSize : ℕ := 16

structure BlockDetails where
  number : BitVec 32
  totalDifficulty : Word
  parent : FixedHash 32
  children : List (FixedHash 32)
  size : BitVec 32

structure BlockLogBlooms where
  blooms : List LogBloomHash
  size : BitVec 32

structure BlocksBlooms where
  blooms : Fin c_bloomIndexSize → LogBloomHash
  size : BitVec 32

structure BlockReceipts (Receipt : Type) where
  receipts : List Receipt
  size : BitVec 32

structure BlockHash where
  value : FixedHash 32

structure TransactionAddress where
  blockHash : FixedHash 32
  index : BitVec 32

/-- How a receipt is written and read. -/
structure ReceiptCodec (Receipt : Type) where
  streamRLP : Receipt → Item
  ofBytes : Bytes → Option Receipt

/-- A receipt that was written is read back. -/
def ReceiptCodec.RoundTrip {Receipt : Type} (c : ReceiptCodec Receipt) : Prop :=
  ∀ r, c.ofBytes (Rlp.encode (c.streamRLP r)) = some r

section Records

/-- The size of an encoding is remembered in 32 bits. -/
def sizeOf32 (b : Bytes) : BitVec 32 := BitVec.ofNat 32 b.length

def BlockDetails.ofRLP (r : RlpRef) : Option BlockDetails := do
  let number ← Rlp.get? r.item 0 >>= Rlp.toUint 32
  let totalDifficulty ← Rlp.get? r.item 1 >>= Rlp.toUint 256
  let parent ← Rlp.get? r.item 2 >>= Rlp.toHash 32
  let children ← (Rlp.get? r.item 3).map (Rlp.toVector 32)
  return ⟨number, totalDifficulty, parent, children, BitVec.ofNat 32 (Rlp.size r.item)⟩

def BlockDetails.rlp (x : BlockDetails) : Bytes × BlockDetails :=
  let ret := Rlp.encode (.list [Rlp.ofNat x.number.toNat, Rlp.ofNat x.totalDifficulty.toNat,
    .data x.parent.bytes, .list (x.children.map fun h => .data h.bytes)])
  (ret, { x with size := sizeOf32 ret })

def BlockLogBlooms.ofRLP (r : RlpRef) : Option BlockLogBlooms :=
  some ⟨Rlp.toVector 256 r.item, sizeOf32 r.data⟩

def BlockLogBlooms.rlp (x : BlockLogBlooms) : Bytes × BlockLogBlooms :=
  let r := Rlp.encode (.list (x.blooms.map fun b => .data b.bytes))
  (r, { x with size := sizeOf32 r })

def BlocksBlooms.ofRLP (r : RlpRef) : Option BlocksBlooms :=
  (Rlp.toArray 256 c_bloomIndexSize r.item).map (⟨·, sizeOf32 r.data⟩)

def BlocksBlooms.rlp (x : BlocksBlooms) : Bytes × BlocksBlooms :=
  let r := Rlp.encode (.list ((List.ofFn x.blooms).map fun b => .data b.bytes))
  (r, { x with size := sizeOf32 r })

variable {Receipt : Type} (c : ReceiptCodec Receipt)

/-- The items of a list, each of which is given to the receipt as its bytes. -/
def BlockReceipts.ofRLP (r : RlpRef) : Option (BlockReceipts Receipt) :=
  match r.item with
  | .data _ => some ⟨[], sizeOf32 r.data⟩
  | .list l => (l.mapM fun i => c.ofBytes (Rlp.encode i)).map (⟨·, sizeOf32 r.data⟩)

def BlockReceipts.rlp (x : BlockReceipts Receipt) : Bytes × BlockReceipts Receipt :=
  let s := Rlp.encode (.list (x.receipts.map c.streamRLP))
  (s, { x with size := sizeOf32 s })

def BlockHash.ofRLP (r : RlpRef) : Option BlockHash := (Rlp.toHash 32 r.item).map (⟨·⟩)

def BlockHash.rlp (x : BlockHash) : Bytes := Rlp.encode (.data x.value.bytes)

def TransactionAddress.ofRLP (r : RlpRef) : Option TransactionAddress := do
  let blockHash ← Rlp.get? r.item 0 >>= Rlp.toHash 32
  let index ← Rlp.get? r.item 1 >>= Rlp.toUint 32
  return ⟨blockHash, index⟩

def TransactionAddress.rlp (x : TransactionAddress) : Bytes :=
  Rlp.encode (.list [.data x.blockHash.bytes, Rlp.ofNat x.index.toNat])

end Records

/-- A record of any kind. -/
inductive BlockExtra (Receipt : Type) where
  | details (x : BlockDetails)
  | logBlooms (x : BlockLogBlooms)
  | blooms (x : BlocksBlooms)
  | receipts (x : BlockReceipts Receipt)
  | hash (x : BlockHash)
  | address (x : TransactionAddress)

namespace BlockExtra

variable {Receipt : Type} (c : ReceiptCodec Receipt)

/-- The encoding of a record, and the record after it. -/
def rlp : BlockExtra Receipt → Bytes × BlockExtra Receipt
  | details x => (x.rlp.1, details x.rlp.2)
  | logBlooms x => (x.rlp.1, logBlooms x.rlp.2)
  | blooms x => (x.rlp.1, blooms x.rlp.2)
  | receipts x => ((x.rlp c).1, receipts (x.rlp c).2)
  | hash x => (x.rlp, hash x)
  | address x => (x.rlp, address x)

/-- Reads a record of the same kind. -/
def reread (r : RlpRef) : BlockExtra Receipt → Option (BlockExtra Receipt)
  | details _ => (BlockDetails.ofRLP r).map details
  | logBlooms _ => (BlockLogBlooms.ofRLP r).map logBlooms
  | blooms _ => (BlocksBlooms.ofRLP r).map blooms
  | receipts _ => (BlockReceipts.ofRLP c r).map receipts
  | hash _ => (BlockHash.ofRLP r).map hash
  | address _ => (TransactionAddress.ofRLP r).map address

/-- The size that a record remembers, if it remembers one. -/
def size? : BlockExtra Receipt → Option (BitVec 32)
  | details x => some x.size
  | logBlooms x => some x.size
  | blooms x => some x.size
  | receipts x => some x.size
  | hash _ => none
  | address _ => none

/-- A record without the size that it remembers. -/
def fields : BlockExtra Receipt → BlockExtra Receipt
  | details x => details { x with size := 0 }
  | logBlooms x => logBlooms { x with size := 0 }
  | blooms x => blooms { x with size := 0 }
  | receipts x => receipts { x with size := 0 }
  | hash x => hash x
  | address x => address x

/-- A record is read back from its encoding, and before and after that the size that it
remembers is the size of the encoding. -/
def Survives (x : BlockExtra Receipt) : Prop :=
  (∀ n ∈ (x.rlp c).2.size?, n.toNat = (x.rlp c).1.length) ∧
  ∃ y, (RlpRef.ofBytes (x.rlp c).1).bind (x.reread c ·) = some y ∧ y.fields = x.fields ∧
    ∀ n ∈ y.size?, n.toNat = (x.rlp c).1.length

/-- The bytes of the items of a record whose encoding can be of any size. -/
def Short : BlockExtra Receipt → Prop
  | logBlooms x => 259 * x.blooms.length + 5 < 2 ^ 32
  | receipts x => (x.receipts.map fun r => (Rlp.encode (c.streamRLP r)).length).sum + 5 < 2 ^ 32
  | _ => True

section Sizes

theorem toNat_sizeOf32 (b : Bytes) : (sizeOf32 b).toNat = b.length ↔ b.length < 2 ^ 32 := by
  rw [sizeOf32, BitVec.toNat_ofNat]
  omega

/-- A list is counted in 32 bits when its items leave room for a header. -/
theorem length_list_lt (l : List Item) :
    (Rlp.encode (.list l)).length < 2 ^ 32 ↔ (Rlp.encodeAll l).length + 5 < 2 ^ 32 := by
  rw [Rlp.encode, List.length_append]
  generalize (Rlp.encodeAll l).length = n
  by_cases hsmall : n < 256 ^ 3
  · have hheader := Rlp.length_header_le 0xc0 hsmall (by omega)
    omega
  · by_cases hlong : n < 256 ^ 4
    · rw [Rlp.length_header_eq 0xc0 (k := 3) (by omega) (by omega) hlong (by omega)]
      omega
    · omega

theorem length_encodeAll (l : List Item) :
    (Rlp.encodeAll l).length = (l.map fun x => (Rlp.encode x).length).sum := by
  induction l with
  | nil => simp [Rlp.encodeAll]
  | cons x l ih => simp [Rlp.encodeAll, ih]

theorem length_encode_bloom (b : LogBloomHash) : (Rlp.encode (.data b.bytes)).length = 259 := by
  have hlen : b.bytes.length = 256 := b.size
  rw [Rlp.length_encode_data (by omega), hlen, Rlp.length_header_three _ (by omega) (by omega)]

theorem length_encodeAll_blooms (l : List LogBloomHash) :
    (Rlp.encodeAll (l.map fun b => .data b.bytes)).length = 259 * l.length := by
  rw [length_encodeAll, List.map_map]
  simp [Function.comp_def, length_encode_bloom, Nat.mul_comm]

end Sizes

theorem toVector_blooms (n : ℕ) (l : List (FixedHash n)) :
    Rlp.toVector n (.list (l.map fun h => .data h.bytes)) = l := by
  simp [Rlp.toVector, Function.comp_def]

theorem toArray_blooms (n k : ℕ) (a : Fin k → FixedHash n) :
    Rlp.toArray n k (.list ((List.ofFn a).map fun h => .data h.bytes)) = some a := by
  simp [Rlp.toArray]

theorem mapM_receipts {c : ReceiptCodec Receipt} (hc : c.RoundTrip) (l : List Receipt) :
    (l.map c.streamRLP).mapM (fun i => c.ofBytes (Rlp.encode i)) = some l := by
  induction l with
  | nil => rfl
  | cons r l ih => simp [hc r, ih]

@[simp] theorem ofBytes_encode (x : Item) :
    RlpRef.ofBytes (Rlp.encode x) = some ⟨Rlp.encode x, x⟩ := by
  simp [RlpRef.ofBytes]

section Kinds

variable {c} {x y : BlockExtra Receipt}

/-- A record that is read with the size that it has after it was written. -/
theorem survives_sized (hsize : (x.rlp c).2.size? = some (sizeOf32 (x.rlp c).1))
    (hread : (RlpRef.ofBytes (x.rlp c).1).bind (x.reread c ·) = some y)
    (hfields : y.fields = x.fields) (hy : y.size? = some (sizeOf32 (x.rlp c).1)) :
    x.Survives c ↔ (x.rlp c).1.length < 2 ^ 32 := by
  rw [← toNat_sizeOf32]
  constructor
  · rintro ⟨hwritten, -⟩
    exact hwritten _ hsize
  · intro hlen
    have hall : ∀ n ∈ some (sizeOf32 (x.rlp c).1), n.toNat = (x.rlp c).1.length := by
      simpa using hlen
    exact ⟨by rwa [hsize], y, hread, hfields, by rwa [hy]⟩

/-- A record that remembers no size. -/
theorem survives_unsized (hsize : (x.rlp c).2.size? = none)
    (hread : (RlpRef.ofBytes (x.rlp c).1).bind (x.reread c ·) = some y)
    (hfields : y.fields = x.fields) (hy : y.size? = none) : x.Survives c :=
  ⟨by simp [hsize], y, hread, hfields, by simp [hy]⟩

/-- The size that is read with the details of a block is that of a string, and they are a
list. -/
theorem not_survives_details (x : BlockDetails) :
    ¬(details x : BlockExtra Receipt).Survives c := by
  rintro ⟨-, y, hread, -, hsize⟩
  have hy : y = details { x with size := 0 } := by
    simpa [rlp, BlockDetails.rlp, reread, BlockDetails.ofRLP, Rlp.get?, Rlp.size, Rlp.toBytes,
      toVector_blooms, eq_comm] using hread
  have hzero := hsize 0 (by rw [hy]; rfl)
  exact Rlp.encode_ne_nil _ (List.eq_nil_of_length_eq_zero hzero.symm)

theorem survives_logBlooms (x : BlockLogBlooms) :
    (logBlooms x : BlockExtra Receipt).Survives c ↔ 259 * x.blooms.length + 5 < 2 ^ 32 := by
  rw [← length_encodeAll_blooms, ← length_list_lt]
  apply survives_sized (y := logBlooms x.rlp.2)
  · rfl
  · simp [rlp, BlockLogBlooms.rlp, reread, BlockLogBlooms.ofRLP, toVector_blooms]
  · rfl
  · rfl

theorem survives_blooms (x : BlocksBlooms) : (blooms x : BlockExtra Receipt).Survives c := by
  have hlen : (x.rlp.1).length < 2 ^ 32 := by
    rw [BlocksBlooms.rlp, length_list_lt, length_encodeAll_blooms, List.length_ofFn,
      c_bloomIndexSize]
    omega
  rw [survives_sized (y := blooms x.rlp.2)]
  · exact hlen
  · rfl
  · simp [rlp, BlocksBlooms.rlp, reread, BlocksBlooms.ofRLP, toArray_blooms, -List.map_ofFn]
  · rfl
  · rfl

theorem survives_receipts (hc : c.RoundTrip) (x : BlockReceipts Receipt) :
    (receipts x).Survives c ↔
      (x.receipts.map fun r => (Rlp.encode (c.streamRLP r)).length).sum + 5 < 2 ^ 32 := by
  have hsum : (x.receipts.map fun r => (Rlp.encode (c.streamRLP r)).length).sum =
      (Rlp.encodeAll (x.receipts.map c.streamRLP)).length := by
    rw [length_encodeAll, List.map_map]
    rfl
  rw [hsum, ← length_list_lt]
  apply survives_sized (y := receipts (x.rlp c).2)
  · rfl
  · simp [rlp, BlockReceipts.rlp, reread, BlockReceipts.ofRLP, mapM_receipts hc]
  · rfl
  · rfl

theorem survives_hash (x : BlockHash) : (hash x : BlockExtra Receipt).Survives c := by
  apply survives_unsized (y := hash x)
  · rfl
  · simp [rlp, BlockHash.rlp, reread, BlockHash.ofRLP]
  · rfl
  · rfl

theorem survives_address (x : TransactionAddress) :
    (address x : BlockExtra Receipt).Survives c := by
  apply survives_unsized (y := address x)
  · rfl
  · simp [rlp, TransactionAddress.rlp, reread, TransactionAddress.ofRLP, Rlp.get?]
  · rfl
  · rfl

end Kinds

/-- A record survives just when it is not the details of a block, and counts in 32 bits. -/
theorem survives_iff (c : ReceiptCodec Receipt) (hc : c.RoundTrip) (x : BlockExtra Receipt) :
    x.Survives c ↔ (∀ d, x ≠ details d) ∧ x.Short c := by
  cases x with
  | details x => simpa using not_survives_details x
  | logBlooms x => simpa [Short] using survives_logBlooms x
  | blooms x => simpa [Short] using survives_blooms x
  | receipts x => simpa [Short] using survives_receipts hc x
  | hash x => simpa [Short] using survives_hash x
  | address x => simpa [Short] using survives_address x

section Example

/-- Receipts that are a single number. -/
def numberCodec : ReceiptCodec (BitVec 64) where
  streamRLP r := .list [Rlp.ofNat r.toNat]
  ofBytes b := (Rlp.decode b).bind fun x => Rlp.get? x 0 >>= Rlp.toUint 64

theorem numberCodec_roundTrip : numberCodec.RoundTrip := by
  intro r
  simp [numberCodec, Rlp.get?]

theorem survives_two_receipts : (receipts ⟨[21000, 42000], 0⟩).Survives numberCodec := by
  apply (survives_iff numberCodec numberCodec_roundTrip _).mpr
  refine ⟨by simp, ?_⟩
  simp only [Short]
  decide +kernel

/-- The details of a block without children are read with a size of zero. -/
theorem details_not_survives :
    ¬(details ⟨7, 8, .zero 32, [], 0⟩ : BlockExtra (BitVec 64)).Survives numberCodec := by
  rintro ⟨-, y, hread, -, hsize⟩
  have hy : y.size? = some 0 := by
    have hsome : ((RlpRef.ofBytes ((details ⟨7, 8, .zero 32, [], 0⟩ :
        BlockExtra (BitVec 64)).rlp numberCodec).1).bind
          ((details ⟨7, 8, .zero 32, [], 0⟩ : BlockExtra (BitVec 64)).reread numberCodec ·)).bind
            size? = some 0 := by decide +kernel
    rwa [hread] at hsome
  have hzero := hsize 0 hy
  revert hzero
  decide +kernel

end Example

end BlockExtra

end XChain
