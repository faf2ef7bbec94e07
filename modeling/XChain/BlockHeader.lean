import XChain.LogBloom

/-!
# Block headers

The fields of a header with its two remembered hashes, the setters, the encoding with
and without the seal, and the constructor that reads a header back. An entry of a seal
is the encoding of an item; where an entry was set behind the end of the list there are
empty ones before it.
-/
namespace XChain

open Rlp

abbrev NodeId := BitVec 512

def H256.zero : H256 := .ofNat 0

/-- Reads a hash. -/
def toH256 : Item → Option H256
  | .data b => if h : b.length = 32 then some ⟨b, h⟩ else none
  | .list _ => none

@[simp] theorem toH256_bytes (h : H256) : toH256 (.data h.bytes) = some h := by
  simp [toH256, h.size]

inductive IncludeSeal where
  | WithoutSeal
  | WithSeal
  | OnlySeal
  deriving DecidableEq

inductive BlockDataType where
  | HeaderData
  | BlockData
  deriving DecidableEq

/-- An entry of a seal. -/
structure SealField where
  bytes : Bytes
  item : bytes = [] ∨ ∃ x, bytes = encode x

/-- A header. `memo` and `memoWithout` are the remembered hashes, or zero. -/
structure BlockHeader where
  parentHash : H256
  sha3Uncles : H256
  stateRoot : H256
  transactionsRoot : H256
  receiptsRoot : H256
  logBloom : LogBloom
  number : Word
  gasLimit : Word
  gasUsed : Word
  extraData : Bytes
  timestamp : Word
  author : Address
  difficulty : Word
  seals : List SealField
  memo : H256
  memoWithout : H256
  genIdx : Word
  nodeList : List NodeId

/-- What a reader throws: the field it stopped at, or that the bytes are no block. -/
inductive HeaderError where
  | BadRLP
  | BadField (name : String) (field : ℕ) (data : Bytes)
  | InvalidBlockFormat (comment : String) (field : ℕ) (data : Bytes)

namespace BlockHeader

/-- The default constructor. -/
def empty : BlockHeader where
  parentHash := .zero
  sha3Uncles := .zero
  stateRoot := .zero
  transactionsRoot := .zero
  receiptsRoot := .zero
  logBloom := 0
  number := 0
  gasLimit := 0
  gasUsed := 0
  extraData := []
  timestamp := BitVec.allOnes 256
  author := 0
  difficulty := 0
  seals := []
  memo := .zero
  memoWithout := .zero
  genIdx := 0
  nodeList := []

section Setters

variable (h : BlockHeader)

def noteDirty : BlockHeader := { h with memo := .zero, memoWithout := .zero }

def setParentHash (v : H256) : BlockHeader := { h with parentHash := v }.noteDirty

def setTimestamp (v : Word) : BlockHeader := { h with timestamp := v }.noteDirty

def setAuthor (v : Address) : BlockHeader := { h with author := v }.noteDirty

def setRoots (t r u s : H256) : BlockHeader :=
  { h with transactionsRoot := t, receiptsRoot := r, stateRoot := s, sha3Uncles := u }.noteDirty

def setGasUsed (v : Word) : BlockHeader := { h with gasUsed := v }.noteDirty

def setExtraData (v : Bytes) : BlockHeader := { h with extraData := v }.noteDirty

def setLogBloom (v : LogBloom) : BlockHeader := { h with logBloom := v }.noteDirty

def setIndex (v : Word) : BlockHeader := { h with genIdx := v }.noteDirty

def setNodeList (v : List NodeId) : BlockHeader := { h with nodeList := v }.noteDirty

/-- Sets an entry of the seal, with empty ones before it where there are none yet. -/
def setSeal (offset : ℕ) (x : Item) : BlockHeader :=
  let gaps : List SealField := List.replicate (offset + 1 - h.seals.length) ⟨[], Or.inl rfl⟩
  { h with seals := (h.seals ++ gaps).set offset ⟨encode x, Or.inr ⟨x, rfl⟩⟩ }.noteDirty

/-- What a child takes over from its parent. The remembered hash of the parent is taken as
it is, and the child's own stay. -/
def populateFromParent (parent : BlockHeader) : BlockHeader :=
  { h with
    stateRoot := parent.stateRoot
    number := parent.number + 1
    parentHash := parent.memo
    gasLimit := parent.gasLimit
    difficulty := 1
    gasUsed := 0 }

end Setters

section Writing

variable (sha3 : Bytes → H256) (h : BlockHeader)

/-- The items of `streamRLPFields`. -/
def fields : List Item :=
  [.data h.parentHash.bytes, .data h.sha3Uncles.bytes, .data (fixedBytes 20 h.author.toNat),
    .data h.stateRoot.bytes, .data h.transactionsRoot.bytes, .data h.receiptsRoot.bytes,
    .data (fixedBytes 256 h.logBloom.toNat), ofNat h.difficulty.toNat, ofNat h.number.toNat,
    ofNat h.gasLimit.toNat, ofNat h.gasUsed.toNat, ofNat h.timestamp.toNat, .data h.extraData]

/-- The entries of the seal one after the other. -/
def sealBytes : Bytes := (h.seals.map SealField.bytes).flatten

/-- A list whose items have the given bytes. -/
def listOf (payload : Bytes) : Bytes := header 0xc0 payload.length ++ payload

def streamRLP : IncludeSeal → Bytes
  | .WithoutSeal => listOf (encodeAll h.fields)
  | .WithSeal => listOf (encodeAll h.fields ++ h.sealBytes)
  | .OnlySeal => h.sealBytes

/-- The hash, and the header that remembers it. -/
def hash : IncludeSeal → H256 × BlockHeader
  | .WithSeal =>
    let memo := if h.memo = .zero then sha3 (h.streamRLP .WithSeal) else h.memo
    (memo, { h with memo := memo })
  | .WithoutSeal =>
    let memo := if h.memoWithout = .zero then sha3 (h.streamRLP .WithoutSeal) else h.memoWithout
    (memo, { h with memoWithout := memo })
  | .OnlySeal => (sha3 (h.streamRLP .OnlySeal), h)

end Writing

section Reading

variable (sha3 : Bytes → H256)

/-- The raw bytes of an item of a list, and none if there is no such item. -/
def rawAt (x : Item) (i : ℕ) : Bytes := ((get? x i).map encode).getD []

def readField {α : Type} (x : Item) (i : ℕ) (r : Item → Option α) : Except HeaderError α :=
  match (get? x i).bind r with
  | some a => .ok a
  | none => .error (.BadField "invalid block header format" i (rawAt x i))

/-- The entries of the seal are the items behind the basic fields. -/
def readSeal : Item → List SealField
  | .data _ => []
  | .list l => (l.drop 13).map fun x => ⟨encode x, Or.inr ⟨x, rfl⟩⟩

def populate (h : BlockHeader) (x : Item) : Except HeaderError BlockHeader := do
  let parentHash ← readField x 0 toH256
  let sha3Uncles ← readField x 1 toH256
  let author ← readField x 2 (toFixed 160)
  let stateRoot ← readField x 3 toH256
  let transactionsRoot ← readField x 4 toH256
  let receiptsRoot ← readField x 5 toH256
  let logBloom ← readField x 6 (toFixed 2048)
  let difficulty ← readField x 7 (toUint 256)
  let number ← readField x 8 (toUint 256)
  let gasLimit ← readField x 9 (toUint 256)
  let gasUsed ← readField x 10 (toUint 256)
  let timestamp ← readField x 11 (toUint 256)
  pure { h with
    parentHash := parentHash
    sha3Uncles := sha3Uncles
    author := author
    stateRoot := stateRoot
    transactionsRoot := transactionsRoot
    receiptsRoot := receiptsRoot
    logBloom := logBloom
    difficulty := difficulty
    number := number
    gasLimit := gasLimit
    gasUsed := gasUsed
    timestamp := timestamp
    extraData := ((get? x 12).map toBytes).getD []
    seals := readSeal x }

/-- The header of a block, which is a list of three lists at least. -/
def extractHeader (root : Item) : Except HeaderError Item := do
  (if isList root then pure ()
  else throw (.InvalidBlockFormat "Block must be a list" 0 (encode root)))
  let x ← (match get? root 0 with
    | some (.list l) => pure (.list l)
    | _ => throw (.InvalidBlockFormat "Block header must be a list" 0 (rawAt root 0)))
  (if ((get? root 1).map isList).getD false then pure ()
  else throw (.InvalidBlockFormat "Block transactions must be a list" 1 (rawAt root 1)))
  (if ((get? root 2).map isList).getD false then pure ()
  else throw (.InvalidBlockFormat "Block uncles must be a list" 2 (rawAt root 2)))
  pure x

/-- The constructor from bytes. -/
def ofBytes (b : Bytes) (bdt : BlockDataType) (hashWith : H256) : Except HeaderError BlockHeader :=
  match decodeStrict b with
  | none => .error .BadRLP
  | some root => do
    let x ← (if bdt = .BlockData then extractHeader root else pure root)
    populate { empty with memo := if hashWith = .zero then sha3 (encode x) else hashWith } x

end Reading

section Verification

inductive Strictness where
  | CheckEverything
  | JustSeal
  | QuickNonce
  | IgnoreSeal
  | CheckNothingNew
  deriving DecidableEq

inductive VerifyError where
  | InvalidNumber
  | TooMuchGasUsed
  | InvalidParentHash
  | InvalidTimestamp
  deriving DecidableEq

/-- Whether a header holds anything. -/
def isSet (h : BlockHeader) : Bool := h.timestamp ≠ BitVec.allOnes 256

/-- The checks of a header against its parent; there is no block to look into. -/
def verify (sha3 : Bytes → H256) (h : BlockHeader) (s : Strictness) (parent : BlockHeader) :
    Except VerifyError Unit := do
  (if 2 ^ 32 - 1 < h.number.toNat then throw .InvalidNumber else pure ())
  (if s ≠ .CheckNothingNew ∧ h.gasLimit < h.gasUsed then throw .TooMuchGasUsed else pure ())
  if parent.isSet then do
    (if h.parentHash ≠ .zero ∧ (parent.hash sha3 .WithSeal).1 ≠ h.parentHash then
      throw .InvalidParentHash else pure ())
    (if h.timestamp ≤ parent.timestamp then throw .InvalidTimestamp else pure ())
    (if h.number ≠ parent.number + 1 then throw .InvalidNumber else pure ())
  else pure ()

/-- The comparison of headers: the basic fields. -/
def sameFields (h h' : BlockHeader) : Bool :=
  h.parentHash = h'.parentHash ∧ h.sha3Uncles = h'.sha3Uncles ∧ h.author = h'.author ∧
    h.stateRoot = h'.stateRoot ∧ h.transactionsRoot = h'.transactionsRoot ∧
    h.receiptsRoot = h'.receiptsRoot ∧ h.logBloom = h'.logBloom ∧ h.difficulty = h'.difficulty ∧
    h.number = h'.number ∧ h.gasLimit = h'.gasLimit ∧ h.gasUsed = h'.gasUsed ∧
    h.timestamp = h'.timestamp ∧ h.extraData = h'.extraData

end Verification

section RoundTrip

variable {sha3 : Bytes → H256} {h h' : BlockHeader}

theorem SealField.bytes_injective : Function.Injective SealField.bytes := by
  rintro ⟨b, hb⟩ ⟨b', hb'⟩ h
  obtain rfl : b = b' := h
  rfl

/-- The entries that are there are the encodings of items. -/
theorem exists_items (l : List SealField) : ∃ items,
    (l.map SealField.bytes).flatten = encodeAll items ∧
      items.map encode = (l.filter fun s => s.bytes ≠ []).map SealField.bytes := by
  induction l with
  | nil => exact ⟨[], rfl, rfl⟩
  | cons s l ih =>
    obtain ⟨items, hbytes, hmap⟩ := ih
    by_cases hs : s.bytes = []
    · refine ⟨items, ?_, ?_⟩
      · rw [List.map_cons, List.flatten_cons, hs, hbytes, List.nil_append]
      · rw [List.filter_cons_of_neg (by simp [hs]), hmap]
    · obtain ⟨x, hx⟩ := s.item.resolve_left hs
      refine ⟨x :: items, ?_, ?_⟩
      · rw [List.map_cons, List.flatten_cons, hbytes, hx, encodeAll]
      · rw [List.filter_cons_of_pos (by simp [hs]), List.map_cons, List.map_cons, hmap, hx]

theorem encodeAll_append (l l' : List Item) : encodeAll (l ++ l') = encodeAll l ++ encodeAll l' := by
  induction l with
  | nil => rfl
  | cons x l ih => rw [List.cons_append, encodeAll, encodeAll, ih, List.append_assoc]

/-- The header that is read back. -/
def reread (sha3 : Bytes → H256) (h : BlockHeader) : BlockHeader :=
  { h with
    seals := h.seals.filter fun s => s.bytes ≠ []
    memo := sha3 (h.streamRLP .WithSeal)
    memoWithout := .zero
    genIdx := 0
    nodeList := [] }

theorem readField_eq_ok {α : Type} {x : Item} {i : ℕ} {r : Item → Option α} {a : α} :
    readField x i r = .ok a ↔ (get? x i).bind r = some a := by
  unfold readField
  cases (get? x i).bind r <;> simp

theorem populate_fields (h h₀ : BlockHeader) (items : List Item) :
    populate h₀ (.list (h.fields ++ items)) = .ok { h with
      seals := readSeal (.list (h.fields ++ items))
      memo := h₀.memo
      memoWithout := h₀.memoWithout
      genIdx := h₀.genIdx
      nodeList := h₀.nodeList } := by
  have hword : ∀ w : Word, toUint 256 (ofNat w.toNat) = some w := toUint_ofNat (by norm_num)
  have hauthor : toFixed 160 (.data (fixedBytes 20 h.author.toNat)) = some h.author :=
    toFixed_fixedBytes 20 h.author
  have hbloom : (get? (.list (h.fields ++ items)) 6).bind (toFixed 2048) = some h.logBloom := by
    have hget : get? (.list (h.fields ++ items)) 6 =
        some (.data (fixedBytes 256 h.logBloom.toNat)) := rfl
    rw [hget, Option.bind_some]
    exact toFixed_fixedBytes 256 h.logBloom
  simp only [populate, bind_eq_ok, readField_eq_ok]
  exact ⟨h.parentHash, toH256_bytes _, h.sha3Uncles, toH256_bytes _, h.author,
    hauthor, h.stateRoot, toH256_bytes _, h.transactionsRoot, toH256_bytes _,
    h.receiptsRoot, toH256_bytes _, h.logBloom, hbloom, h.difficulty,
    hword _, h.number, hword _, h.gasLimit, hword _, h.gasUsed, hword _, h.timestamp, hword _, rfl⟩

/-- Reading what was written. -/
theorem ofBytes_streamRLP (sha3 : Bytes → H256) (h : BlockHeader) :
    ofBytes sha3 (h.streamRLP .WithSeal) .HeaderData .zero = .ok (reread sha3 h) := by
  obtain ⟨items, hbytes, hmap⟩ := exists_items h.seals
  have hrlp : h.streamRLP .WithSeal = encode (.list (h.fields ++ items)) := by
    rw [streamRLP, sealBytes, hbytes, ← encodeAll_append]
    rfl
  have hseals : readSeal (.list (h.fields ++ items)) = h.seals.filter fun s => s.bytes ≠ [] := by
    refine List.map_injective_iff.mpr SealField.bytes_injective ?_
    rw [← hmap, readSeal, List.map_map]
    rfl
  rw [ofBytes, hrlp, decodeStrict_encode]
  refine (populate_fields h _ items).trans ?_
  rw [hseals, ← hrlp]
  rfl

/-- The same header, up to the remembered hashes. -/
structure Same (h h' : BlockHeader) : Prop where
  parentHash : h'.parentHash = h.parentHash
  sha3Uncles : h'.sha3Uncles = h.sha3Uncles
  stateRoot : h'.stateRoot = h.stateRoot
  transactionsRoot : h'.transactionsRoot = h.transactionsRoot
  receiptsRoot : h'.receiptsRoot = h.receiptsRoot
  logBloom : h'.logBloom = h.logBloom
  number : h'.number = h.number
  gasLimit : h'.gasLimit = h.gasLimit
  gasUsed : h'.gasUsed = h.gasUsed
  extraData : h'.extraData = h.extraData
  timestamp : h'.timestamp = h.timestamp
  author : h'.author = h.author
  difficulty : h'.difficulty = h.difficulty
  seals : h'.seals = h.seals
  genIdx : h'.genIdx = h.genIdx
  nodeList : h'.nodeList = h.nodeList

/-- The hashes that are remembered are those of the header. -/
def Fresh (sha3 : Bytes → H256) (h : BlockHeader) : Prop :=
  (h.memo ≠ .zero → h.memo = sha3 (h.streamRLP .WithSeal)) ∧
    (h.memoWithout ≠ .zero → h.memoWithout = sha3 (h.streamRLP .WithoutSeal))

theorem same_reread : Same h (reread sha3 h) ↔
    h.genIdx = 0 ∧ h.nodeList = [] ∧ ∀ s ∈ h.seals, s.bytes ≠ [] := by
  have hseals : (h.seals.filter fun s => s.bytes ≠ []) = h.seals ↔ ∀ s ∈ h.seals, s.bytes ≠ [] := by
    simp [List.filter_eq_self]
  constructor
  · intro hsame
    exact ⟨hsame.genIdx.symm, hsame.nodeList.symm, hseals.mp hsame.seals⟩
  · rintro ⟨hidx, hnodes, hgaps⟩
    exact ⟨rfl, rfl, rfl, rfl, rfl, rfl, rfl, rfl, rfl, rfl, rfl, rfl, rfl, hseals.mpr hgaps,
      hidx.symm, hnodes.symm⟩

/-- The hash that a header answers is its own when what it remembers is. -/
theorem hash_withSeal : (hash sha3 h .WithSeal).1 = sha3 (h.streamRLP .WithSeal) ↔
    (h.memo ≠ .zero → h.memo = sha3 (h.streamRLP .WithSeal)) := by
  show (if h.memo = .zero then _ else _) = _ ↔ _
  split_ifs with hzero <;> simp [hzero]

theorem hash_withoutSeal : (hash sha3 h .WithoutSeal).1 = sha3 (h.streamRLP .WithoutSeal) ↔
    (h.memoWithout ≠ .zero → h.memoWithout = sha3 (h.streamRLP .WithoutSeal)) := by
  show (if h.memoWithout = .zero then _ else _) = _ ↔ _
  split_ifs with hzero <;> simp [hzero]

theorem streamRLP_reread : (reread sha3 h).streamRLP .WithSeal = h.streamRLP .WithSeal := by
  have hbytes : (reread sha3 h).sealBytes = h.sealBytes := by
    unfold sealBytes reread
    show ((h.seals.filter fun s => s.bytes ≠ []).map SealField.bytes).flatten = _
    induction h.seals with
    | nil => rfl
    | cons s l ih =>
      by_cases hs : s.bytes = []
      · rw [List.filter_cons_of_neg (by simp [hs]), ih, List.map_cons, List.flatten_cons, hs,
          List.nil_append]
      · rw [List.filter_cons_of_pos (by simp [hs]), List.map_cons, List.map_cons,
          List.flatten_cons, List.flatten_cons, ih]
  show listOf (encodeAll h.fields ++ (reread sha3 h).sealBytes) = _
  rw [hbytes]
  rfl

theorem hash_reread : (hash sha3 (reread sha3 h) .WithSeal).1 = sha3 (h.streamRLP .WithSeal) := by
  have hmemo : (reread sha3 h).memo = sha3 (h.streamRLP .WithSeal) := rfl
  have hstream : (reread sha3 h).streamRLP .WithSeal = h.streamRLP .WithSeal := streamRLP_reread
  rw [← hstream, hash_withSeal, hmemo, hstream]
  exact fun _ => rfl

/-- A header is read back as it was exactly when the fields that are not written are at
their defaults, the seal has no gaps, and no hash is remembered from earlier fields. -/
theorem roundTrip_exact (sha3 : Bytes → H256) (h : BlockHeader) :
    (∃ h', ofBytes sha3 (h.streamRLP .WithSeal) .HeaderData .zero = .ok h' ∧ Same h h' ∧
      (hash sha3 h' .WithSeal).1 = (hash sha3 h .WithSeal).1 ∧
      (hash sha3 h' .WithoutSeal).1 = (hash sha3 h .WithoutSeal).1) ↔
    h.genIdx = 0 ∧ h.nodeList = [] ∧ (∀ s ∈ h.seals, s.bytes ≠ []) ∧ Fresh sha3 h := by
  have hwithout : (hash sha3 (reread sha3 h) .WithoutSeal).1 =
      sha3 ((reread sha3 h).streamRLP .WithoutSeal) :=
    hash_withoutSeal.mpr fun hne => absurd rfl hne
  rw [show (reread sha3 h).streamRLP .WithoutSeal = h.streamRLP .WithoutSeal from rfl] at hwithout
  have hsame := @same_reread sha3 h
  simp only [ofBytes_streamRLP, Except.ok.injEq, exists_eq_left', hsame, hash_reread, hwithout,
    Fresh, ← hash_withSeal, ← hash_withoutSeal]
  constructor
  · rintro ⟨⟨hidx, hnodes, hgaps⟩, hwith, hwithout⟩
    exact ⟨hidx, hnodes, hgaps, hwith.symm, hwithout.symm⟩
  · rintro ⟨hidx, hnodes, hgaps, hwith, hwithout⟩
    exact ⟨⟨hidx, hnodes, hgaps⟩, hwith.symm, hwithout.symm⟩

/-- The index of the generating node is lost. -/
theorem roundTrip_genIdx : ¬ ∃ h', ofBytes (fun _ => .ofNat 1) ((empty.setIndex 1).streamRLP .WithSeal)
    .HeaderData .zero = .ok h' ∧ Same (empty.setIndex 1) h' := by
  rintro ⟨h', hread, hsame⟩
  rw [ofBytes_streamRLP] at hread
  obtain rfl := Except.ok.inj hread
  exact absurd hsame.genIdx (by decide)

end RoundTrip

end BlockHeader
end XChain
