import XChain.BlockHeader
import XChain.TrieRuns

/-!
# Verifying a header with its block

A header is checked against its parent and against the block that it belongs to: the root
of the transactions is computed again from the list in the block, and so is the hash of the
uncles. The root of a list is the digest of the trie that has every entry under its index.
-/
namespace XChain

open Rlp

namespace TrieDB

section Ordered

variable (sha3 : Bytes → H256)

def trieRootOver (itemCount : ℕ) (getKey getValue : ℕ → Bytes) : Option H256 :=
  hash256 sha3 ((List.range itemCount).foldl (fun m i => m.insert (getKey i) (getValue i)) ∅)

/-- Every entry of a list under its index. -/
def orderedMap (data : List Bytes) : BytesMap :=
  data.zipIdx.foldl (fun m x => m.insert (encode (ofNat x.2)) x.1) ∅

def orderedTrieRoot (data : List Bytes) : Option H256 := hash256 sha3 (orderedMap data)

/-- The trie that has every entry of a list under its index. -/
def orderedTrie (data : List Value) : Trie :=
  data.zipIdx.foldl (fun t x => t.insert (asNibbles (encode (ofNat x.2))) x.1) .empty

theorem orderedMap_concat (data : List Bytes) (b : Bytes) :
    orderedMap (data ++ [b]) = (orderedMap data).insert (encode (ofNat data.length)) b := by
  unfold orderedMap
  rw [List.zipIdx_append, List.foldl_append, Nat.zero_add]
  rfl

theorem orderedTrie_concat (data : List Value) (v : Value) :
    orderedTrie (data ++ [v]) =
      (orderedTrie data).insert (asNibbles (encode (ofNat data.length))) v := by
  unfold orderedTrie
  rw [List.zipIdx_append, List.foldl_append, Nat.zero_add]
  rfl

theorem index_injective {i j : ℕ} (h : encode (ofNat i) = encode (ofNat j)) : i = j := by
  have hbytes : bigEndian i = bigEndian j := Item.data.inj (encode_injective h)
  rw [← ofBigEndian_bigEndian i, hbytes, ofBigEndian_bigEndian]

theorem orderedTrie_get (data : List Value) (i : ℕ) :
    (orderedTrie data).get (asNibbles (encode (ofNat i))) = data[i]? := by
  induction data using List.reverseRecOn with
  | nil => rfl
  | append_singleton data v ih =>
    rw [orderedTrie_concat, Patricia.get_insert]
    split_ifs with hi
    · rw [index_injective (asNibbles_injective hi).symm]
      simp
    · have hne : i ≠ data.length := fun h => hi (by rw [h])
      rw [ih, List.getElem?_append]
      split_ifs with hlt
      · rfl
      · rw [List.getElem?_eq_none (by omega), List.getElem?_eq_none (by simp; omega)]

theorem canonical_orderedTrie (data : List Value) : (orderedTrie data).Canonical := by
  induction data using List.reverseRecOn with
  | nil => trivial
  | append_singleton data v ih =>
    rw [orderedTrie_concat]
    exact ih.insert _ _

theorem represents_orderedTrie (data : List Value) :
    Represents (orderedMap (data.map Subtype.val)) (orderedTrie data) := by
  induction data using List.reverseRecOn with
  | nil =>
    intro n v
    simp [orderedMap, orderedTrie]
  | append_singleton data v ih =>
    rw [List.map_append, List.map_singleton, orderedMap_concat, orderedTrie_concat,
      List.length_map]
    exact ih.insert _ v

theorem orderedMap_values (data : List Value) :
    ∀ k v, (orderedMap (data.map Subtype.val)).lookup k = some v → v ≠ [] := by
  induction data using List.reverseRecOn with
  | nil =>
    intro k v hv
    simp [orderedMap] at hv
  | append_singleton data v ih =>
    intro k w hw
    rw [List.map_append, List.map_singleton, orderedMap_concat] at hw
    by_cases hk : k = encode (ofNat (data.map Subtype.val).length)
    · rw [hk, AList.lookup_insert] at hw
      rw [← Option.some.inj hw]
      exact v.property
    · rw [AList.lookup_insert_ne hk] at hw
      exact ih k w hw

/-- The root of a list is the digest of its trie. -/
theorem orderedTrieRoot_eq (data : List Value) :
    orderedTrieRoot sha3 (data.map Subtype.val) = some (digest sha3 (orderedTrie data)) :=
  hash256_eq (orderedMap_values data) (canonical_orderedTrie data) (represents_orderedTrie data)

theorem trieRootOver_index {data : List Bytes} {getValue : ℕ → Bytes}
    (h : ∀ i < data.length, data[i]? = some (getValue i)) :
    trieRootOver sha3 data.length (fun i => encode (ofNat i)) getValue =
      orderedTrieRoot sha3 data := by
  have hmap : (List.range data.length).foldl
      (fun m i => m.insert (encode (ofNat i)) (getValue i)) ∅ = orderedMap data := by
    induction data using List.reverseRecOn with
    | nil => rfl
    | append_singleton data b ih =>
      have hlast := h data.length (by simp)
      rw [List.getElem?_concat_length] at hlast
      rw [orderedMap_concat, List.length_append, List.length_singleton, List.range_succ,
        List.foldl_append, ih, List.foldl_cons, List.foldl_nil, Option.some.inj hlast]
      intro i hi
      rw [← h i (by simp; omega), List.getElem?_append_left hi]
  rw [trieRootOver, hmap, orderedTrieRoot]

end Ordered

end TrieDB

namespace BlockHeader

open TrieDB

inductive BodyError where
  | header (e : VerifyError)
  | InvalidTransactionsRoot (required got : Option H256)
  | InvalidUnclesHash (required got : H256)

variable (sha3 : Bytes → H256) (h : BlockHeader)

/-- The checks of a header against the block. -/
def verifyBody (root : Item) : Except BodyError Unit := do
  let txList := (get? root 1).getD (.data [])
  let expectedRoot := trieRootOver sha3 (Rlp.itemCount txList) (fun i => encode (ofNat i)) (rawAt txList)
  (if some h.transactionsRoot ≠ expectedRoot then
    throw (.InvalidTransactionsRoot expectedRoot (some h.transactionsRoot)) else pure ())
  (if h.sha3Uncles ≠ sha3 (rawAt root 2) then
    throw (.InvalidUnclesHash (sha3 (rawAt root 2)) h.sha3Uncles) else pure ())

/-- `verify` with a block. -/
def verifyBlock (s : Strictness) (parent : BlockHeader) (block : Option Item) :
    Except BodyError Unit := do
  (match h.verify sha3 s parent with
    | .ok _ => pure ()
    | .error e => throw (.header e))
  match block with
  | some root => h.verifyBody sha3 root
  | none => pure ()

/-- The encoded transactions of a block. -/
def transactions (root : Item) : List Bytes :=
  match get? root 1 with
  | some (.list l) => l.map encode
  | _ => []

/-- A header follows its parent and belongs to a block. A header without a parent's hash
is not linked to it. -/
structure Linked (parent : BlockHeader) (root : Item) : Prop where
  parentHash : h.parentHash = .zero ∨ h.parentHash = (parent.hash sha3 .WithSeal).1
  number : h.number = parent.number + 1
  timestamp : parent.timestamp < h.timestamp
  gasUsed : h.gasUsed ≤ h.gasLimit
  transactionsRoot : orderedTrieRoot sha3 (transactions root) = some h.transactionsRoot
  sha3Uncles : h.sha3Uncles = sha3 (rawAt root 2)

variable {sha3 h} {parent : BlockHeader} {root : Item}

theorem rawAt_list {l : List Item} {i : ℕ} (hi : i < l.length) :
    (l.map encode)[i]? = some (rawAt (.list l) i) := by
  rw [rawAt, get?, List.getElem?_map, List.getElem?_eq_getElem hi]
  rfl

theorem expectedRoot_eq : trieRootOver sha3 (Rlp.itemCount ((get? root 1).getD (.data [])))
    (fun i => encode (ofNat i)) (rawAt ((get? root 1).getD (.data []))) =
      orderedTrieRoot sha3 (transactions root) := by
  have hindex := fun l => @trieRootOver_index sha3 (List.map encode l) (rawAt (.list l))
  unfold transactions
  cases get? root 1 with
  | none => rfl
  | some x =>
    cases x with
    | data b => rfl
    | list l =>
      have hroot := hindex l fun i hi => rawAt_list (by simpa using hi)
      rwa [List.length_map] at hroot

theorem verifyBody_ok {u : Unit} : h.verifyBody sha3 root = .ok u ↔
    orderedTrieRoot sha3 (transactions root) = some h.transactionsRoot ∧
      h.sha3Uncles = sha3 (rawAt root 2) := by
  simp only [verifyBody, expectedRoot_eq, bind_eq_ok, refuse_eq_ok, not_not, exists_const]
  rw [eq_comm (a := some h.transactionsRoot)]

theorem verify_ok (hp : parent.isSet = true) {u : Unit} :
    h.verify sha3 .CheckEverything parent = .ok u ↔
      h.number.toNat ≤ 2 ^ 32 - 1 ∧ h.gasUsed ≤ h.gasLimit ∧
        (h.parentHash = .zero ∨ h.parentHash = (parent.hash sha3 .WithSeal).1) ∧
          parent.timestamp < h.timestamp ∧ h.number = parent.number + 1 := by
  simp only [verify, hp, if_true, bind_eq_ok, refuse_eq_ok, not_not, exists_const, not_lt,
    BitVec.not_lt, BitVec.not_le, ne_eq, reduceCtorEq, not_false_eq_true, true_and, not_and_or]
  rw [eq_comm (a := h.parentHash) (b := (parent.hash sha3 .WithSeal).1)]

/-- What it takes to verify a header: a number of 32 bits, and that it follows its parent and
belongs to the block. -/
theorem verifyBlock_ok (hp : parent.isSet = true) {u : Unit} :
    h.verifyBlock sha3 .CheckEverything parent (some root) = .ok u ↔
      h.number.toNat ≤ 2 ^ 32 - 1 ∧ Linked sha3 h parent root := by
  have hheader := @verify_ok sha3 h parent hp ()
  unfold verifyBlock
  rw [bind_eq_ok]
  constructor
  · rintro ⟨v, hverify, hbody⟩
    have hok : h.verify sha3 .CheckEverything parent = .ok () := by
      cases hv : h.verify sha3 .CheckEverything parent with
      | ok w => rfl
      | error e =>
        rw [hv] at hverify
        cases hverify
    obtain ⟨hnumber, hgas, hparent, htime, hnext⟩ := hheader.mp hok
    obtain ⟨hroot, huncles⟩ := verifyBody_ok.mp hbody
    exact ⟨hnumber, hparent, hnext, htime, hgas, hroot, huncles⟩
  · rintro ⟨hnumber, hlinked⟩
    refine ⟨(), ?_, verifyBody_ok.mpr ⟨hlinked.transactionsRoot, hlinked.sha3Uncles⟩⟩
    rw [hheader.mpr ⟨hnumber, hlinked.gasUsed, hlinked.parentHash, hlinked.timestamp,
      hlinked.number⟩]
    rfl

/-- A header that passes every check follows its parent and belongs to the block. -/
theorem verifyBlock_linked (sha3 : Bytes → H256) (h parent : BlockHeader) (root : Item)
    (hp : parent.isSet = true)
    (hok : h.verifyBlock sha3 .CheckEverything parent (some root) = .ok ()) :
    Linked sha3 h parent root :=
  ((verifyBlock_ok hp).mp hok).2

/-- Every hash is one. -/
def oneHash : Bytes → H256 := fun _ => .ofNat 1

/-- The header of the second block, without the hash of its parent. -/
def secondHeader : BlockHeader :=
  { empty with
    sha3Uncles := .ofNat 1
    transactionsRoot := .ofNat 1
    number := 1
    timestamp := 1 }

def firstHeader : BlockHeader := { empty with timestamp := 0 }

/-- A block without transactions and uncles. -/
def emptyBody : Item := .list [.list [], .list [], .list []]

theorem verifyBlock_linked_second :
    Linked oneHash { secondHeader with parentHash := .ofNat 1 } firstHeader emptyBody :=
  verifyBlock_linked oneHash { secondHeader with parentHash := .ofNat 1 } firstHeader emptyBody
    (by decide) ((verifyBlock_ok (by decide)).mpr ⟨by decide, Or.inr (by decide +kernel),
      by decide, by decide, by decide, by decide +kernel, by decide +kernel⟩)

/-- A header that names no parent passes. -/
theorem verifyBlock_unlinked :
    ¬ ∀ (sha3 : Bytes → H256) (h parent : BlockHeader) (root : Item), parent.isSet = true →
      h.verifyBlock sha3 .CheckEverything parent (some root) = .ok () →
        h.parentHash = (parent.hash sha3 .WithSeal).1 := by
  intro h
  have hok : secondHeader.verifyBlock oneHash .CheckEverything firstHeader (some emptyBody) =
      .ok () :=
    (verifyBlock_ok (by decide)).mpr ⟨by decide, Or.inl rfl, by decide, by decide, by decide,
      by decide +kernel, by decide +kernel⟩
  exact absurd (h oneHash secondHeader firstHeader emptyBody (by decide) hok) (by decide +kernel)

end BlockHeader
end XChain
