import XChain.BlockHeader
import XChain.GuardedRuns

/-!
# The remembered hashes of headers

Headers are changed, asked for their hashes and populated from each other. Every setter
forgets the remembered hashes; populating does not, and takes the remembered hash of the
parent as it is. So what is answered is right in every run in which a header is populated
from a parent that was asked for its hash, and remembers no hash itself.
-/
namespace XChain

open Rlp

def EmptyListSHA3 (sha3 : Bytes → H256) : H256 := sha3 (encode (.list []))

def EmptyTrie (sha3 : Bytes → H256) : H256 := sha3 (encode (.data []))

namespace BlockHeader

section Setters

variable (h : BlockHeader)

def setSha3Uncles (v : H256) : BlockHeader := { h with sha3Uncles := v }.noteDirty

def setNumber (v : Word) : BlockHeader := { h with number := v }.noteDirty

def setGasLimit (v : Word) : BlockHeader := { h with gasLimit := v }.noteDirty

def setDifficulty (v : Word) : BlockHeader := { h with difficulty := v }.noteDirty

/-- The index and the list of nodes stay. -/
def clear (sha3 : Bytes → H256) : BlockHeader :=
  { h with
    parentHash := .zero
    sha3Uncles := EmptyListSHA3 sha3
    author := 0
    stateRoot := EmptyTrie sha3
    transactionsRoot := EmptyTrie sha3
    receiptsRoot := EmptyTrie sha3
    logBloom := 0
    difficulty := 0
    number := 0
    gasLimit := 0
    gasUsed := 0
    timestamp := BitVec.allOnes 256
    extraData := []
    seals := [] }.noteDirty

end Setters

/-- A call that changes a header by itself. -/
inductive Change where
  | setParentHash (v : H256)
  | setSha3Uncles (v : H256)
  | setTimestamp (v : Word)
  | setAuthor (v : Address)
  | setRoots (t r u s : H256)
  | setGasUsed (v : Word)
  | setNumber (v : Word)
  | setGasLimit (v : Word)
  | setExtraData (v : Bytes)
  | setLogBloom (v : LogBloom)
  | setDifficulty (v : Word)
  | setSeal (offset : ℕ) (x : Item)
  | setIndex (v : Word)
  | setNodeList (v : List NodeId)
  | clear

/-- A call on headers, which are known by numbers. -/
inductive Op where
  | change (i : ℕ) (c : Change)
  | hash (i : ℕ) (kind : IncludeSeal)
  | populateFromParent (i parent : ℕ)

variable (sha3 : Bytes → H256)

def Change.apply (h : BlockHeader) : Change → BlockHeader
  | .setParentHash v => h.setParentHash v
  | .setSha3Uncles v => h.setSha3Uncles v
  | .setTimestamp v => h.setTimestamp v
  | .setAuthor v => h.setAuthor v
  | .setRoots t r u s => h.setRoots t r u s
  | .setGasUsed v => h.setGasUsed v
  | .setNumber v => h.setNumber v
  | .setGasLimit v => h.setGasLimit v
  | .setExtraData v => h.setExtraData v
  | .setLogBloom v => h.setLogBloom v
  | .setDifficulty v => h.setDifficulty v
  | .setSeal offset x => h.setSeal offset x
  | .setIndex v => h.setIndex v
  | .setNodeList v => h.setNodeList v
  | .clear => h.clear sha3

def step (s : ℕ → BlockHeader) : Op → ℕ → BlockHeader
  | .change i c => Function.update s i (c.apply sha3 (s i))
  | .hash i kind => Function.update s i ((s i).hash sha3 kind).2
  | .populateFromParent i parent => Function.update s i ((s i).populateFromParent (s parent))

/-- The answers in the last state of a run are the hashes of what is written, and a header
that is populated names its parent. -/
structure Coherent (s : ℕ → BlockHeader) (ops : List Op) : Prop where
  withSeal : ∀ i, ((runFrom (step sha3) s ops i).hash sha3 .WithSeal).1 =
    sha3 ((runFrom (step sha3) s ops i).streamRLP .WithSeal)
  withoutSeal : ∀ i, ((runFrom (step sha3) s ops i).hash sha3 .WithoutSeal).1 =
    sha3 ((runFrom (step sha3) s ops i).streamRLP .WithoutSeal)
  parent : ∀ pre i parent post, ops = pre ++ .populateFromParent i parent :: post →
    (runFrom (step sha3) s (pre ++ [.populateFromParent i parent]) i).parentHash =
      sha3 ((runFrom (step sha3) s pre parent).streamRLP .WithSeal)

/-- A header has the fields that it takes over from a parent. -/
def TakenOver (h parent : BlockHeader) : Prop :=
  h.stateRoot = parent.stateRoot ∧ h.number = parent.number + 1 ∧ h.parentHash = parent.memo ∧
    h.gasLimit = parent.gasLimit ∧ h.difficulty = 1 ∧ h.gasUsed = 0

/-- A header is populated from a parent that remembers its hash, and remembers none or has
nothing to take over. -/
def guard (s : ℕ → BlockHeader) : Op → Prop
  | .populateFromParent i parent => (s parent).memo ≠ .zero ∧
      ((s i).memo = .zero ∧ (s i).memoWithout = .zero ∨ TakenOver (s i) (s parent))
  | _ => True

instance (h parent : BlockHeader) : Decidable (TakenOver h parent) := by
  unfold TakenOver
  infer_instance

instance : ∀ (s : ℕ → BlockHeader) (op : Op), Decidable (guard s op)
  | _, .populateFromParent _ _ => by
    unfold guard
    infer_instance
  | _, .change _ _ => inferInstanceAs (Decidable True)
  | _, .hash _ _ => inferInstanceAs (Decidable True)

variable {sha3} {h parent : BlockHeader} {s : ℕ → BlockHeader}

theorem fresh_of_forgotten (hmemo : h.memo = .zero) (hwithout : h.memoWithout = .zero) :
    Fresh sha3 h :=
  ⟨fun hne => absurd hmemo hne, fun hne => absurd hwithout hne⟩

theorem fresh_empty : Fresh sha3 empty := fresh_of_forgotten rfl rfl

/-- Every setter forgets both hashes. -/
theorem fresh_change (c : Change) : Fresh sha3 (c.apply sha3 h) := by
  cases c <;> exact fresh_of_forgotten rfl rfl

theorem fresh_hash (hf : Fresh sha3 h) (kind : IncludeSeal) : Fresh sha3 (h.hash sha3 kind).2 := by
  cases kind with
  | WithSeal => exact ⟨fun _ => hash_withSeal.mpr hf.1, hf.2⟩
  | WithoutSeal => exact ⟨hf.1, fun _ => hash_withoutSeal.mpr hf.2⟩
  | OnlySeal => exact hf

theorem populateFromParent_takenOver (ht : TakenOver h parent) :
    h.populateFromParent parent = h := by
  obtain ⟨hroot, hnumber, hparent, hlimit, hdifficulty, hused⟩ := ht
  unfold populateFromParent
  rw [← hroot, ← hnumber, ← hparent, ← hlimit, ← hdifficulty, ← hused]

theorem fresh_populate (hf : Fresh sha3 h)
    (hg : h.memo = .zero ∧ h.memoWithout = .zero ∨ TakenOver h parent) :
    Fresh sha3 (h.populateFromParent parent) := by
  obtain ⟨hmemo, hwithout⟩ | htaken := hg
  · exact fresh_of_forgotten hmemo hwithout
  · rwa [populateFromParent_takenOver htaken]

theorem fresh_step (s : ℕ → BlockHeader) (op : Op) (hs : ∀ i, Fresh sha3 (s i))
    (hg : guard s op) : ∀ i, Fresh sha3 (step sha3 s op i) := by
  have hupdate : ∀ i h', Fresh sha3 h' → ∀ j, Fresh sha3 (Function.update s i h' j) := by
    intro i h' hf
    exact (Function.forall_update_iff s fun _ h => Fresh sha3 h).mpr ⟨hf, fun j _ => hs j⟩
  cases op with
  | change i c => exact hupdate i _ (fresh_change c)
  | hash i kind => exact hupdate i _ (fresh_hash (hs i) kind)
  | populateFromParent i parent => exact hupdate i _ (fresh_populate (hs i) hg.2)

theorem coherent_of_guarded {ops : List Op} (h : Guarded (step sha3) guard s ops)
    (hs : ∀ i, Fresh sha3 (s i)) : Coherent sha3 s ops where
  withSeal i := hash_withSeal.mpr (h.invariant fresh_step hs i).1
  withoutSeal i := hash_withoutSeal.mpr (h.invariant fresh_step hs i).2
  parent := by
    rintro pre i parent post rfl
    obtain ⟨hfresh, hmemo, -⟩ := h.here fresh_step hs
    have hparent : (runFrom (step sha3) s (pre ++ [.populateFromParent i parent]) i).parentHash =
        (runFrom (step sha3) s pre parent).memo := by
      rw [runFrom_append, runFrom_singleton, step, Function.update_self]
      rfl
    rw [hparent]
    exact (hfresh parent).1 hmemo

/-- In a run in which every populated header is populated from a parent that remembers its
hash, and remembers none itself, all hashes are those of the current contents. -/
theorem memo_coherent (sha3 : Bytes → H256) (s : ℕ → BlockHeader) (hs : ∀ i, Fresh sha3 (s i))
    (ops : List Op) (h : Guarded (step sha3) guard s ops) : Coherent sha3 s ops :=
  coherent_of_guarded h hs

/-- The number of bytes in place of the hash. -/
def byteCount (b : Bytes) : H256 := .ofNat b.length

/-- A parent with a gas limit is asked for its hash, and a child is populated from it. -/
def childOps : List Op :=
  [.change 1 (.setGasLimit 1000), .hash 1 .WithSeal, .populateFromParent 0 1, .hash 0 .WithSeal]

theorem memo_coherent_child : Coherent byteCount (fun _ => empty) childOps :=
  memo_coherent byteCount (fun _ => empty) (fun _ => fresh_empty) childOps
    (by decide +kernel)

/-- A header that was asked for its hash before it is populated keeps that hash, and a
parent that was never asked for its hash is not named. -/
theorem memo_stale :
    ¬ Coherent byteCount (fun _ => empty) (.hash 0 .WithSeal :: childOps) ∧
      ¬ Coherent byteCount (fun _ => empty) [.populateFromParent 0 1] := by
  constructor
  · intro h
    exact absurd (h.withSeal 0) (by decide +kernel)
  · intro h
    exact absurd (h.parent [] 0 1 [] rfl) (by decide +kernel)

end BlockHeader
end XChain
