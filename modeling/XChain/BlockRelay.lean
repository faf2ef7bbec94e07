import Mathlib.Data.Finset.Basic
import XChain.MemoryDB
import XChain.RandomSelection

/-!
# Announcing blocks

When the chain has a new head, each peer that does not know it is told about the blocks that lead
to it: a quarter of the peers get the blocks themselves, and the others their hashes.
-/
namespace XChain

/-- What the chain says about blocks. `treeRoute` has the blocks behind the common ancestor. -/
structure BlockRoutes where
  number : H256 → ℕ
  totalDifficulty : H256 → ℕ
  treeRoute : H256 → H256 → List H256
  block : H256 → Bytes

inductive BlockPacket where
  | newBlock (block : Bytes) (totalDifficulty : ℕ)
  | newBlockHashes (blocks : List (H256 × ℕ))
  deriving DecidableEq

structure BlockRelay (Peer : Type) where
  m_latestBlockSent : H256
  m_knownBlocks : Peer → Finset H256

namespace BlockRelay

variable {Peer : Type} [DecidableEq Peer] (m_chain : BlockRoutes) (s : BlockRelay Peer)

def diff (a b : ℕ) : ℕ := max a b - min a b

/-- Packets for peers, one peer after the other. -/
def forEach {α : Type} (peers : List Peer) (packets : List α) : List (Peer × α) :=
  peers.flatMap fun p => packets.map fun packet => (p, packet)

def newBlocks (blocks : List H256) : List BlockPacket :=
  blocks.map fun b => .newBlock (m_chain.block b) (m_chain.totalDifficulty b)

def newBlockHashes (blocks : List H256) : List BlockPacket :=
  [.newBlockHashes (blocks.map fun b => (b, m_chain.number b))]

/-- The packets and the state after them. A peer that was told something is taken to know
nothing else. -/
def maintainBlocks (rand : ℕ → ℕ) (peers : List Peer) (currentHash : H256) :
    BlockRelay Peer × List (Peer × BlockPacket) :=
  if m_chain.totalDifficulty s.m_latestBlockSent < m_chain.totalDifficulty currentHash then
    if diff (m_chain.number s.m_latestBlockSent) (m_chain.number currentHash) < 20 then
      let blocks := m_chain.treeRoute s.m_latestBlockSent currentHash
      let chosen := EthereumHost.randomSelection rand 25
        (fun p => !decide (currentHash ∈ s.m_knownBlocks p)) peers
      let told p := (p ∈ chosen.1 ∧ blocks ≠ []) ∨ p ∈ chosen.2
      (⟨currentHash, fun p => if told p then ∅ else s.m_knownBlocks p⟩,
        forEach chosen.1 (newBlocks m_chain blocks) ++
          forEach chosen.2 (newBlockHashes m_chain blocks))
    else ({ s with m_latestBlockSent := currentHash }, [])
  else (s, [])

/-- The packets for one peer. -/
def packetsFor {α : Type} (p : Peer) (packets : List (Peer × α)) : List α :=
  (packets.filter fun packet => packet.1 = p).map Prod.snd

section Packets

variable {α : Type} {p : Peer} {peers : List Peer} {packets packets' : List (Peer × α)}

theorem packetsFor_append :
    packetsFor p (packets ++ packets') = packetsFor p packets ++ packetsFor p packets' := by
  rw [packetsFor, List.filter_append, List.map_append]
  rfl

theorem packetsFor_forEach (hnodup : peers.Nodup) (l : List α) :
    packetsFor p (forEach peers l) = if p ∈ peers then l else [] := by
  induction peers with
  | nil => exact (if_neg List.not_mem_nil).symm
  | cons q peers ih =>
    obtain ⟨hq, hnodup⟩ := List.nodup_cons.mp hnodup
    have hfirst : packetsFor p (l.map fun packet => (q, packet)) = if q = p then l else [] := by
      by_cases heq : q = p <;> simp [packetsFor, List.filter_map, Function.comp_def, heq]
    change packetsFor p (l.map (fun packet => (q, packet)) ++ forEach peers l) = _
    rw [packetsFor_append, hfirst, ih hnodup]
    by_cases heq : q = p
    · subst heq
      rw [if_pos rfl, if_neg hq, if_pos List.mem_cons_self, List.append_nil]
    · simp only [heq, if_false, List.nil_append, List.mem_cons, Ne.symm heq, false_or]

end Packets

variable {m_chain s} {peers : List Peer} {currentHash : H256}

variable (m_chain s peers currentHash) in
/-- A quarter of the peers, as far as so many do not know the head, get the blocks, the others
that do not know it get the hashes, and nobody gets both. -/
def Announces (packets : List (Peer × BlockPacket)) : Prop :=
  ∃ chosen : List Peer, chosen.Nodup ∧
    (∀ p ∈ chosen, p ∈ peers ∧ currentHash ∉ s.m_knownBlocks p) ∧
    chosen.length = min ((peers.length * 25 + 99) / 100)
      (peers.countP fun p => currentHash ∉ s.m_knownBlocks p) ∧
    ∀ p, packetsFor p packets =
      if p ∈ chosen then newBlocks m_chain (m_chain.treeRoute s.m_latestBlockSent currentHash)
      else if p ∈ peers ∧ currentHash ∉ s.m_knownBlocks p then
        newBlockHashes m_chain (m_chain.treeRoute s.m_latestBlockSent currentHash)
      else []

/-- A new head that is not too far away is announced so, whatever the random numbers are. -/
theorem announces_maintainBlocks (rand : ℕ → ℕ) (hpeers : peers.Nodup)
    (hgrows : m_chain.totalDifficulty s.m_latestBlockSent < m_chain.totalDifficulty currentHash)
    (hnear : diff (m_chain.number s.m_latestBlockSent) (m_chain.number currentHash) < 20) :
    Announces m_chain s peers currentHash (maintainBlocks m_chain s rand peers currentHash).2 := by
  have hperm := EthereumHost.randomSelection_perm rand 25
    (fun p => !decide (currentHash ∈ s.m_knownBlocks p)) peers
  have hlen := EthereumHost.length_randomSelection rand 25
    (fun p => !decide (currentHash ∈ s.m_knownBlocks p)) peers
  have hout : (maintainBlocks m_chain s rand peers currentHash).2 =
      forEach (EthereumHost.randomSelection rand 25
          (fun p => !decide (currentHash ∈ s.m_knownBlocks p)) peers).1
        (newBlocks m_chain (m_chain.treeRoute s.m_latestBlockSent currentHash)) ++
      forEach (EthereumHost.randomSelection rand 25
          (fun p => !decide (currentHash ∈ s.m_knownBlocks p)) peers).2
        (newBlockHashes m_chain (m_chain.treeRoute s.m_latestBlockSent currentHash)) := by
    rw [maintainBlocks, if_pos hgrows, if_pos hnear]
  rw [hout]
  generalize EthereumHost.randomSelection rand 25
    (fun p => !decide (currentHash ∈ s.m_knownBlocks p)) peers = selection at hperm hlen
  obtain ⟨chosen, others⟩ := selection
  have hnodup := hperm.nodup_iff.mpr (hpeers.filter _)
  obtain ⟨hchosen, hothers, hdisjoint⟩ := List.nodup_append'.mp hnodup
  have hmem (p : Peer) : p ∈ chosen ∨ p ∈ others ↔ p ∈ peers ∧ currentHash ∉ s.m_knownBlocks p := by
    rw [← List.mem_append, hperm.mem_iff, List.mem_filter]
    simp
  refine ⟨chosen, hchosen, fun p hp => (hmem p).mp (Or.inl hp), ?_, fun p => ?_⟩
  · refine hlen.trans (congrArg₂ min rfl (List.countP_congr fun p _ => ?_))
    simp
  · rw [packetsFor_append, packetsFor_forEach hchosen, packetsFor_forEach hothers]
    by_cases hp : p ∈ chosen
    · have hnot : p ∉ others := fun hp' => hdisjoint hp hp'
      rw [if_pos hp, if_neg hnot, List.append_nil, if_pos hp]
    · have hiff : p ∈ others ↔ p ∈ peers ∧ currentHash ∉ s.m_knownBlocks p := by
        rw [← hmem, or_iff_right hp]
      rw [if_neg hp, List.nil_append, if_neg hp]
      simp only [hiff]

/-- A chain with one block on the genesis block. -/
def oneBlock : BlockRoutes where
  number b := if b = .ofNat 1 then 1 else 0
  totalDifficulty b := if b = .ofNat 1 then 2 else 1
  treeRoute _ b := [b]
  block _ := []

theorem announces_oneBlock : Announces oneBlock ⟨.ofNat 0, fun _ => ∅⟩ [true, false] (.ofNat 1)
    (maintainBlocks oneBlock ⟨.ofNat 0, fun _ => ∅⟩ (fun _ => 5) [true, false] (.ofNat 1)).2 :=
  announces_maintainBlocks _ (by decide) (by decide +kernel) (by decide +kernel)

end BlockRelay

end XChain
