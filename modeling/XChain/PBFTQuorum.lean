import Mathlib.Data.Finset.Card
import Mathlib.Data.BitVec

/-!
# Quorums

The node counts of the consensus and the certificates that they allow. Any two sets of a
quorum of nodes share more nodes than may be faulty, and the nodes that are not faulty are
a quorum by themselves.
-/
namespace XChain

/-- Two parts of a set share what their sizes together exceed it by. -/
theorem card_add_card_le {α : Type} [DecidableEq α] {s a b : Finset α} (ha : a ⊆ s) (hb : b ⊆ s) :
    a.card + b.card ≤ (a ∩ b).card + s.card := by
  have hunion : (a ∪ b).card ≤ s.card := Finset.card_le_card (Finset.union_subset ha hb)
  have hsum := Finset.card_union_add_card_inter a b
  omega

/-- The counts of the consensus, in unsigned words of 256 bits. -/
structure PBFT where
  m_node_num : BitVec 256
  m_f : BitVec 256

namespace PBFT

/-- The number of faulty nodes follows from the number of nodes. -/
def withNodes (nodeNum : BitVec 256) : PBFT where
  m_node_num := nodeNum
  m_f := (nodeNum - 1) / 3

/-- The nodes are counted from a single one. -/
def resetConfig : PBFT := withNodes 1

def quorum (p : PBFT) : BitVec 256 := p.m_node_num - p.m_f

section Counts

variable {n : BitVec 256}

theorem toNat_pred (hn : 1 ≤ n.toNat) : (n - 1).toNat = n.toNat - 1 := by
  have hlt := n.isLt
  rw [BitVec.toNat_sub_of_le (by simpa [BitVec.le_def] using hn)]
  simp

theorem toNat_f (hn : 1 ≤ n.toNat) : (withNodes n).m_f.toNat = (n.toNat - 1) / 3 := by
  show ((n - 1) / 3).toNat = (n.toNat - 1) / 3
  rw [BitVec.toNat_udiv, toNat_pred hn]
  rfl

theorem toNat_quorum (hn : 1 ≤ n.toNat) :
    (withNodes n).quorum.toNat = n.toNat - (n.toNat - 1) / 3 := by
  have hf := toNat_f hn
  have hle : (withNodes n).m_f ≤ (withNodes n).m_node_num := by
    rw [BitVec.le_def, hf]
    simp only [withNodes]
    omega
  rw [quorum, BitVec.toNat_sub_of_le hle, hf]
  rfl

end Counts

/-- Every two quorums share an honest node, the honest nodes are a quorum, and no
subtraction wraps. -/
theorem quorums_intersect {Node : Type} [DecidableEq Node] (n : BitVec 256) (hn : 1 ≤ n.toNat)
    (nodes : Finset Node) (hnodes : nodes.card = n.toNat) :
    let p := withNodes n
    (∀ a b, a ⊆ nodes → b ⊆ nodes → p.quorum.toNat ≤ a.card → p.quorum.toNat ≤ b.card →
      p.m_f.toNat + 1 ≤ (a ∩ b).card ∧
        ∀ faulty : Finset Node, faulty.card ≤ p.m_f.toNat → ∃ x ∈ a ∩ b, x ∉ faulty) ∧
    (∀ faulty, faulty ⊆ nodes → faulty.card ≤ p.m_f.toNat →
      p.quorum.toNat ≤ (nodes \ faulty).card) ∧
    (n - 1).toNat + 1 = n.toNat ∧ p.quorum.toNat + p.m_f.toNat = n.toNat := by
  intro p
  have hf : p.m_f.toNat = (n.toNat - 1) / 3 := toNat_f hn
  have hq : p.quorum.toNat = n.toNat - (n.toNat - 1) / 3 := toNat_quorum hn
  constructor
  · intro a b ha hb hqa hqb
    have hshare := card_add_card_le ha hb
    have hmore : p.m_f.toNat + 1 ≤ (a ∩ b).card := by omega
    constructor
    · exact hmore
    · intro faulty hfaulty
      exact Finset.exists_mem_notMem_of_card_lt_card (by omega)
  constructor
  · intro faulty hsub hfaulty
    have hsplit := Finset.card_sdiff_add_card_eq_card hsub
    omega
  constructor
  · rw [toNat_pred hn]
    omega
  · omega

/-- Four nodes, of which one may be faulty. -/
theorem quorums_intersect_four :
    let p := withNodes 4
    p.quorum = 3 ∧ p.m_f = 1 ∧
      p.m_f.toNat + 1 ≤ (({0, 1, 2} : Finset ℕ) ∩ {1, 2, 3}).card := by
  have h := (quorums_intersect 4 (by decide) ({0, 1, 2, 3} : Finset ℕ) (by decide)).1
    {0, 1, 2} {1, 2, 3} (by decide) (by decide) (by decide) (by decide)
  exact ⟨by decide, by decide, h.1⟩

end PBFT
end XChain
