import XChain.PBFTClient
import XChain.Uncles

/-!
# Committing and sealing a block

What a block holds after it was committed for sealing, and after it was sealed.
-/
namespace XChain
namespace Block

open Machine Rlp

variable {S : Type} {n : Node S} {b : Block S}

/-- The encodings of the transactions of a block. -/
def txRlps (b : Block S) : List Bytes := b.transactions.items.map fun t => t.rlp true false

/-- The state of a block after the rewards. -/
def settled (n : Node S) (b : Block S) (uncles : List BlockHeader) : S :=
  n.ops.commit (rewarded n b.currentBlock uncles b.state) (removeEmptyAccounts n b)

/-- A block after it was committed for sealing. -/
def committed (n : Node S) (b : Block S) (uncles : List BlockHeader) (raw : List Bytes)
    (extraData : Bytes) : Block S :=
  { b with
    precommit := b.state
    state := settled n b uncles
    currentTxs := rawList (txRlps b)
    currentUncles := rawList raw
    committedToSeal := true
    currentBlock := ((((b.currentBlock.setLogBloom b.logBloom).setGasUsed b.gasUsed).setRoots
      (orderedTrieRoot n (txRlps b))
      (orderedTrieRoot n ((b.receipts.take b.transactions.items.length).map n.receiptRlp))
      (n.sha3 (rawList raw)) (n.ops.rootHash (settled n b uncles))).setParentHash
        (b.previousBlock.hash n.sha3 .WithSeal).1).setExtraData (extraData.take 32) }

theorem runs_mapM {α β : Type} {f : α → Exec S β} {g : α → Option β} {Q : List β → Block S → Prop}
    {E : BlockError → Block S → Prop} (hf : ∀ a c, g a = some c → f a b = .ok c b) {l : List α}
    {cs : List β} (hl : l.mapM g = some cs) (hQ : Q cs b) : Runs (l.mapM f) b Q E := by
  induction l generalizing cs Q with
  | nil =>
    obtain rfl := Option.some.inj hl
    exact runs_pure hQ
  | cons a l ih =>
    rw [List.mapM_cons] at hl ⊢
    simp only [Option.bind_eq_bind, Option.bind_eq_some_iff] at hl
    obtain ⟨c, hc, cs', hcs, hl⟩ := hl
    obtain rfl := Option.some.inj hl
    exact runs_bind (runs_of_ok (hf a c hc) (runs_bind (ih hcs (runs_pure hQ))))

theorem info_ok {h : H256} {bi : BlockHeader} (hbi : headerOf n h = some bi) :
    info n h b = .ok bi b := ok_of_runs (runs_info_ok hbi ⟨rfl, rfl⟩)

theorem commitToSeal_runs {extraData : Bytes} {uncles : List BlockHeader} {raw : List Bytes}
    {Q : PUnit → Block S → Prop} {E : BlockError → Block S → Prop} (hopen : b.isSealed = false)
    (hc : b.committedToSeal = false)
    (hheaders : (sealUncles n b.previousBlock b.currentBlock.parentHash).mapM (headerOf n) =
      some uncles)
    (hraw : (sealUncles n b.previousBlock b.currentBlock.parentHash).mapM n.chain.headerData =
      some raw)
    (hlen : b.transactions.items.length ≤ b.receipts.length)
    (hQ : Q ⟨⟩ (committed n b uncles raw extraData)) : Runs (commitToSeal n extraData) b Q E := by
  refine runs_bind (runs_get (runs_bind (runs_ite (fun h => ?_) fun _ => ?_)))
  · rw [hopen] at h
    cases h
  refine runs_pure (runs_bind (runs_ite (fun h => ?_) fun _ => ?_))
  · rw [hc] at h
    cases h
  refine runs_modify (runs_bind (runs_mapM (fun _ _ h => info_ok h) hheaders (runs_bind ?_)))
  refine runs_mapM (fun u d hd => ?_) hraw (runs_bind (runs_get (runs_bind ?_)))
  · unfold rawHeader
    rw [hd]
    rfl
  unfold receiptsOf
  rw [if_pos hlen]
  exact runs_pure (runs_bind (runs_modify (runs_bind (runs_modify (runs_bind (runs_modify
    (runs_modify hQ)))))))

section Bytes

variable {sha3 : Bytes → H256}

/-- The header that is read back from the bytes without a seal. -/
def written (sha3 : Bytes → H256) (h : BlockHeader) : BlockHeader :=
  BlockHeader.reread sha3 { h with seals := [] }

theorem streamRLP_bare (h : BlockHeader) :
    ({ h with seals := [] } : BlockHeader).streamRLP .WithSeal = h.streamRLP .WithoutSeal := by
  show BlockHeader.listOf (encodeAll h.fields ++ []) = BlockHeader.listOf (encodeAll h.fields)
  rw [List.append_nil]

theorem streamRLP_withoutSeal (h : BlockHeader) :
    h.streamRLP .WithoutSeal = encode (.list h.fields) := rfl

theorem ofBytes_withoutSeal (h : BlockHeader) :
    BlockHeader.ofBytes sha3 (h.streamRLP .WithoutSeal) .HeaderData .zero = .ok (written sha3 h) := by
  rw [← streamRLP_bare, BlockHeader.ofBytes_streamRLP]
  rfl

theorem written_hash (h : BlockHeader) (hm : h.memoWithout = .zero) :
    ((written sha3 h).hash sha3 .WithoutSeal).1 = (h.hash sha3 .WithoutSeal).1 := by
  rw [BlockHeader.hash_withoutSeal.mpr fun hne => (hne hm).elim,
    BlockHeader.hash_withoutSeal.mpr fun hne => (hne rfl).elim]
  rfl

/-- The hash of the header that is read back. -/
theorem written_hash_withSeal (h : BlockHeader) :
    ((written sha3 h).hash sha3 .WithSeal).1 = sha3 (h.streamRLP .WithoutSeal) := by
  rw [← streamRLP_bare]
  exact BlockHeader.hash_reread

theorem rawList_encode (l : List Item) : rawList (l.map encode) = encode (.list l) := by
  have hflat : (l.map encode).flatten = encodeAll l := by
    induction l with
    | nil => rfl
    | cons x l ih => rw [List.map_cons, List.flatten_cons, encodeAll, ih]
  unfold rawList
  rw [hflat]
  rfl

end Bytes

section Sealing

theorem sealProposal_runs {Q : Option Bytes → Block S → Prop} {E : BlockError → Block S → Prop}
    (hc : b.committedToSeal = true) (hm : b.currentBlock.memoWithout = .zero)
    (hQ : ∀ bytes, Q (some bytes) b) :
    Runs (sealProposal n (b.currentBlock.streamRLP .WithoutSeal)) b Q E := by
  refine runs_bind (runs_get (runs_ite (fun _ => runs_bind ?_) fun h => (h hc).elim))
  rw [ofBytes_withoutSeal]
  exact runs_pure (runs_ite (fun _ => runs_pure (hQ _)) fun h => (h (written_hash _ hm)).elim)

/-- A block after it was sealed with its own header. -/
def sealed (n : Node S) (b : Block S) : Block S :=
  { b with
    currentBytes := rawList [b.currentBlock.streamRLP .WithoutSeal, b.currentTxs, b.currentUncles]
    currentBlock := written n.sha3 b.currentBlock
    state := b.precommit }

theorem sealBlock_runs {Q : Bool → Block S → Prop} {E : BlockError → Block S → Prop}
    (hc : b.committedToSeal = true) (hm : b.currentBlock.memoWithout = .zero)
    (hQ : Q true (sealed n b)) :
    Runs (sealBlock n (b.currentBlock.streamRLP .WithoutSeal)) b Q E := by
  refine runs_bind (runs_get (runs_ite (fun _ => runs_bind ?_) fun h => (h hc).elim))
  rw [ofBytes_withoutSeal]
  exact runs_pure (runs_ite (fun _ => runs_bind (runs_modify (runs_pure hQ)))
    fun h => (h (written_hash _ hm)).elim)

/-- A block after its header was written anew. -/
def rewritten (n : Node S) (b : Block S) : Block S :=
  { b with
    state := n.ops.commit b.state false
    currentBlock := ((b.currentBlock.setLogBloom b.logBloom).setGasUsed b.gasUsed).setRoots
      b.currentBlock.transactionsRoot (orderedTrieRoot n (b.receipts.map n.receiptRlp))
      b.currentBlock.sha3Uncles (n.ops.rootHash (n.ops.commit b.state false))
    committedToSeal := true }

theorem commitToSealAfterExecTx_runs {Q : PUnit → Block S → Prop} {E : BlockError → Block S → Prop}
    (hQ : Q ⟨⟩ (rewritten n b)) : Runs (commitToSealAfterExecTx n) b Q E :=
  runs_bind (runs_modify (runs_modify hQ))

end Sealing

end Block
end XChain
