import XChain.BlockSealing
import XChain.TransactionRlp

/-!
# A round of the PBFT client

The leader executes the transactions of its block when it takes them up and once more
after it has sent the block out; both executions leave their receipts. A round ends with
a block that the other nodes accept exactly when the block is empty.
-/
namespace XChain
namespace PBFTClient

open Machine Rlp Block

variable {S Q : Type} {n : Node S} {q : QueueOps Q} {r : Round} {b : Block S} {queue : Q}
  {parent : BlockHeader}

/-- A block on a parent, with its transactions executed. -/
structure Synced (n : Node S) (parent : BlockHeader) (b : Block S) : Prop where
  previousBlock : b.previousBlock = parent
  opened : b.isSealed = false
  committed : b.committedToSeal = false
  number : b.currentBlock.number = parent.number + 1
  parentHash : b.currentBlock.parentHash = parent.memo
  proper : ∀ t ∈ b.transactions.items, t.type ≠ .NullTransaction
  executed : ∃ s, replay n (n.chain.lastHashes n.chain.currentHash) b.currentBlock
    (irregular n b.currentBlock.number (n.ops.setRoot s parent.stateRoot)) 0 b.transactions.items =
      .ok (b.state, b.receipts)

theorem replay_concat {lh : List H256} {h : BlockHeader} {s₀ s s' : S} {gas : Word}
    {ts : List Transaction} {rs : List TransactionReceipt} {t : Transaction}
    {rec : TransactionReceipt} (hr : replay n lh h s₀ gas ts = .ok (s, rs))
    (hx : n.ops.execute s ⟨h, lh, gasAfter gas rs⟩ t = .ok (s', rec)) :
    replay n lh h s₀ gas (ts ++ [t]) = .ok (s', rs ++ [rec]) := by
  induction ts generalizing s₀ gas rs with
  | nil =>
    obtain ⟨rfl, rfl⟩ := Prod.mk.inj (Except.ok.inj hr)
    exact replay_cons hx rfl
  | cons t' ts ih =>
    obtain ⟨s₁, rec', rs', rfl, hx', hrest⟩ := replay_cons_ok hr
    have hgas : gasAfter gas (rec' :: rs') = gasAfter rec'.gasUsed rs' := by
      unfold gasAfter
      cases rs' with
      | nil => rfl
      | cons r₂ l =>
        rw [List.getLast?_cons_cons]
        obtain ⟨x, hx⟩ := List.getLast?_isSome (l := r₂ :: l) |>.mpr (List.cons_ne_nil r₂ l) |>
          Option.isSome_iff_exists.mp
        rw [hx]
        rfl
    rw [hgas] at hx
    exact replay_cons hx' (ih hrest hx)

theorem replay_length {lh : List H256} {h : BlockHeader} {s₀ s : S} {gas : Word}
    {ts : List Transaction} {rs : List TransactionReceipt}
    (hr : replay n lh h s₀ gas ts = .ok (s, rs)) : rs.length = ts.length := by
  induction ts generalizing s₀ gas rs with
  | nil =>
    obtain ⟨-, rfl⟩ := Prod.mk.inj (Except.ok.inj hr)
    rfl
  | cons t ts ih =>
    obtain ⟨s₁, rec, rs', rfl, -, hrest⟩ := replay_cons_ok hr
    rw [List.length_cons, ih hrest, List.length_cons]

theorem Synced.receipts_length (h : Synced n parent b) :
    b.receipts.length = b.transactions.items.length := by
  obtain ⟨s, hr⟩ := h.executed
  exact replay_length hr

theorem uncommitted_eq (hc : b.committedToSeal = false) : b.uncommitted = b := by
  unfold uncommitted live
  rw [if_neg (by rw [hc]; exact Bool.false_ne_true), ← hc]

theorem Synced.taken (h : Synced n parent b) {t : Transaction} {s : S} {rec : TransactionReceipt}
    (ht : t.type ≠ .NullTransaction) (hx : n.ops.execute b.live
      ⟨b.currentBlock, n.chain.lastHashes n.chain.currentHash, b.gasUsed⟩ t = .ok (s, rec)) :
    Synced n parent (taken n b t s rec) where
  previousBlock := h.previousBlock
  opened := h.opened
  committed := rfl
  number := h.number
  parentHash := h.parentHash
  proper := by
    intro t' ht'
    rw [show (Block.taken n b t s rec).transactions = b.transactions.push n.grow t from rfl,
      Buffer.push_items] at ht'
    obtain ht' | ht' := List.mem_append.mp ht'
    · exact h.proper t' ht'
    · rwa [List.mem_singleton.mp ht']
  executed := by
    obtain ⟨s₀, hr⟩ := h.executed
    refine ⟨s₀, ?_⟩
    rw [show (Block.taken n b t s rec).transactions = b.transactions.push n.grow t from rfl,
      Buffer.push_items]
    refine replay_concat hr ?_
    have hlive : b.live = b.state := by
      unfold live
      rw [if_neg (by rw [h.committed]; exact Bool.false_ne_true)]
    rw [← hlive]
    exact hx

section Syncing

/-- The queue holds transactions that were read from their encodings. -/
def ProperQueue (q : QueueOps Q) : Prop :=
  ∀ queue k hashes, ∀ t ∈ q.topTransactions queue k hashes, t.type ≠ .NullTransaction

theorem syncTransaction_synced {ask : Block S → Word} (h : Synced n parent b) {t : Transaction}
    (ht : t.type ≠ .NullTransaction) :
    Runs (syncTransaction n q ask (n.chain.lastHashes n.chain.currentHash) t) (b, queue)
      (fun _ s' => Synced n parent s'.1) fun _ _ => False := by
  refine runs_bind (runs_get (runs_ite (fun _ => runs_pure h) fun _ => runs_ite (fun _ => ?_) fun _ =>
    runs_ite (fun _ => runs_bind (runs_modify (runs_pure h))) fun _ => runs_pure h))
  refine runs_tryCatch (runs_bind (runs_onBlock ((execute_spec 0 t).mono ?_ ?_)))
  · rintro - b' ⟨-, s, rec, hx, rfl⟩
    exact runs_bind (runs_onBlock (runs_lastReceipt (runs_pure (h.taken ht hx))))
  · rintro e b' (⟨-, -, rfl⟩ | ⟨-, -, -, -, rfl⟩)
    · exact runs_bind (runs_modify (runs_pure h))
    · refine runs_bind (runs_modify (runs_pure ?_))
      rw [uncommitted_eq h.committed]
      exact h

theorem syncRound_synced {ask : Block S → Word} {ts : List Transaction} (h : Synced n parent b)
    (hts : ∀ t ∈ ts, t.type ≠ .NullTransaction) :
    Runs (syncRound n q ask (n.chain.lastHashes n.chain.currentHash) ts) (b, queue)
      (fun _ s' => Synced n parent s'.1) fun _ _ => False := by
  induction ts generalizing b queue with
  | nil => exact runs_pure h
  | cons t ts ih =>
    refine runs_bind ((syncTransaction_synced h (hts t List.mem_cons_self)).imp fun rs s' h' => ?_)
    exact runs_bind ((ih h' fun t' ht' => hts t' (List.mem_cons_of_mem t ht')).imp
      fun _ _ h'' => runs_pure h'')

theorem syncRounds_synced {ask : Block S → Word} {ts : List Transaction} (h : Synced n parent b)
    (hts : ∀ t ∈ ts, t.type ≠ .NullTransaction) (rounds : ℕ) :
    Runs (syncRounds n q ask (n.chain.lastHashes n.chain.currentHash) ts rounds) (b, queue)
      (fun _ s' => Synced n parent s'.1) fun _ _ => False := by
  induction rounds generalizing b queue with
  | zero => exact runs_pure h
  | succ rounds ih =>
    refine runs_bind ((syncRound_synced h hts).imp fun rs s' h' => runs_ite (fun _ => ?_) fun _ =>
      runs_pure h')
    exact runs_bind ((ih h').imp fun _ _ h'' => runs_pure h'')

/-- Filling a block from the queue ends with its transactions executed. -/
theorem syncTransactionQueue_synced (hq : ProperQueue q) (h : Synced n parent b)
    (ask : Block S → Word) (rounds : ℕ) : ∃ b' queue',
      syncTransactionQueue n q r ask rounds (b, queue) = .ok () (b', queue') ∧
        Synced n parent b' := by
  have hruns : Runs (syncTransactionQueue n q r ask rounds) (b, queue)
      (fun _ s' => Synced n parent s'.1) fun _ _ => False := by
    refine runs_bind (runs_get (runs_ite (fun _ => runs_pure h) fun _ => runs_ite (fun _ => runs_pure h)
      fun _ => runs_bind (runs_bind (runs_get (runs_bind (runs_ite (fun hs => ?_) fun _ => ?_))))))
    · rw [h.opened] at hs
      cases hs
    · exact runs_pure ((syncRounds_synced h (hq _ _ _) rounds).imp fun _ _ h' => runs_pure h')
  cases hm : syncTransactionQueue n q r ask rounds (b, queue) with
  | ok u s' => exact ⟨s'.1, s'.2, rfl, hruns.ok hm⟩
  | error e s' => exact (hruns.error hm).elim

end Syncing

section Issuing

/-- A block with the time, the index and the nodes of the round. -/
def timed (r : Round) (b : Block S) : Block S :=
  let h := b.currentBlock.setTimestamp (laterOf (b.previousBlock.timestamp + 1) r.timestamp)
  { b with currentBlock := (h.setIndex r.nodeIdx).setNodeList r.minerNodeList }

/-- The block that is sent out. -/
def proposed (n : Node S) (r : Round) (b : Block S) (uncles : List BlockHeader)
    (raw : List Bytes) : Block S := Block.committed n (timed r b) uncles raw r.extraData

theorem committed_number (b : Block S) (uncles : List BlockHeader) (raw : List Bytes)
    (extraData : Bytes) :
    (Block.committed n b uncles raw extraData).currentBlock.number = b.currentBlock.number := by
  dsimp only [Block.committed, BlockHeader.setRoots, BlockHeader.setGasUsed,
    BlockHeader.setLogBloom, BlockHeader.setExtraData, BlockHeader.setParentHash,
    BlockHeader.noteDirty]

theorem proposed_number (uncles : List BlockHeader) (raw : List Bytes) :
    (proposed n r b uncles raw).currentBlock.number = b.currentBlock.number :=
  committed_number (timed r b) uncles raw r.extraData

/-- The uncles of a block and their headers. -/
structure UnclesOf (n : Node S) (b : Block S) (uncles : List BlockHeader) (raw : List Bytes) :
    Prop where
  headers : (sealUncles n b.previousBlock b.currentBlock.parentHash).mapM (headerOf n) = some uncles
  bytes : (sealUncles n b.previousBlock b.currentBlock.parentHash).mapM n.chain.headerData = some raw

/-- What follows after the proposal. -/
def finishBlock (n : Node S) (q : QueueOps Q) (r : Round) : EStateM BlockError (Block S × Q) Unit := do
  let executed ← executeTransaction n q r
  if executed then do
    onBlock (commitToSealAfterExecTx n)
    let s ← get
    let done ← onBlock (sealBlock n (s.1.currentBlock.streamRLP .WithoutSeal))
    if done then pure () else onBlock (resetCurrent n r.now)
  else pure ()

variable {uncles : List BlockHeader} {raw : List Bytes} {P : PUnit → Block S × Q → Prop}
  {E : BlockError → Block S × Q → Prop}

theorem issueBlock_runs (h : Synced n parent b) (hu : UnclesOf n b uncles raw)
    (hskip : r.generated = false ∨ (pending (b, queue) = 0 ∧ r.omitEmptyBlock = true) →
      Runs (onBlock (resetCurrent n r.now)) (proposed n r b uncles raw, queue) P E)
    (hrest : ¬ (r.generated = false ∨ (pending (b, queue) = 0 ∧ r.omitEmptyBlock = true)) →
      Runs (finishBlock n q r) (proposed n r b uncles raw, queue) P E) :
    Runs (issueBlock n q r) (b, queue) P E := by
  refine runs_bind (runs_get (runs_bind (runs_onBlock (runs_modify (runs_bind (runs_onBlock
    (runs_modify (runs_bind (runs_onBlock (runs_modify (runs_bind (runs_onBlock ?_))))))))))))
  refine commitToSeal_runs (b := timed r b) h.opened h.committed hu.headers hu.bytes
    (le_of_eq h.receipts_length.symm) ?_
  refine runs_bind (runs_get ?_)
  refine runs_bind (runs_onBlock (sealProposal_runs (b := proposed n r b uncles raw) rfl rfl
    fun bytes => runs_bind (runs_get ?_)))
  by_cases hcond : r.generated = false ∨ (pending (b, queue) = 0 ∧ r.omitEmptyBlock = true)
  · exact runs_ite (fun _ => hskip hcond) fun hc => (hc (Or.inr (by tauto))).elim
  · refine runs_ite (fun hc => ?_) fun _ => hrest hcond
    obtain hnone | hg | ho | hne := hc
    · cases hnone
    · exact (hcond (Or.inl hg)).elim
    · exact (hcond (Or.inr ho)).elim
    · exact (hne rfl).elim

theorem runs_resetCurrent_open {timestamp : Word} :
    Runs (onBlock (resetCurrent n timestamp)) (b, queue) (fun _ s' => s'.1.isSealed = false)
      fun _ _ => False :=
  runs_onBlock (runs_resetCurrent fun _ hb => hb.opened)

/-- The end of a round that seals its block. -/
theorem seal_runs {b' : Block S} (hP : P ⟨⟩ (Block.sealed n (rewritten n b'), queue)) :
    Runs (do
      onBlock (commitToSealAfterExecTx n)
      let s ← get
      let done ← onBlock (sealBlock n (s.1.currentBlock.streamRLP .WithoutSeal))
      if done then pure () else onBlock (resetCurrent n r.now) :
        EStateM BlockError (Block S × Q) Unit) (b', queue) P E := by
  refine runs_bind (runs_onBlock (commitToSealAfterExecTx_runs (runs_bind (runs_get (runs_bind ?_)))))
  exact runs_onBlock (sealBlock_runs (b := rewritten n b') rfl rfl
    (runs_ite (fun _ => runs_pure hP) fun h => (h rfl).elim))

/-- Without transactions there is nothing to execute. -/
theorem finishBlock_empty (hs : b.isSealed = false) (hitems : b.transactions.items = [])
    (hP : P ⟨⟩ (Block.sealed n (rewritten n b), queue)) :
    Runs (finishBlock n q r) (b, queue) P E := by
  have hexec : exec n q (b, queue) = (pure [] : EStateM BlockError (Block S × Q)
      (List TransactionReceipt)) (b, queue) := by
    rw [exec_open hs, hitems]
    rfl
  refine runs_bind (runs_tryCatch (runs_bind (Runs.congr (runs_pure ?_) hexec)))
  exact runs_pure (runs_ite (fun _ => seal_runs hP) fun h => (h rfl).elim)

/-- A round that ends with a sealed block has executed the transactions of the proposal. -/
theorem finishBlock_spec (hs : b.isSealed = false) : Runs (finishBlock n q r) (b, queue)
    (fun _ s' => s'.1.isSealed = true → ∃ ts rs s b', ts.length = b.transactions.items.length ∧
      replay n (n.chain.lastHashes n.chain.currentHash) b.currentBlock b.live b.gasUsed ts =
        .ok (s, rs) ∧ After n b ts rs s b' ∧ s'.1 = Block.sealed n (rewritten n b'))
    fun _ _ => True := by
  refine runs_bind (runs_tryCatch (runs_bind (Runs.congr ?_ (exec_open hs))))
  refine (execLoop_spec _ 0 _ queue).mono ?_ ?_
  · rintro rs ⟨b', queue'⟩ ⟨ts, s, hlen, hr, ha⟩
    exact runs_pure (runs_ite (fun _ => seal_runs fun _ => ⟨ts, rs, s, b', hlen, hr, ha, rfl⟩)
      fun h => (h rfl).elim)
  · rintro e ⟨b', queue'⟩ -
    refine runs_ite (fun _ => runs_bind (runs_resetCurrent_open.mono ?_ fun _ _ _ => trivial))
      fun _ => runs_throw trivial
    intro _ s' hs'
    refine runs_pure (runs_ite (fun h => (Bool.false_ne_true h).elim) fun _ => runs_pure fun h => ?_)
    rw [hs'] at h
    cases h

end Issuing

section Receiving

/-- What holds of states: the root determines the state, and a commit right after another one
changes nothing. -/
structure StateLaws (ops : StateOps S) : Prop where
  setRoot_eq : ∀ s s' r, ops.setRoot s r = ops.setRoot s' r
  commit_again : ∀ s c, ops.rootHash (ops.commit (ops.commit s c) false) = ops.rootHash (ops.commit s c)

/-- A block that another node follows a received block with: its headers are not set yet, and it
has the state of the parent. -/
structure Ready (n : Node S) (parent : BlockHeader) (b : Block S) : Prop where
  current : b.currentBlock.isSet = false
  previous : b.previousBlock.isSet = false
  hasRoot : n.ops.hasRoot b.state parent.stateRoot = true

/-- The state that a received block is followed from. -/
structure Start (n : Node S) (parent : BlockHeader) (b : Block S) : Prop where
  reset : Reset b
  opened : b.isSealed = false
  previousBlock : b.previousBlock = parent
  parentHash : b.currentBlock.parentHash = parent.memo
  items : b.transactions.items = []
  state : ∃ s, b.state = irregular n (parent.number + 1) (n.ops.setRoot s parent.stateRoot)

theorem not_sameFields {h h' : BlockHeader} (hs : h.isSet = true) (hs' : h'.isSet = false) :
    ¬ h.sameFields h' = true := by
  intro hsame
  simp only [BlockHeader.sameFields, decide_eq_true_eq] at hsame
  have htime := hsame.2.2.2.2.2.2.2.2.2.2.2.1
  unfold BlockHeader.isSet at hs hs'
  rw [htime] at hs
  rw [hs] at hs'
  cases hs'

theorem enactOn_runs (hl : ChainLaws n) {blk : VerifiedBlock}
    (hp : headerOf n blk.info.parentHash = some parent)
    (hverify : blk.info.verify n.sha3 .CheckNothingNew parent = .ok ()) (hb : Ready n parent b)
    {timestamp : Word} {P : Word → Block S → Prop} {E : BlockError → Block S → Prop}
    (h : ∀ b₀, Start n parent b₀ → Runs (enact n blk) b₀ P E) :
    Runs (enactOn n timestamp blk) b P E := by
  have hset := hl.isSet _ parent hp
  refine runs_bind (runs_info_ok hp (runs_bind ?_))
  rw [hverify]
  have hsync : Runs (do
      let _ ← sync n timestamp blk.info.parentHash
      resetCurrent n timestamp
      modify fun b => { b with previousBlock := parent }
      enact n blk) b P E := by
    refine runs_bind (runs_bind (runs_info_ok hp (runs_bind (runs_get ?_))))
    refine runs_ite (fun hc => (not_sameFields hset hb.current hc).elim) fun _ => runs_ite
      (fun hc => (not_sameFields hset hb.previous hc).elim) fun _ => runs_ite (fun _ => ?_)
        fun hc => (hc hb.hasRoot).elim
    refine runs_bind (runs_modify (runs_bind (runs_resetCurrent fun b₁ hb₁ => runs_pure ?_)))
    have hparent₁ : b₁.previousBlock = parent := hb₁.previousBlock
    refine runs_bind (runs_resetCurrent fun b₂ hb₂ => runs_bind (runs_modify ?_))
    refine h _ ⟨⟨hb₂.reset.receipts, hb₂.reset.committed⟩, hb₂.opened, rfl, ?_, ?_, b₁.state, ?_⟩
    · exact hb₂.parentHash.trans (congrArg BlockHeader.memo hparent₁)
    · show b₂.transactions.items = []
      rw [hb₂.pending]
      rfl
    · show b₂.state = _
      rw [hb₂.state, hparent₁]
  refine runs_pure (runs_bind (runs_ite (fun hne => ?_) fun _ => runs_pure hsync))
  obtain ⟨-, p, hgrand, -⟩ := hl.parents _ parent hp hne
  exact runs_bind (runs_info_ok hgrand (runs_pure hsync))

/-- A block that was received: its bytes, with the header and the transactions read from them. -/
structure Received (n : Node S) (recover : SignatureStruct → H256 → Option Address) (bytes : Bytes)
    (blk : VerifiedBlock) : Prop where
  block : blk.block = bytes
  info : BlockHeader.ofBytes n.sha3 bytes .BlockData .zero = .ok blk.info
  transactions : ((decodeStrict bytes).bind fun root => (rawItems (get? root 1)).mapM fun raw =>
    (Transaction.ofBytes n.sha3 recover .Everything raw).toOption) = some blk.transactions

/-- The roots, the gas and the bloom of a header are those that a node has come to by following the
block. -/
structure Agrees (n : Node S) (h : BlockHeader) (blk : VerifiedBlock) (b : Block S) : Prop where
  stateRoot : h.stateRoot = n.ops.rootHash b.state
  transactionsRoot : h.transactionsRoot = orderedTrieRoot n (txRlps b)
  receiptsRoot : h.receiptsRoot = orderedTrieRoot n (b.receipts.map n.receiptRlp)
  gasUsed : h.gasUsed = b.gasUsed
  logBloom : h.logBloom = b.logBloom
  sha3Uncles : ∃ root, decodeStrict blk.block = some root ∧
    h.sha3Uncles = n.sha3 (BlockHeader.rawAt root 2)

/-- The items of a sealed block. -/
def blockItem (h : BlockHeader) (txs uncles : List Item) : Item :=
  .list [.list h.fields, .list txs, .list uncles]

theorem ofBytes_blockItem {sha3 : Bytes → H256} (h : BlockHeader) (txs uncles : List Item) :
    BlockHeader.ofBytes sha3 (encode (blockItem h txs uncles)) .BlockData .zero =
      .ok (written sha3 h) := by
  have hheader : BlockHeader.ofBytes sha3 (h.streamRLP .WithoutSeal) .HeaderData .zero =
      .ok (written sha3 h) := ofBytes_withoutSeal h
  unfold BlockHeader.ofBytes at hheader ⊢
  rw [streamRLP_withoutSeal, decodeStrict_encode] at hheader
  rw [decodeStrict_encode]
  exact hheader

theorem sealed_currentBytes {b : Block S} {txs uncles : List Item}
    (htxs : b.currentTxs = encode (.list txs)) (huncles : b.currentUncles = encode (.list uncles)) :
    (Block.sealed n b).currentBytes = encode (blockItem b.currentBlock txs uncles) := by
  show rawList [b.currentBlock.streamRLP .WithoutSeal, b.currentTxs, b.currentUncles] = _
  rw [htxs, huncles, streamRLP_withoutSeal]
  exact rawList_encode [.list b.currentBlock.fields, .list txs, .list uncles]

theorem lt_laterOf {t t' : Word} (ht : t ≠ BitVec.allOnes 256) : t < laterOf (t + 1) t' := by
  have hlt : t < t + 1 := by
    have hne : t.toNat ≠ 2 ^ 256 - 1 := fun h => ht (BitVec.eq_of_toNat_eq (by
      rw [h, BitVec.toNat_allOnes]))
    have hbound := t.isLt
    rw [BitVec.lt_def, BitVec.toNat_add]
    show t.toNat < (t.toNat + 1) % 2 ^ 256
    rw [Nat.mod_eq_of_lt (by omega)]
    omega
  unfold laterOf
  split_ifs with hlater
  · rw [BitVec.lt_def] at hlt hlater ⊢
    omega
  · exact hlt

theorem number_toNat (hnum : parent.number.toNat + 1 < 2 ^ 32) :
    (parent.number + 1).toNat = parent.number.toNat + 1 := by
  rw [BitVec.toNat_add]
  show (parent.number.toNat + 1) % 2 ^ 256 = _
  rw [Nat.mod_eq_of_lt (by omega)]

/-- A header that a child of the parent has, up to the largest number. -/
theorem verify_child (hl : ChainLaws n) {h : BlockHeader} (hp : headerOf n h.parentHash = some parent)
    (hnumber : h.number = parent.number + 1) (htime : parent.timestamp < h.timestamp)
    (hnum : parent.number.toNat + 1 < 2 ^ 32) :
    h.verify n.sha3 .CheckNothingNew parent = .ok () := by
  have hto : h.number.toNat = parent.number.toNat + 1 := by rw [hnumber, number_toNat hnum]
  unfold BlockHeader.verify
  rw [if_neg (by omega), if_neg (fun hc => hc.1 rfl), if_pos (hl.isSet _ parent hp),
    if_neg (fun hc => hc.2 (hl.hash hp)), if_neg (BitVec.not_le.mpr htime),
    if_neg (not_not.mpr hnumber)]
  rfl

theorem exists_encode {sha3 : Bytes → H256} {d : Bytes} {bi : BlockHeader}
    (h : BlockHeader.ofBytes sha3 d .HeaderData .zero = .ok bi) : ∃ x, d = encode x := by
  unfold BlockHeader.ofBytes at h
  cases hd : decodeStrict d with
  | none =>
    rw [hd] at h
    cases h
  | some x => exact ⟨x, (encode_of_decodeStrict hd).symm⟩

/-- The headers of uncles are encodings of items. -/
theorem exists_items {us : List H256} {headers : List BlockHeader} {raw : List Bytes}
    (hheaders : us.mapM (headerOf n) = some headers)
    (hraw : us.mapM n.chain.headerData = some raw) :
    ∃ items : List Item, raw = items.map encode ∧ items.length = us.length := by
  induction us generalizing headers raw with
  | nil =>
    obtain rfl := Option.some.inj hraw
    exact ⟨[], rfl, rfl⟩
  | cons u us ih =>
    rw [List.mapM_cons] at hraw hheaders
    simp only [Option.bind_eq_bind, Option.bind_eq_some_iff] at hraw hheaders
    obtain ⟨d, hd, ds, hds, hraw⟩ := hraw
    obtain ⟨bi, hbi, bis, hbis, -⟩ := hheaders
    obtain rfl := Option.some.inj hraw
    obtain ⟨d', hd', hb⟩ := headerOf_eq_some.mp hbi
    obtain rfl : d = d' := Option.some.inj (hd.symm.trans hd')
    obtain ⟨x, rfl⟩ := exists_encode hb
    obtain ⟨items, rfl, hlen⟩ := ih hbis hds
    exact ⟨x :: items, rfl, by rw [List.length_cons, hlen, List.length_cons]⟩

/-- The uncles that a block was sealed with pass the checks of another node. -/
theorem enactUncles_sealed (hl : ChainLaws n) {h : BlockHeader} (hon : On n parent h)
    {uncles : List BlockHeader} {raw : List Bytes}
    (hheaders : (sealUncles n parent h.parentHash).mapM (headerOf n) = some uncles)
    (hraw : (sealUncles n parent h.parentHash).mapM n.chain.headerData = some raw)
    {b : Block S} (hb : b.currentBlock = written n.sha3 h) :
    enactUncles n (((written n.sha3 h).hash n.sha3 .WithSeal).1 ::
      n.chain.allKinFrom (written n.sha3 h).parentHash 6) raw 0 b = .ok uncles b := by
  obtain ⟨excluded, hchoice⟩ := sealUncles_choice hl hon.known
  have hon' : On n parent b.currentBlock := by
    rw [hb]
    exact ⟨hon.known, hon.number⟩
  refine enactUncles_accepts hl hon' (fun u hu => (hchoice.uncles u hu).1) hchoice.nodup hraw hheaders
    (fun u hu hmem => ?_) 0
  obtain rfl | hmem := List.mem_cons.mp hmem
  · -- a header of the chain with this hash would be the new header itself, which is higher
    obtain ⟨k, hk⟩ := (hchoice.uncles _ hu).1
    obtain ⟨bi, p, hbi, -, -, -, hnum⟩ := hk.header
    obtain ⟨d, hd, hread⟩ := headerOf_eq_some.mp hbi
    rw [← hl.sole _ d _ hd (written_hash_withSeal h).symm, ofBytes_withoutSeal] at hread
    obtain rfl := Except.ok.inj hread
    have hnumber : (written n.sha3 h).number.toNat = parent.number.toNat + 1 := hon.number
    omega
  · exact (hchoice.uncles u hu).2 hmem

/-- The block that an empty round ends with. -/
def emptyRound (n : Node S) (r : Round) (b : Block S) (uncles : List BlockHeader)
    (raw : List Bytes) : Block S := Block.sealed n (rewritten n (proposed n r b uncles raw))

/-- The header of that block, before it is read back. -/
def roundHeader (n : Node S) (r : Round) (b : Block S) (uncles : List BlockHeader)
    (raw : List Bytes) : BlockHeader :=
  { b.currentBlock with
    parentHash := (b.previousBlock.hash n.sha3 .WithSeal).1
    sha3Uncles := n.sha3 (rawList raw)
    stateRoot := n.ops.rootHash (n.ops.commit (n.ops.commit
      (rewarded n b.currentBlock uncles b.state)
      (decide (n.chain.EIP158ForkBlock ≤ b.currentBlock.number))) false)
    transactionsRoot := orderedTrieRoot n (txRlps b)
    receiptsRoot := orderedTrieRoot n (b.receipts.map n.receiptRlp)
    logBloom := b.logBloom
    gasUsed := b.gasUsed
    extraData := r.extraData.take 32
    timestamp := laterOf (b.previousBlock.timestamp + 1) r.timestamp
    memo := .zero
    memoWithout := .zero
    genIdx := r.nodeIdx
    nodeList := r.minerNodeList }

theorem rewarded_congr {h h' : BlockHeader} {uncles : List BlockHeader} {s : S}
    (hnumber : h.number = h'.number) (hauthor : h.author = h'.author) :
    rewarded n h uncles s = rewarded n h' uncles s := by
  unfold rewarded
  rw [hnumber, hauthor]

theorem roundHeader_eq {uncles : List BlockHeader} {raw : List Bytes} :
    (rewritten n (proposed n r b uncles raw)).currentBlock = roundHeader n r b uncles raw := by
  have hrewarded : rewarded n (timed r b).currentBlock uncles b.state =
      rewarded n b.currentBlock uncles b.state := rewarded_congr rfl rfl
  dsimp only [rewritten, proposed, Block.committed, settled, removeEmptyAccounts]
  rw [show (timed r b).state = b.state from rfl, hrewarded]
  dsimp only [timed, roundHeader, BlockHeader.setRoots, BlockHeader.setGasUsed, BlockHeader.setLogBloom,
    BlockHeader.setExtraData, BlockHeader.setParentHash, BlockHeader.setNodeList,
    BlockHeader.setIndex, BlockHeader.setTimestamp, BlockHeader.noteDirty]
  rfl

section Fields

variable {uncles : List BlockHeader} {raw : List Bytes}

theorem roundHeader_parentHash : (roundHeader n r b uncles raw).parentHash =
    (b.previousBlock.hash n.sha3 .WithSeal).1 := rfl

theorem roundHeader_number : (roundHeader n r b uncles raw).number = b.currentBlock.number := rfl

theorem roundHeader_stateRoot : (roundHeader n r b uncles raw).stateRoot =
    n.ops.rootHash (n.ops.commit (n.ops.commit (rewarded n b.currentBlock uncles b.state)
      (decide (n.chain.EIP158ForkBlock ≤ b.currentBlock.number))) false) := rfl

theorem roundHeader_receiptsRoot : (roundHeader n r b uncles raw).receiptsRoot =
    orderedTrieRoot n (b.receipts.map n.receiptRlp) := rfl

theorem roundHeader_logBloom : (roundHeader n r b uncles raw).logBloom = b.logBloom := rfl

theorem roundHeader_gasUsed : (roundHeader n r b uncles raw).gasUsed = b.gasUsed := rfl

end Fields

theorem emptyRound_on (hl : ChainLaws n) {hash : H256} (hp : headerOf n hash = some parent)
    (h : Synced n parent b) {uncles : List BlockHeader} {raw : List Bytes}
    (hnum : parent.number.toNat + 1 < 2 ^ 32) : On n parent (roundHeader n r b uncles raw) := by
  refine ⟨?_, ?_⟩
  · rw [roundHeader_parentHash, h.previousBlock, hl.hash hp, hp]
  · rw [roundHeader_number, h.number, number_toNat hnum]

theorem Synced.receipts_nil (h : Synced n parent b) (hitems : b.transactions.items = []) :
    b.receipts = [] := by
  refine List.length_eq_zero_iff.mp ?_
  rw [h.receipts_length, hitems]
  rfl

theorem Synced.state_empty (h : Synced n parent b) (hitems : b.transactions.items = []) :
    ∃ s, b.state = irregular n (parent.number + 1) (n.ops.setRoot s parent.stateRoot) := by
  obtain ⟨s, hr⟩ := h.executed
  rw [hitems, h.number] at hr
  obtain ⟨hstate, -⟩ := Prod.mk.inj (Except.ok.inj hr)
  exact ⟨s, hstate.symm⟩

/-- The block of an empty round, as another node reads it. -/
def emptyBlock (n : Node S) (r : Round) (b : Block S) (uncles : List BlockHeader)
    (items : List Item) : VerifiedBlock where
  block := encode (blockItem (roundHeader n r b uncles (items.map encode)) [] items)
  info := written n.sha3 (roundHeader n r b uncles (items.map encode))
  transactions := []

theorem emptyBlock_stateRoot (hs : StateLaws n.ops) (h : Synced n parent b)
    (hitems : b.transactions.items = []) {uncles : List BlockHeader} {items : List Item}
    {b₀ : Block S} (h₀ : Start n parent b₀) : (emptyBlock n r b uncles items).info.stateRoot =
      n.ops.rootHash (n.ops.commit (rewarded n (emptyBlock n r b uncles items).info uncles b₀.state)
        (decide (n.chain.EIP158ForkBlock ≤ (emptyBlock n r b uncles items).info.number))) := by
  obtain ⟨s, hstate⟩ := h.state_empty hitems
  obtain ⟨s', hstate'⟩ := h₀.state
  have hrewarded : rewarded n (emptyBlock n r b uncles items).info uncles b₀.state =
      rewarded n b.currentBlock uncles b₀.state := rewarded_congr rfl rfl
  rw [hrewarded]
  show (roundHeader n r b uncles (items.map encode)).stateRoot = _
  rw [roundHeader_stateRoot, hs.commit_again, hstate, hstate', hs.setRoot_eq s s']
  rfl

theorem emptyBlock_acceptable (hl : ChainLaws n) (hs : StateLaws n.ops) {hash : H256}
    (hp : headerOf n hash = some parent) (h : Synced n parent b)
    (hitems : b.transactions.items = []) {uncles : List BlockHeader} {items : List Item}
    (hu : UnclesOf n b uncles (items.map encode))
    (hlen : items.length = (sealUncles n b.previousBlock b.currentBlock.parentHash).length)
    (hnum : parent.number.toNat + 1 < 2 ^ 32) {b₀ : Block S} (h₀ : Start n parent b₀) :
    Acceptable n b₀ (emptyBlock n r b uncles items) b₀.state []
      (blockItem (roundHeader n r b uncles (items.map encode)) [] items) uncles := by
  have hreceipts := h.receipts_nil hitems
  have hon : On n parent (roundHeader n r b uncles (items.map encode)) :=
    emptyRound_on hl hp h hnum
  have hparent : b.currentBlock.parentHash = hash := h.parentHash.trans (hl.memo hp)
  exact {
    parent := by rw [h₀.parentHash, h₀.previousBlock, hl.hash hp, hl.memo hp]
    opened := h₀.opened
    wellFormed := decodeStrict_encode _
    replays := rfl
    receipts := by
      refine ⟨?_, ?_, ?_⟩
      · show (roundHeader n r b uncles (items.map encode)).receiptsRoot = _
        rw [roundHeader_receiptsRoot, hreceipts]
      · show (roundHeader n r b uncles (items.map encode)).logBloom = _
        rw [roundHeader_logBloom, logBloom, hreceipts]
      · show (roundHeader n r b uncles (items.map encode)).gasUsed = _
        rw [roundHeader_gasUsed, gasUsed, hreceipts]
        rfl
    few := by
      show (items.map encode).length ≤ 2
      obtain ⟨excluded, hchoice⟩ := sealUncles_choice hl hp
      have hfew := hchoice.few
      rw [List.length_map, hlen, h.previousBlock, hparent]
      exact hfew
    uncles_ok := by
      intro b₁ hb₁
      have hheaders := hu.headers
      have hraw := hu.bytes
      have hheader : (roundHeader n r b uncles (items.map encode)).parentHash = hash := by
        rw [roundHeader_parentHash, h.previousBlock, hl.hash hp]
      rw [h.previousBlock, hparent, ← hheader] at hheaders hraw
      exact enactUncles_sealed hl hon hheaders hraw hb₁
    stateRoot := fun _ => emptyBlock_stateRoot hs h hitems h₀ }

theorem emptyRound_bytes (hitems : b.transactions.items = []) {uncles : List BlockHeader}
    {items : List Item} : (emptyRound n r b uncles (items.map encode)).currentBytes =
      encode (blockItem (roundHeader n r b uncles (items.map encode)) [] items) := by
  rw [← roundHeader_eq]
  refine sealed_currentBytes ?_ (rawList_encode items)
  show rawList (txRlps b) = _
  rw [txRlps, hitems]
  exact rawList_encode []

/-- Other nodes accept the block of an empty round, and come to what its header says. -/
theorem emptyRound_accepted (hl : ChainLaws n) (hs : StateLaws n.ops) {hash : H256}
    (hp : headerOf n hash = some parent) (h : Synced n parent b)
    (hitems : b.transactions.items = []) {uncles : List BlockHeader} {raw : List Bytes}
    (hu : UnclesOf n b uncles raw) (hnum : parent.number.toNat + 1 < 2 ^ 32) {b' : Block S}
    (hb' : Ready n parent b') (recover : SignatureStruct → H256 → Option Address)
    (timestamp : Word) : ∃ blk w b'',
      Received n recover (emptyRound n r b uncles raw).currentBytes blk ∧
        enactOn n timestamp blk b' = .ok w b'' ∧
        Agrees n (emptyRound n r b uncles raw).currentBlock blk b'' := by
  obtain ⟨items, rfl, hlen⟩ := exists_items hu.headers hu.bytes
  have hreceipts := h.receipts_nil hitems
  have hon : On n parent (roundHeader n r b uncles (items.map encode)) := emptyRound_on hl hp h hnum
  have hblock : (emptyRound n r b uncles (items.map encode)).currentBlock =
      written n.sha3 (roundHeader n r b uncles (items.map encode)) := by
    rw [← roundHeader_eq]
    rfl
  have hreceived : Received n recover (emptyRound n r b uncles (items.map encode)).currentBytes
      (emptyBlock n r b uncles items) := by
    rw [emptyRound_bytes hitems]
    refine ⟨rfl, ofBytes_blockItem _ _ _, ?_⟩
    rw [decodeStrict_encode]
    rfl
  have hverify : (emptyBlock n r b uncles items).info.verify n.sha3 .CheckNothingNew parent = .ok () := by
    refine verify_child hl hon.known h.number ?_ hnum
    have hset : parent.timestamp ≠ BitVec.allOnes 256 := by
      have := hl.isSet hash parent hp
      unfold BlockHeader.isSet at this
      exact of_decide_eq_true this
    show parent.timestamp < laterOf (b.previousBlock.timestamp + 1) r.timestamp
    rw [h.previousBlock]
    exact lt_laterOf hset
  have hruns : Runs (enactOn n timestamp (emptyBlock n r b uncles items)) b' (fun _ b'' =>
      Agrees n (emptyRound n r b uncles (items.map encode)).currentBlock
        (emptyBlock n r b uncles items) b'') Never := by
    refine enactOn_runs hl hon.known hverify hb' fun b₀ h₀ => ?_
    have hacceptable := emptyBlock_acceptable (r := r) hl hs hp h hitems hu hlen hnum h₀
    obtain ⟨b'', he, haccepted⟩ := enact_accepts h₀.reset hacceptable
    refine runs_of_ok he ?_
    have hitems'' : b''.transactions.items = [] := by
      rw [haccepted.items, h₀.items]
      rfl
    rw [hblock]
    refine ⟨?_, ?_, ?_, ?_, ?_, blockItem (roundHeader n r b uncles (items.map encode)) [] items,
      decodeStrict_encode _, ?_⟩
    · rw [haccepted.state]
      exact emptyBlock_stateRoot hs h hitems h₀
    · rw [txRlps, hitems'']
      show orderedTrieRoot n (txRlps b) = _
      rw [txRlps, hitems]
    · rw [haccepted.receipts]
      show (roundHeader n r b uncles (items.map encode)).receiptsRoot = _
      rw [roundHeader_receiptsRoot, hreceipts]
    · rw [gasUsed, haccepted.receipts]
      show (roundHeader n r b uncles (items.map encode)).gasUsed = _
      rw [roundHeader_gasUsed, gasUsed, hreceipts]
    · rw [logBloom, haccepted.receipts]
      show (roundHeader n r b uncles (items.map encode)).logBloom = _
      rw [roundHeader_logBloom, logBloom, hreceipts]
    · show n.sha3 (rawList (items.map encode)) = n.sha3 (encode (.list items))
      rw [rawList_encode]
  cases he : enactOn n timestamp (emptyBlock n r b uncles items) b' with
  | ok w b'' => exact ⟨_, w, b'', hreceived, he, hruns.ok he⟩
  | error e b'' => exact (hruns.error he).elim

end Receiving

section Pending

/-- Lists of receipts of which one is twice as long as the other have different roots. -/
def DistinctRoots (n : Node S) : Prop :=
  ∀ l l' : List Bytes, l ≠ [] → l'.length = 2 * l.length → orderedTrieRoot n l ≠ orderedTrieRoot n l'

theorem mapM_length {α β : Type} {f : α → Option β} {l : List α} {l' : List β}
    (h : l.mapM f = some l') : l'.length = l.length := by
  induction l generalizing l' with
  | nil =>
    obtain rfl := Option.some.inj h
    rfl
  | cons a l ih =>
    rw [List.mapM_cons] at h
    simp only [Option.bind_eq_bind, Option.bind_eq_some_iff] at h
    obtain ⟨c, -, cs, hcs, h⟩ := h
    obtain rfl := Option.some.inj h
    rw [List.length_cons, ih hcs, List.length_cons]

theorem exists_txItems (ts : List Transaction) (h : ∀ t ∈ ts, t.type ≠ .NullTransaction) :
    ∃ items : List Item, (ts.map fun t => t.rlp true false) = items.map encode ∧
      items.length = ts.length := by
  induction ts with
  | nil => exact ⟨[], rfl, rfl⟩
  | cons t ts ih =>
    obtain ⟨items, hitems, hlen⟩ := ih fun t' ht' => h t' (List.mem_cons_of_mem t ht')
    obtain ⟨x, hx⟩ : ∃ x, t.rlp true false = encode x :=
      ⟨_, Transaction.rlp_eq (h t List.mem_cons_self)⟩
    refine ⟨x :: items, ?_, by rw [List.length_cons, hlen, List.length_cons]⟩
    rw [List.map_cons, hx, hitems, List.map_cons]

/-- What a round that ends with a sealed block has sealed: the transactions of the proposal, and
a header over the receipts of both executions. -/
structure SealedRound (n : Node S) (b b' : Block S) : Prop where
  bytes : ∃ h txs uncles, b'.currentBytes = encode (blockItem h txs uncles) ∧
    b'.currentBlock = written n.sha3 h ∧ txs.length = b.transactions.items.length ∧
    h.number = b.currentBlock.number ∧
    ∃ receipts, h.receiptsRoot = orderedTrieRoot n receipts ∧
      receipts.length = 2 * b.transactions.items.length

theorem issueBlock_spec (hl : ChainLaws n) {hash : H256} (hp : headerOf n hash = some parent)
    (h : Synced n parent b) : Runs (issueBlock n q r) (b, queue)
      (fun _ s' => s'.1.isSealed = true → SealedRound n b s'.1 ∧
        (b.transactions.items = [] → r.omitEmptyBlock = false)) fun _ _ => True := by
  have hparent : b.currentBlock.parentHash = hash := h.parentHash.trans (hl.memo hp)
  obtain ⟨excluded, hchoice⟩ := sealUncles_choice hl hp
  obtain ⟨raw, uncles, hraw, hheaders⟩ := uncles_known fun u hu => (hchoice.uncles u hu).1
  obtain ⟨uncleItems, rfl, -⟩ := exists_items hheaders hraw
  have hu : UnclesOf n b uncles (uncleItems.map encode) := by
    refine ⟨?_, ?_⟩
    · rw [h.previousBlock, hparent, hheaders]
    · rw [h.previousBlock, hparent, hraw]
  refine issueBlock_runs h hu (fun _ => ?_) fun hgo => ?_
  · refine runs_resetCurrent_open.mono ?_ fun _ _ _ => trivial
    intro _ s' hs' hsealed
    rw [hs'] at hsealed
    cases hsealed
  · refine (finishBlock_spec (b := proposed n r b uncles (uncleItems.map encode)) h.opened).imp ?_
    intro _ s' hspec hsealed
    obtain ⟨ts, rs, s, b', hlen, hr, ha, hs'⟩ := hspec hsealed
    obtain ⟨txs, htxs, htxslen⟩ := exists_txItems b.transactions.items h.proper
    have hcurrentTxs : b'.currentTxs = rawList (txRlps b) := by
      have hrest := congrArg Block.currentTxs ha.rest
      exact hrest
    have hcurrentUncles : b'.currentUncles = rawList (uncleItems.map encode) := by
      have hrest := congrArg Block.currentUncles ha.rest
      exact hrest
    have hnumber : b'.currentBlock.number = b.currentBlock.number := by
      rw [ha.currentBlock, proposed_number]
    refine ⟨⟨(rewritten n b').currentBlock, txs, uncleItems, ?_, by rw [hs']; rfl, htxslen, hnumber,
      b'.receipts.map n.receiptRlp, rfl, ?_⟩, fun hnil => ?_⟩
    · rw [hs']
      refine sealed_currentBytes ?_ (hcurrentUncles.trans (rawList_encode uncleItems))
      show b'.currentTxs = _
      rw [hcurrentTxs, txRlps, htxs, rawList_encode]
    · have hreceipts : b'.receipts = b.receipts ++ rs := ha.receipts
      have hlen' : ts.length = b.transactions.items.length := hlen
      rw [List.length_map, hreceipts, List.length_append, h.receipts_length, replay_length hr, hlen']
      omega
    · by_contra homit
      refine hgo (Or.inr ⟨?_, by simpa using homit⟩)
      show b.transactions.items.length = 0
      rw [hnil]
      rfl

theorem verify_number {sha3 : Bytes → H256} {h p : BlockHeader}
    (hv : h.verify sha3 .CheckNothingNew p = .ok ()) : h.number.toNat < 2 ^ 32 := by
  by_contra hlt
  unfold BlockHeader.verify at hv
  rw [if_pos (by omega)] at hv
  cases hv

/-- What is left of a sealed block that another node has accepted. -/
theorem SealedRound.accepted (hl : ChainLaws n) (hd : DistinctRoots n) {hash : H256}
    (hp : headerOf n hash = some parent) (h : Synced n parent b) {b' : Block S}
    (hsealed : SealedRound n b b') {recover : SignatureStruct → H256 → Option Address}
    {blk : VerifiedBlock} (hrec : Received n recover b'.currentBytes blk) {timestamp w : Word}
    {b₂ b₃ : Block S} (hok : enactOn n timestamp blk b₂ = .ok w b₃) :
    b.transactions.items = [] ∧ parent.number.toNat + 1 < 2 ^ 32 := by
  obtain ⟨header, txs, uncles, hbytes, -, htxs, hnumber, receipts, hroot, hlen⟩ := hsealed.bytes
  obtain ⟨parent', b₀, s, -, hverify, hreset, -, -, henact⟩ := (enactOn_spec timestamp blk).ok hok
  obtain ⟨s', rs, houtcome, hnames, -⟩ := (enact_spec hreset blk).ok henact
  have hinfo : blk.info = written n.sha3 header := by
    have hi := hrec.info
    rw [hbytes, ofBytes_blockItem] at hi
    exact (Except.ok.inj hi).symm
  have hcount : blk.transactions.length = b.transactions.items.length := by
    have ht := hrec.transactions
    rw [hbytes, decodeStrict_encode, Option.bind_some] at ht
    have hraw : (rawItems (get? (blockItem header txs uncles) 1)).length = txs.length :=
      List.length_map encode
    rw [mapM_length ht, hraw, htxs]
  have hrs : rs.length = blk.transactions.length := by
    unfold outcome at houtcome
    cases hr : replay n (n.chain.lastHashes blk.info.parentHash) blk.info b₀.state 0
        blk.transactions with
    | error e =>
      rw [hr] at houtcome
      cases houtcome
    | ok p =>
      rw [hr] at houtcome
      obtain ⟨us, -, hpair⟩ := Option.map_eq_some_iff.mp houtcome
      obtain ⟨-, rfl⟩ := Prod.mk.inj hpair
      exact replay_length hr
  constructor
  · by_contra hne
    refine hd (rs.map n.receiptRlp) receipts ?_ ?_ ?_
    · intro hnil
      rw [List.map_eq_nil_iff.mp hnil, hcount] at hrs
      exact hne (List.length_eq_zero_iff.mp hrs.symm)
    · rw [hlen, List.length_map, hrs, hcount]
    · have hnamed := hnames.receiptsRoot
      rw [hinfo] at hnamed
      exact hnamed.symm.trans hroot
  · have hbound := verify_number hverify
    have hsmall := hl.small _ parent hp
    have hto : (parent.number + 1).toNat = parent.number.toNat + 1 := by
      rw [BitVec.toNat_add]
      show (parent.number.toNat + 1) % 2 ^ 256 = _
      rw [Nat.mod_eq_of_lt (by omega)]
    rw [hinfo, show (written n.sha3 header).number = header.number from rfl, hnumber, h.number,
      hto] at hbound
    exact hbound

/-- The round ends with a sealed block that another node accepts, and that node comes to what the
header says. -/
def RoundAccepted (n : Node S) (q : QueueOps Q) (r : Round)
    (recover : SignatureStruct → H256 → Option Address) (timestamp : Word) (other : Block S)
    (b : Block S) (queue : Q) : Prop :=
  ∃ b' queue', issueBlock n q r (b, queue) = .ok () (b', queue') ∧ b'.isSealed = true ∧
    ∃ blk w b'', Received n recover b'.currentBytes blk ∧
      enactOn n timestamp blk other = .ok w b'' ∧ Agrees n b'.currentBlock blk b''

theorem pending_not_accepted (hl : ChainLaws n) (hd : DistinctRoots n) {hash : H256}
    (hp : headerOf n hash = some parent) (h : Synced n parent b)
    {recover : SignatureStruct → H256 → Option Address} {timestamp : Word} {other : Block S}
    (ha : RoundAccepted n q r recover timestamp other b queue) :
    b.transactions.items = [] ∧ r.omitEmptyBlock = false ∧ parent.number.toNat + 1 < 2 ^ 32 := by
  obtain ⟨b', queue', hissue, hsealed, blk, w, b'', hrec, hok, -⟩ := ha
  obtain ⟨hround, homit⟩ := (issueBlock_spec hl hp h).ok hissue hsealed
  obtain ⟨hitems, hnum⟩ := hround.accepted hl hd hp h hrec hok
  exact ⟨hitems, homit hitems, hnum⟩

theorem empty_accepted (hl : ChainLaws n) (hs : StateLaws n.ops) {hash : H256}
    (hp : headerOf n hash = some parent) (hg : r.generated = true) (h : Synced n parent b)
    {recover : SignatureStruct → H256 → Option Address} {timestamp : Word} {other : Block S}
    (ho : Ready n parent other) (hitems : b.transactions.items = [])
    (homit : r.omitEmptyBlock = false) (hnum : parent.number.toNat + 1 < 2 ^ 32) :
    RoundAccepted n q r recover timestamp other b queue := by
  have hparent : b.currentBlock.parentHash = hash := h.parentHash.trans (hl.memo hp)
  obtain ⟨excluded, hchoice⟩ := sealUncles_choice hl hp
  obtain ⟨raw, uncles, hraw, hheaders⟩ := uncles_known fun u hu => (hchoice.uncles u hu).1
  have hu : UnclesOf n b uncles raw := by
    refine ⟨?_, ?_⟩
    · rw [h.previousBlock, hparent, hheaders]
    · rw [h.previousBlock, hparent, hraw]
  have hruns : Runs (issueBlock n q r) (b, queue)
      (fun _ s' => s'.1 = emptyRound n r b uncles raw) fun _ _ => False := by
    refine issueBlock_runs h hu (fun hskip => ?_) fun _ => finishBlock_empty h.opened hitems rfl
    obtain hg' | ⟨-, homit'⟩ := hskip
    · rw [hg] at hg'
      cases hg'
    · rw [homit] at homit'
      cases homit'
  cases hm : issueBlock n q r (b, queue) with
  | error e s' => exact (hruns.error hm).elim
  | ok u s' =>
    have hb' : s'.1 = emptyRound n r b uncles raw := hruns.ok hm
    refine ⟨s'.1, s'.2, hm, ?_, ?_⟩
    · obtain ⟨items, rfl, -⟩ := exists_items hu.headers hu.bytes
      unfold isSealed
      rw [hb', emptyRound_bytes hitems]
      exact decide_eq_true (encode_ne_nil _)
    · rw [hb']
      exact emptyRound_accepted hl hs hp h hitems hu hnum ho recover timestamp

/-- However the working block is filled from the queue, the round ends with a block that the other
nodes accept exactly when the block holds no transaction, empty blocks are not left out, and
the numbers of blocks are not used up. -/
theorem round_accepted_exact (hl : ChainLaws n) (hs : StateLaws n.ops) (hd : DistinctRoots n)
    (hq : ProperQueue q) {hash : H256} (hp : headerOf n hash = some parent)
    (hg : r.generated = true) (h : Synced n parent b) (queue : Q) (ask : Block S → Word)
    (rounds : ℕ) (recover : SignatureStruct → H256 → Option Address) (timestamp : Word)
    {other : Block S} (ho : Ready n parent other) :
    ∃ b' queue', syncTransactionQueue n q r ask rounds (b, queue) = .ok () (b', queue') ∧
      Synced n parent b' ∧ (RoundAccepted n q r recover timestamp other b' queue' ↔
        b'.transactions.items = [] ∧ r.omitEmptyBlock = false ∧
          parent.number.toNat + 1 < 2 ^ 32) := by
  obtain ⟨b', queue', hsync, h'⟩ := syncTransactionQueue_synced (r := r) hq h ask rounds
  refine ⟨b', queue', hsync, h', pending_not_accepted hl hd hp h', ?_⟩
  rintro ⟨hitems, homit, hnum⟩
  exact empty_accepted hl hs hp hg h' ho hitems homit hnum

/-- The first block of a chain. -/
def firstHeader : BlockHeader := { BlockHeader.empty with timestamp := 5 }

def firstData : Bytes := firstHeader.streamRLP .WithSeal

/-- A node that has the first block only. The root of a list tells lengths apart when one is twice
the other. -/
def firstNode : Node Unit where
  sha3 := fun x => if x = firstData then .ofNat 1 else .ofNat 2
  hash256 := fun l => if Nat.log2 l.length % 2 = 0 then .ofNat 3 else .ofNat 4
  receiptRlp := fun _ => [0x80]
  ops := {
    rootHash := fun _ => .ofNat 5
    hasRoot := fun _ _ => true
    setRoot := fun _ _ => ()
    execute := fun _ env _ => .ok ((), ⟨.ofNat 5, env.gasUsed + 21000, 0, []⟩)
    addBalance := fun _ _ _ => ()
    commit := fun _ _ => ()
    moveDaos := id
    rollback := id }
  chain := {
    headerData := fun h => if h = .ofNat 1 then some firstData else none
    isKnown := fun h => h = .ofNat 1
    parent := id
    children := fun _ => []
    allKinFrom := fun _ _ => []
    genesisHash := .ofNat 1
    currentHash := .ofNat 1
    lastHashes := fun _ => []
    blockReward := 0
    EIP158ForkBlock := 0
    daoHardforkBlock := 0 }
  grow := fun c => 2 * c

/-- The first header as the node reads it. -/
def firstParent : BlockHeader := BlockHeader.reread firstNode.sha3 firstHeader

theorem firstNode_sha3 (x : Bytes) :
    firstNode.sha3 x = if x = firstData then .ofNat 1 else .ofNat 2 := rfl

theorem firstNode_headerData (h : H256) :
    firstNode.chain.headerData h = if h = .ofNat 1 then some firstData else none := rfl

theorem firstNode_data : firstNode.chain.headerData (.ofNat 1) = some firstData := by
  rw [firstNode_headerData, if_pos rfl]

theorem firstNode_header : headerOf firstNode (.ofNat 1) = some firstParent :=
  headerOf_eq_some.mpr ⟨firstData, firstNode_data, BlockHeader.ofBytes_streamRLP _ _⟩

theorem firstNode_only {h : H256} {d : Bytes} (hd : firstNode.chain.headerData h = some d) :
    h = .ofNat 1 ∧ d = firstData := by
  rw [firstNode_headerData] at hd
  split_ifs at hd with hh
  exact ⟨hh, (Option.some.inj hd).symm⟩

theorem firstNode_only_header {h : H256} {bi : BlockHeader} (hbi : headerOf firstNode h = some bi) :
    h = .ofNat 1 ∧ bi = firstParent := by
  obtain ⟨d, hd, -⟩ := headerOf_eq_some.mp hbi
  obtain ⟨rfl, -⟩ := firstNode_only hd
  exact ⟨rfl, Option.some.inj (hbi.symm.trans firstNode_header)⟩

theorem firstNode_chain : ChainLaws firstNode where
  addressed := by
    intro h d hd
    obtain ⟨hh, hdata⟩ := firstNode_only hd
    rw [hh, hdata, firstNode_sha3, if_pos rfl]
  sole := by
    intro h d x hd hx
    obtain ⟨hh, hdata⟩ := firstNode_only hd
    rw [firstNode_sha3, hh] at hx
    split_ifs at hx with hx'
    · rw [hx', hdata]
    · exact absurd hx (by decide)
  wellFormed := by
    intro h d hd
    obtain ⟨rfl, -⟩ := firstNode_only hd
    exact ⟨firstParent, firstNode_header⟩
  known := by
    intro h
    rw [firstNode_headerData]
    show decide (h = .ofNat 1) = _
    split_ifs with hh
    · exact decide_eq_true hh
    · exact decide_eq_false hh
  nonzero := by rw [firstNode_headerData, if_neg (by decide)]
  genesis := fun _ _ hbi _ => (firstNode_only_header hbi).1
  parents := by
    intro h bi hbi hne
    obtain ⟨-, rfl⟩ := firstNode_only_header hbi
    exact (hne rfl).elim
  children := fun _ _ hu => absurd hu List.not_mem_nil
  small := by
    intro h bi hbi
    obtain ⟨-, rfl⟩ := firstNode_only_header hbi
    exact Nat.two_pow_pos 32
  isSet := by
    intro h bi hbi
    obtain ⟨-, rfl⟩ := firstNode_only_header hbi
    exact decide_eq_true (show (5 : Word) ≠ BitVec.allOnes 256 by decide)

theorem firstNode_states : StateLaws firstNode.ops := ⟨fun _ _ _ => rfl, fun _ _ => rfl⟩

theorem firstNode_roots : DistinctRoots firstNode := by
  intro l l' hne hlen
  have hpos : l.length ≠ 0 := fun h => hne (List.length_eq_zero_iff.mp h)
  have hlog : Nat.log2 l'.length = Nat.log2 l.length + 1 := by rw [hlen, Nat.log2_two_mul hpos]
  have hroot : ∀ k : List Bytes, orderedTrieRoot firstNode k =
      if Nat.log2 k.length % 2 = 0 then .ofNat 3 else .ofNat 4 := by
    intro k
    show (if Nat.log2 (ordered k).length % 2 = 0 then H256.ofNat 3 else .ofNat 4) = _
    rw [ordered, List.length_map, List.length_zipIdx]
  rw [hroot, hroot, hlog]
  split_ifs with h₁ h₂ h₂
  · omega
  · decide
  · decide
  · omega

/-- The block that the node works on, with the given transactions executed. -/
def working (ts : Buffer Transaction) (rs : List TransactionReceipt) : Block Unit where
  state := ()
  transactions := ts
  receipts := rs
  transactionSet := (ts.items.map (txHash firstNode)).toFinset
  precommit := ()
  previousBlock := firstParent
  currentBlock := BlockHeader.empty.populateFromParent firstParent
  currentBytes := []
  committedToSeal := false
  currentTxs := []
  currentUncles := []
  author := 0

def firstRound : Round := ⟨6, 7, 0, [], [], true, false, 1000⟩

/-- A block that another node uses to follow a received one. -/
def firstOther : Block Unit := { working Buffer.empty [] with
  previousBlock := .empty
  currentBlock := .empty }

theorem working_synced {ts : Buffer Transaction} {rs : List TransactionReceipt}
    (hproper : ∀ t ∈ ts.items, t.type ≠ .NullTransaction)
    (hr : replay firstNode (firstNode.chain.lastHashes firstNode.chain.currentHash)
      (BlockHeader.empty.populateFromParent firstParent) () 0 ts.items = .ok ((), rs)) :
    Synced firstNode firstParent (working ts rs) where
  previousBlock := rfl
  opened := rfl
  committed := rfl
  number := by dsimp only [working, BlockHeader.populateFromParent]
  parentHash := by dsimp only [working, BlockHeader.populateFromParent]
  proper := hproper
  executed := by
    have hunit : ∀ u : Unit, u = () := fun _ => rfl
    refine ⟨(), ?_⟩
    rw [hunit (irregular _ _ _)]
    dsimp only [working]
    exact hr

theorem firstOther_ready : Ready firstNode firstParent firstOther := ⟨rfl, rfl, rfl⟩

theorem noQueue_proper : ProperQueue noQueue := fun _ _ _ _ ht => absurd ht List.not_mem_nil

/-- An empty block is sealed, and another node accepts it. -/
theorem round_accepted_empty : RoundAccepted firstNode noQueue firstRound (fun _ _ => none) 8 firstOther
    (working Buffer.empty []) () := by
  have hsynced : Synced firstNode firstParent (working Buffer.empty []) :=
    working_synced (fun _ ht => absurd ht List.not_mem_nil) rfl
  obtain ⟨b', queue', hsync, -, hiff⟩ := round_accepted_exact firstNode_chain firstNode_states
    firstNode_roots noQueue_proper firstNode_header (r := firstRound) rfl hsynced () (fun _ => 0) 1
      (fun _ _ => none) 8 firstOther_ready
  obtain ⟨rfl, rfl⟩ : b' = working Buffer.empty [] ∧ queue' = () := by
    have hsame : syncTransactionQueue firstNode noQueue firstRound (fun _ => 0) 1
      (working Buffer.empty [], ()) = .ok () (working Buffer.empty [], ()) := rfl
    rw [hsame] at hsync
    cases hsync
    exact ⟨rfl, rfl⟩
  exact hiff.mpr ⟨rfl, rfl, by decide⟩

/-- A block with one transaction does not come through. -/
theorem payment_not_accepted :
    ¬ RoundAccepted firstNode noQueue firstRound (fun _ _ => none) 8 firstOther
      (working (Buffer.empty.push (fun c => 2 * c) .payment) [⟨.ofNat 5, 21000, 0, []⟩]) () := by
  intro ha
  have hproper : ∀ t ∈ (Buffer.empty.push (fun c => 2 * c) Transaction.payment).items,
      t.type ≠ .NullTransaction := by
    intro t ht
    obtain rfl := List.mem_singleton.mp ht
    decide
  have hnil := (pending_not_accepted firstNode_chain firstNode_roots firstNode_header
    (working_synced hproper rfl) ha).1
  cases hnil

end Pending

end PBFTClient
end XChain
