import XChain.BlockSealing
import Mathlib.Logic.Relation

/-!
# Copies of blocks

Blocks are copied and assigned to each other, execute transactions, and are committed for
sealing and taken back. As long as no copy is taken of a block that is committed, every
block seals with the header and the state that a fresh block with its transactions seals
with. A copy of a committed block takes the state after the rewards for the state before
them, and gives the rewards once more.
-/
namespace XChain

namespace Buffer

variable {α : Type} (b : Buffer α)

/-- A copy has just the room that it needs. -/
def copy : Buffer α := ⟨b.items, b.items.length, 0, le_refl _⟩

/-- Takes over the items of another array, in its own place if they fit. -/
def assign (s : Buffer α) : Buffer α :=
  if h : s.items.length ≤ b.capacity then ⟨s.items, b.capacity, b.moves, h⟩
  else ⟨s.items, s.items.length, b.moves + 1, le_refl _⟩

@[simp] theorem assign_items (s : Buffer α) : (b.assign s).items = s.items := by
  unfold assign
  split <;> rfl

end Buffer

namespace Block

open Machine

variable {S : Type}

/-- The copy constructor. -/
def copy (s : Block S) : Block S where
  state := s.state
  transactions := s.transactions.copy
  receipts := s.receipts
  transactionSet := s.transactionSet
  precommit := s.state
  previousBlock := s.previousBlock
  currentBlock := s.currentBlock
  currentBytes := s.currentBytes
  committedToSeal := false
  currentTxs := []
  currentUncles := []
  author := s.author

/-- The assignment of another block. -/
def assign (b s : Block S) : Block S :=
  { b with
    state := s.state
    transactions := b.transactions.assign s.transactions
    receipts := s.receipts
    transactionSet := s.transactionSet
    previousBlock := s.previousBlock
    currentBlock := s.currentBlock
    currentBytes := s.currentBytes
    author := s.author
    precommit := s.state
    committedToSeal := false }

section Worlds

variable {ι : Type} [DecidableEq ι] (n : Node S)

/-- The blocks that there are, by their places. -/
abbrev Blocks (ι S : Type) := ι → Option (Block S)

/-- What is done with blocks. -/
inductive Event (ι : Type) where
  | copy (source target : ι)
  | assign (source target : ι)
  | execute (i : ι) (lastHashes : List H256) (index : ℕ) (t : Transaction)
  | commitToSeal (i : ι) (extraData : Bytes)
  | uncommitToSeal (i : ι)

/-- The block that an operation leaves, also when it throws. -/
def left {α : Type} : EStateM.Result BlockError (Block S) α → Block S
  | .ok _ b => b
  | .error _ b => b

/-- Works on the block at a place, if there is one. -/
def onPlace (w : Blocks ι S) (i : ι) {α : Type} (m : Exec S α) : Blocks ι S :=
  match w i with
  | some b => Function.update w i (some (left (m b)))
  | none => w

/-- A copy is made at a place where there is no block yet; a block that is assigned to itself
stays what it is. -/
def step (w : Blocks ι S) : Event ι → Blocks ι S
  | .copy i j =>
    match w i with
    | some s => if (w j).isNone then Function.update w j (some s.copy) else w
    | none => w
  | .assign i j =>
    match w i with
    | some s => if i = j then w else onPlace w j (modify fun b => b.assign s)
    | none => w
  | .execute i lastHashes index t => onPlace w i (execute n lastHashes index t)
  | .commitToSeal i extraData => onPlace w i (commitToSeal n extraData)
  | .uncommitToSeal i => onPlace w i uncommitToSeal

/-- No other block is given what a committed block holds. -/
def Careful (w : Blocks ι S) : Event ι → Prop
  | .copy i _ => ∀ s, w i = some s → s.committedToSeal = false
  | .assign i j => i ≠ j → ∀ s, w i = some s → s.committedToSeal = false
  | _ => True

/-- Leads from blocks to blocks, by any events. -/
def Leads (w w' : Blocks ι S) : Prop := Relation.ReflTransGen (fun v v' => ∃ x, v' = step n v x) w w'

/-- Leads from blocks to blocks, by events that are careful. -/
def LeadsCarefully (w w' : Blocks ι S) : Prop :=
  Relation.ReflTransGen (fun v v' => ∃ x, Careful v x ∧ v' = step n v x) w w'

end Worlds

section Tracking

variable {n : Node S}

/-- What an execution reads of the header is its number, its author, its timestamp, its
difficulty and its gas limit. -/
def ReadsEnv (n : Node S) : Prop := ∀ s h h' lh gas t, h.number = h'.number →
  h.author = h'.author → h.timestamp = h'.timestamp → h.difficulty = h'.difficulty →
  h.gasLimit = h'.gasLimit → n.ops.execute s ⟨h, lh, gas⟩ t = n.ops.execute s ⟨h', lh, gas⟩ t

/-- A header without what a commit for sealing writes into it. -/
def unwritten (h : BlockHeader) : BlockHeader :=
  { h with
    parentHash := .zero
    sha3Uncles := .zero
    stateRoot := .zero
    transactionsRoot := .zero
    receiptsRoot := .zero
    logBloom := 0
    gasUsed := 0
    extraData := []
    memo := .zero
    memoWithout := .zero }

/-- What is written over a header does not depend on what was written before. -/
theorem write_congr {h h' : BlockHeader} (heq : unwritten h = unwritten h') (bloom : LogBloom)
    (gas : Word) (txs receipts uncles root parent : H256) (extraData : Bytes) :
    ((((h.setLogBloom bloom).setGasUsed gas).setRoots txs receipts uncles root).setParentHash
      parent).setExtraData extraData =
    ((((h'.setLogBloom bloom).setGasUsed gas).setRoots txs receipts uncles root).setParentHash
      parent).setExtraData extraData := by
  cases h
  cases h'
  simp only [unwritten, BlockHeader.mk.injEq] at heq
  simp [BlockHeader.setLogBloom, BlockHeader.setGasUsed, BlockHeader.setRoots,
    BlockHeader.setParentHash, BlockHeader.setExtraData, BlockHeader.noteDirty, heq]

/-- `info`, without the block. -/
def infoOf (n : Node S) (h : H256) : Except BlockError BlockHeader :=
  match n.chain.headerData h with
  | none => .error .BlockNotFound
  | some data => (BlockHeader.ofBytes n.sha3 data .HeaderData .zero).mapError .header

def rawHeaderOf (n : Node S) (h : H256) : Except BlockError Bytes :=
  match n.chain.headerData h with
  | none => .error .BlockNotFound
  | some data => .ok data

/-- The uncles for the commit of a block, or the reason why there is none. -/
def gather (n : Node S) (b : Block S) : Except BlockError (List BlockHeader × List Bytes) := do
  let headers ← (sealUncles n b.previousBlock b.currentBlock.parentHash).mapM (infoOf n)
  let raw ← (sealUncles n b.previousBlock b.currentBlock.parentHash).mapM (rawHeaderOf n)
  if b.transactions.items.length ≤ b.receipts.length then pure (headers, raw)
  else throw .outOfRange

/-- A program that reads something and leaves the block as it is. -/
def Gives {α : Type} (m : Exec S α) (x : Except BlockError α) : Prop :=
  ∀ b, m b = match x with
    | .ok a => .ok a b
    | .error e => .error e b

theorem info_gives (h : H256) : Gives (info n h) (infoOf n h) := by
  intro b
  unfold info infoOf
  cases n.chain.headerData h with
  | none => rfl
  | some data =>
    dsimp only
    cases BlockHeader.ofBytes n.sha3 data .HeaderData .zero <;> rfl

theorem rawHeader_gives (h : H256) : Gives (rawHeader n h) (rawHeaderOf n h) := by
  intro b
  unfold rawHeader rawHeaderOf
  cases n.chain.headerData h <;> rfl

theorem Gives.mapM {α β : Type} {f : α → Exec S β} {g : α → Except BlockError β}
    (hf : ∀ a, Gives (f a) (g a)) (l : List α) : Gives (l.mapM f) (l.mapM g) := by
  induction l with
  | nil =>
    intro b
    rfl
  | cons a l ih =>
    intro b
    rw [List.mapM_cons, List.mapM_cons]
    cases ha : g a with
    | error e =>
      have hfa : f a b = .error e b := by rw [hf a b, ha]
      rw [bind_error hfa]
      rfl
    | ok c =>
      have hfa : f a b = .ok c b := by rw [hf a b, ha]
      rw [bind_ok hfa]
      cases hl : l.mapM g with
      | error e =>
        have hfl : l.mapM f b = .error e b := by rw [ih b, hl]
        rw [bind_error hfl]
        rfl
      | ok cs =>
        have hfl : l.mapM f b = .ok cs b := by rw [ih b, hl]
        rw [bind_ok hfl]
        rfl

/-- A block before its rewards, with its state remembered. -/
def saved (b : Block S) : Block S := { b.uncommitted with precommit := b.live }

theorem Gives.runs {α : Type} {m : Exec S α} {x : Except BlockError α} (h : Gives m x)
    {b : Block S} {Q : α → Block S → Prop} {E : BlockError → Block S → Prop}
    (hQ : ∀ a, x = .ok a → Q a b) (hE : ∀ e, x = .error e → E e b) : Runs m b Q E := by
  have hm := h b
  cases x with
  | ok a => exact runs_of_ok hm (hQ a rfl)
  | error e => exact runs_of_error hm (hE e rfl)

theorem uncommitOrSave_eq (b : Block S) :
    (if b.committedToSeal then uncommitToSeal else
      modify fun b => { b with precommit := b.state } : Exec S PUnit) b = .ok ⟨⟩ b.saved := by
  unfold saved uncommitted live
  by_cases hc : b.committedToSeal = true
  · rw [if_pos hc, if_pos hc]
    show EStateM.Result.ok _ (if b.committedToSeal then _ else b) = _
    rw [if_pos hc]
  · rw [if_neg hc, if_neg hc]
    have hf : b.committedToSeal = false := by simpa using hc
    show EStateM.Result.ok _ _ = _
    rw [← hf]

/-- A commit for sealing gathers the uncles and writes the header, or gives up before it has
changed more than the state. -/
theorem commitToSeal_gathers {b : Block S} (hopen : b.isSealed = false) (extraData : Bytes) :
    Runs (commitToSeal n extraData) b
      (fun _ b' => ∃ headers raw, gather n b = .ok (headers, raw) ∧
        b' = committed n b.saved headers raw extraData)
      fun e b' => gather n b = .error e ∧ b' = b.saved := by
  unfold commitToSeal
  refine runs_bind (runs_get (runs_bind (runs_ite (fun h => ?_) fun _ => runs_pure (runs_bind
    (runs_of_ok (uncommitOrSave_eq b) (runs_bind ?_))))))
  · rw [hopen] at h
    cases h
  refine (Gives.mapM info_gives (sealUncles n b.previousBlock b.currentBlock.parentHash)).runs
    (fun headers hx => runs_bind ?_) fun e hx => ⟨?_, rfl⟩
  · refine (Gives.mapM rawHeader_gives
      (sealUncles n b.previousBlock b.currentBlock.parentHash)).runs
      (fun raw hy => runs_bind (runs_get (runs_bind ?_))) fun e hy => ⟨?_, rfl⟩
    · have hgather : gather n b = if b.transactions.items.length ≤ b.receipts.length then
          pure (headers, raw) else throw .outOfRange := by
        unfold gather
        rw [hx, hy]
        rfl
      unfold receiptsOf
      refine runs_ite (fun hlen => runs_pure ?_) fun hlen => runs_throw ⟨?_, rfl⟩
      · rw [if_pos (show b.transactions.items.length ≤ b.receipts.length from hlen)] at hgather
        exact runs_bind (runs_modify (runs_bind (runs_modify (runs_bind (runs_modify
          (runs_modify ⟨headers, raw, hgather, rfl⟩))))))
      · rw [if_neg (show ¬ b.transactions.items.length ≤ b.receipts.length from hlen)] at hgather
        exact hgather
    · unfold gather
      rw [hx, hy]
      rfl
  · unfold gather
    rw [hx]
    rfl

/-- A block that was opened on its parent and has not been committed. The header names the
hash of the parent, where that is not the first block. -/
structure Opened (n : Node S) (f : Block S) : Prop where
  opened : f.isSealed = false
  committed : f.committedToSeal = false
  parentHash : f.previousBlock.number ≠ 0 →
    f.currentBlock.parentHash = (f.previousBlock.hash n.sha3 .WithSeal).1

/-- A block that seals as another one does. -/
structure Tracks (f b : Block S) : Prop where
  items : b.transactions.items = f.transactions.items
  receipts : b.receipts = f.receipts
  currentBytes : b.currentBytes = f.currentBytes
  previousBlock : b.previousBlock = f.previousBlock
  header : unwritten b.currentBlock = unwritten f.currentBlock
  parentHash : f.previousBlock.number ≠ 0 → b.currentBlock.parentHash = f.currentBlock.parentHash
  live : b.live = f.live

namespace Tracks

variable {f b : Block S}

theorem refl : Tracks b b := ⟨rfl, rfl, rfl, rfl, rfl, fun _ => rfl, rfl⟩

/-- Nothing but the state, what is remembered of it, and the rest that is not compared. -/
theorem of_eq (h : Tracks f b) {b' : Block S} (hitems : b'.transactions.items = b.transactions.items)
    (hreceipts : b'.receipts = b.receipts) (hbytes : b'.currentBytes = b.currentBytes)
    (hprevious : b'.previousBlock = b.previousBlock) (hcurrent : b'.currentBlock = b.currentBlock)
    (hlive : b'.live = b.live) : Tracks f b' :=
  ⟨hitems.trans h.items, hreceipts.trans h.receipts, hbytes.trans h.currentBytes,
    hprevious.trans h.previousBlock, hcurrent ▸ h.header, hcurrent ▸ h.parentHash,
    hlive.trans h.live⟩

theorem isSealed (h : Tracks f b) : b.isSealed = f.isSealed := by
  unfold Block.isSealed
  rw [h.currentBytes]

theorem number (h : Tracks f b) : b.currentBlock.number = f.currentBlock.number := by
  show (unwritten b.currentBlock).number = (unwritten f.currentBlock).number
  rw [h.header]

theorem author (h : Tracks f b) : b.currentBlock.author = f.currentBlock.author := by
  show (unwritten b.currentBlock).author = (unwritten f.currentBlock).author
  rw [h.header]

theorem timestamp (h : Tracks f b) : b.currentBlock.timestamp = f.currentBlock.timestamp := by
  show (unwritten b.currentBlock).timestamp = (unwritten f.currentBlock).timestamp
  rw [h.header]

theorem gasUsed (h : Tracks f b) : b.gasUsed = f.gasUsed := by
  unfold Block.gasUsed
  rw [h.receipts]

theorem uncommitted (h : Tracks f b) : Tracks f b.uncommitted := h.of_eq rfl rfl rfl rfl rfl rfl

theorem saved (h : Tracks f b) : Tracks f b.saved := h.of_eq rfl rfl rfl rfl rfl rfl

theorem gather_eq (h : Tracks f b) : gather n b = gather n f := by
  have huncles : sealUncles n b.previousBlock b.currentBlock.parentHash =
      sealUncles n f.previousBlock f.currentBlock.parentHash := by
    rw [h.previousBlock]
    unfold sealUncles
    split_ifs with hne
    · rw [h.parentHash hne]
    · rfl
  unfold gather
  rw [huncles, h.items, h.receipts]

/-- The state after the rewards. -/
theorem settled_eq (h : Tracks f b) (uncles : List BlockHeader) :
    settled n b.saved uncles = settled n f.saved uncles := by
  show n.ops.commit (rewarded n b.currentBlock uncles b.live)
    (decide (n.chain.EIP158ForkBlock ≤ b.currentBlock.number)) = n.ops.commit
      (rewarded n f.currentBlock uncles f.live)
        (decide (n.chain.EIP158ForkBlock ≤ f.currentBlock.number))
  unfold rewarded
  rw [h.live, h.number, h.author]

/-- The header that is written. -/
theorem committed_header (h : Tracks f b) (uncles : List BlockHeader) (raw : List Bytes)
    (extraData : Bytes) : (committed n b.saved uncles raw extraData).currentBlock =
      (committed n f.saved uncles raw extraData).currentBlock := by
  have hwrite := @write_congr b.currentBlock f.currentBlock h.header
  have hbloom : b.saved.logBloom = f.saved.logBloom := by
    show LogBloom.join (b.receipts.map TransactionReceipt.bloom) = _
    rw [h.receipts]
    rfl
  have hgas : b.saved.gasUsed = f.saved.gasUsed := h.gasUsed
  have htxs : txRlps b.saved = txRlps f.saved :=
    congrArg (List.map fun t : Transaction => t.rlp true false) h.items
  have hreceipts : b.saved.receipts.take b.saved.transactions.items.length =
      f.saved.receipts.take f.saved.transactions.items.length := by
    show b.receipts.take b.transactions.items.length = f.receipts.take f.transactions.items.length
    rw [h.receipts, h.items]
  have hparent : b.saved.previousBlock = f.saved.previousBlock := h.previousBlock
  unfold committed
  rw [hbloom, hgas, htxs, hreceipts, hparent, h.settled_eq]
  exact hwrite _ _ _ _ _ _ _ _

/-- A block that was committed still tracks the one that it tracked. -/
theorem committed (h : Tracks f b) (ho : Opened n f) (uncles : List BlockHeader)
    (raw : List Bytes) (extraData : Bytes) :
    Tracks f (committed n b.saved uncles raw extraData) where
  items := h.items
  receipts := h.receipts
  currentBytes := h.currentBytes
  previousBlock := h.previousBlock
  header := h.header
  parentHash := fun hne => by
    rw [ho.parentHash hne, ← h.previousBlock]
    rfl
  live := h.live

end Tracks

/-- Two commits for sealing end in the same way: with the same header and the same state. -/
def SameSeal : EStateM.Result BlockError (Block S) Unit → EStateM.Result BlockError (Block S) Unit →
    Prop
  | .ok _ b, .ok _ f => b.currentBlock = f.currentBlock ∧ b.state = f.state
  | .error e _, .error e' _ => e = e'
  | _, _ => False

theorem Tracks.sameSeal {f b : Block S} (h : Tracks f b) (ho : Opened n f) (extraData : Bytes) :
    SameSeal (commitToSeal n extraData b) (commitToSeal n extraData f) := by
  have hb := commitToSeal_gathers (n := n) (h.isSealed.trans ho.opened) extraData
  have hf := commitToSeal_gathers (n := n) ho.opened extraData
  rw [h.gather_eq] at hb
  cases hrb : commitToSeal n extraData b with
  | ok u b' =>
    obtain ⟨headers, raw, hg, rfl⟩ := hb.ok hrb
    cases hrf : commitToSeal n extraData f with
    | ok u' f' =>
      obtain ⟨headers', raw', hg', rfl⟩ := hf.ok hrf
      obtain ⟨rfl, rfl⟩ := Prod.mk.inj (Except.ok.inj (hg.symm.trans hg'))
      exact ⟨h.committed_header headers raw extraData, h.settled_eq headers⟩
    | error e f' => exact absurd (hg.symm.trans (hf.error hrf).1) (by simp)
  | error e b' =>
    cases hrf : commitToSeal n extraData f with
    | ok u' f' =>
      obtain ⟨headers', raw', hg', -⟩ := hf.ok hrf
      exact absurd (hg'.symm.trans (hb.error hrb).1) (by simp)
    | error e' f' => exact Except.error.inj ((hb.error hrb).1.symm.trans (hf.error hrf).1)

end Tracking

section Histories

variable {n : Node S}

/-- `f` is `o` after transactions were executed on it, each with its last hashes. -/
inductive Executed (n : Node S) (o : Block S) : List (List H256 × Transaction) → Block S → Prop where
  | none : Executed n o [] o
  | one {l : List (List H256 × Transaction)} {f f' : Block S} {lh : List H256} {i : ℕ}
    {t : Transaction} (h : Executed n o l f) (hrun : execute n lh i t f = .ok () f') :
    Executed n o (l ++ [(lh, t)]) f'

/-- A block that was reset on its parent. The header of a parent that is not the first block
carries its hash, as every header that was read from bytes does. -/
structure Fresh (n : Node S) (o : Block S) : Prop where
  reset : ∃ b timestamp, resetCurrent n timestamp b = .ok () o
  parent : o.previousBlock.number ≠ 0 →
    o.previousBlock.memo = (o.previousBlock.hash n.sha3 .WithSeal).1

theorem Fresh.child {o : Block S} (h : Fresh n o) : ∃ b, Child n b o := by
  obtain ⟨b, timestamp, hreset⟩ := h.reset
  have hchild : Runs (resetCurrent n timestamp) b (fun _ b' => Child n b b') fun _ _ => True :=
    runs_resetCurrent fun _ hc => hc
  exact ⟨b, hchild.ok hreset⟩

theorem Fresh.opened {o : Block S} (h : Fresh n o) : Opened n o := by
  obtain ⟨b, hchild⟩ := h.child
  refine ⟨hchild.opened, hchild.reset.committed, fun hne => ?_⟩
  rw [hchild.parentHash, ← hchild.previousBlock]
  exact h.parent hne

theorem Executed.opened {o f : Block S} {l : List (List H256 × Transaction)}
    (h : Executed n o l f) (ho : Opened n o) : Opened n f := by
  induction h with
  | none => exact ho
  | @one l f f' lh i t h hrun ih =>
    obtain ⟨-, s, r, -, rfl⟩ := (execute_spec i t).ok hrun
    exact ⟨ih.opened, rfl, ih.parentHash⟩

theorem Executed.items {o f : Block S} {l : List (List H256 × Transaction)}
    (h : Executed n o l f) (ho : o.transactions.items = []) :
    f.transactions.items = l.map Prod.snd := by
  induction h with
  | none => exact ho
  | @one l f f' lh i t h hrun ih =>
    obtain ⟨-, s, r, -, rfl⟩ := (execute_spec i t).ok hrun
    show (f.transactions.push n.grow t).items = _
    rw [Buffer.push_items, ih, List.map_append]
    rfl

/-- An execution does the same on both blocks. -/
theorem Tracks.execute {f b b' : Block S} {lh : List H256} {i : ℕ} {t : Transaction}
    (h : Tracks f b) (hreads : ReadsEnv n) (ho : Opened n f)
    (hrun : execute n lh i t b = .ok () b') :
    ∃ f', Block.execute n lh i t f = .ok () f' ∧ Tracks f' b' := by
  obtain ⟨-, s, r, hx, rfl⟩ := (execute_spec i t).ok hrun
  have hheader := h.header
  have henv : n.ops.execute f.live ⟨f.currentBlock, lh, f.gasUsed⟩ t = .ok (s, r) := by
    rw [← h.live, ← h.gasUsed, ← hx]
    refine hreads _ _ _ _ _ _ h.number.symm h.author.symm h.timestamp.symm ?_ ?_
    · exact (congrArg BlockHeader.difficulty hheader).symm
    · exact (congrArg BlockHeader.gasLimit hheader).symm
  have hf : Runs (Block.execute n lh i t) f _ _ := execute_spec i t
  cases hr : Block.execute n lh i t f with
  | ok u f' =>
    obtain ⟨-, s', r', hx', rfl⟩ := hf.ok hr
    obtain ⟨rfl, rfl⟩ := Prod.mk.inj (Except.ok.inj (henv.symm.trans hx'))
    refine ⟨_, rfl, ?_, ?_, h.currentBytes, h.previousBlock, h.header, h.parentHash, rfl⟩
    · show (b.transactions.push n.grow t).items = (f.transactions.push n.grow t).items
      rw [Buffer.push_items, Buffer.push_items, h.items]
    · show b.receipts ++ [r] = f.receipts ++ [r]
      rw [h.receipts]
  | error e f' =>
    rcases hf.error hr with ⟨hs, -⟩ | ⟨-, err, hx', -⟩
    · rw [ho.opened] at hs
      cases hs
    · exact absurd (henv.symm.trans hx') (by simp)

/-- A block seals as `f` does, on the same parent and with the same timestamp. The rewards are
given once, on the state after the transactions, and are taken back to that state. -/
structure SealsAs (n : Node S) (f b : Block S) : Prop where
  parent : b.previousBlock = f.previousBlock
  timestamp : b.currentBlock.timestamp = f.currentBlock.timestamp
  seals : ∀ extraData, SameSeal (commitToSeal n extraData b) (commitToSeal n extraData f)
  rewards : ∀ extraData b', commitToSeal n extraData b = .ok () b' → ∃ uncles raw,
    gather n f = .ok (uncles, raw) ∧ b'.state = n.ops.commit
      (rewarded n f.currentBlock uncles f.state) (removeEmptyAccounts n f)
  uncommits : ∀ extraData b' b'', commitToSeal n extraData b = .ok () b' →
    uncommitToSeal b' = .ok () b'' → b''.state = f.state
  live : ∀ b', uncommitToSeal b = .ok () b' → b'.state = f.state

theorem uncommitToSeal_eq (b : Block S) : uncommitToSeal b = .ok () b.uncommitted := by
  have hruns : Runs uncommitToSeal b (fun _ b' => b' = b.uncommitted) fun _ _ => False :=
    runs_uncommitToSeal rfl
  obtain ⟨_, b', hrun, rfl⟩ := hruns.exists_ok
  exact hrun

theorem Tracks.sealsAs {f b : Block S} (h : Tracks f b) (ho : Opened n f) : SealsAs n f b := by
  have hlive : f.live = f.state := by
    unfold Block.live
    rw [ho.committed]
    rfl
  have hseals := commitToSeal_gathers (n := n) (h.isSealed.trans ho.opened)
  refine ⟨h.previousBlock, ?_, h.sameSeal ho, ?_, ?_, ?_⟩
  · exact h.timestamp
  · intro extraData b' hrun
    obtain ⟨uncles, raw, hg, rfl⟩ := (hseals extraData).ok hrun
    refine ⟨uncles, raw, h.gather_eq.symm.trans hg, (h.settled_eq uncles).trans ?_⟩
    rw [← hlive]
    rfl
  · intro extraData b' b'' hrun hback
    obtain ⟨uncles, raw, -, rfl⟩ := (hseals extraData).ok hrun
    rw [uncommitToSeal_eq] at hback
    obtain ⟨-, rfl⟩ := EStateM.Result.ok.inj hback
    exact h.live.trans hlive
  · intro b' hback
    rw [uncommitToSeal_eq] at hback
    obtain ⟨-, rfl⟩ := EStateM.Result.ok.inj hback
    exact h.live.trans hlive

/-- What is known of a block: it tracks a fresh one with its transactions. -/
def Kept {ι : Type} (n : Node S) (w₀ : Blocks ι S) (b : Block S) : Prop :=
  ∃ j o l f, w₀ j = some o ∧ Executed n o l f ∧ Opened n f ∧ Tracks f b

section Steps

variable {ι : Type} {w₀ : Blocks ι S} {b : Block S}

theorem Kept.of_tracks {b' : Block S} (h : Kept n w₀ b) (htracks : ∀ f, Tracks f b → Tracks f b') :
    Kept n w₀ b' := by
  obtain ⟨j, o, l, f, hj, hexec, ho, ht⟩ := h
  exact ⟨j, o, l, f, hj, hexec, ho, htracks f ht⟩

theorem live_of_open {b : Block S} (hc : b.committedToSeal = false) : b.live = b.state := by
  unfold Block.live
  rw [hc]
  rfl

theorem Kept.copy (h : Kept n w₀ b) (hc : b.committedToSeal = false) : Kept n w₀ b.copy :=
  h.of_tracks fun _ ht => ht.of_eq rfl rfl rfl rfl rfl (live_of_open hc).symm

theorem Kept.assign (h : Kept n w₀ b) (hc : b.committedToSeal = false) (b' : Block S) :
    Kept n w₀ (b'.assign b) :=
  h.of_tracks fun _ ht => ht.of_eq (Buffer.assign_items _ _) rfl rfl rfl rfl (live_of_open hc).symm

theorem Kept.uncommitToSeal (h : Kept n w₀ b) : Kept n w₀ (left (uncommitToSeal b)) := by
  rw [uncommitToSeal_eq]
  exact h.of_tracks fun _ ht => ht.uncommitted

theorem Kept.commitToSeal (h : Kept n w₀ b) (extraData : Bytes) :
    Kept n w₀ (left (commitToSeal n extraData b)) := by
  obtain ⟨j, o, l, f, hj, hexec, ho, ht⟩ := h
  have hseals := commitToSeal_gathers (n := n) (ht.isSealed.trans ho.opened) extraData
  refine ⟨j, o, l, f, hj, hexec, ho, ?_⟩
  cases hr : Block.commitToSeal n extraData b with
  | ok u b' =>
    obtain ⟨uncles, raw, -, rfl⟩ := hseals.ok hr
    exact ht.committed ho uncles raw extraData
  | error e b' =>
    obtain ⟨-, rfl⟩ := hseals.error hr
    exact ht.saved

theorem Kept.execute (h : Kept n w₀ b) (hreads : ReadsEnv n) (lh : List H256) (i : ℕ)
    (t : Transaction) : Kept n w₀ (left (execute n lh i t b)) := by
  obtain ⟨j, o, l, f, hj, hexec, ho, ht⟩ := h
  cases hr : Block.execute n lh i t b with
  | ok u b' =>
    obtain ⟨f', hrun, ht'⟩ := ht.execute hreads ho hr
    have hexec' := hexec.one hrun
    obtain ⟨-, s, r, -, rfl⟩ := (execute_spec i t).ok hrun
    exact ⟨j, o, _, _, hj, hexec', ⟨ho.opened, rfl, ho.parentHash⟩, ht'⟩
  | error e b' =>
    refine ⟨j, o, l, f, hj, hexec, ho, ?_⟩
    rcases (execute_spec i t).error hr with ⟨-, -, rfl⟩ | ⟨-, err, -, -, rfl⟩
    · exact ht
    · exact ht.uncommitted

variable [DecidableEq ι]

theorem kept_update {w : Blocks ι S} (h : ∀ i b, w i = some b → Kept n w₀ b) (j : ι)
    (hb : Kept n w₀ b) : ∀ i b', Function.update w j (some b) i = some b' → Kept n w₀ b' := by
  intro i b' hi
  by_cases hij : i = j
  · subst hij
    rw [Function.update_self] at hi
    obtain rfl := Option.some.inj hi
    exact hb
  · rw [Function.update_of_ne hij] at hi
    exact h i b' hi

theorem kept_onPlace {w : Blocks ι S} (h : ∀ i b, w i = some b → Kept n w₀ b) (j : ι) {α : Type}
    {m : Exec S α} (hm : ∀ b, Kept n w₀ b → Kept n w₀ (left (m b))) :
    ∀ i b, onPlace w j m i = some b → Kept n w₀ b := by
  unfold onPlace
  cases hj : w j with
  | none => exact h
  | some b => exact kept_update h j (hm b (h j b hj))

/-- One careful event. -/
theorem kept_step (hreads : ReadsEnv n) {w : Blocks ι S} (h : ∀ i b, w i = some b → Kept n w₀ b)
    {x : Event ι} (hx : Careful w x) : ∀ i b, step n w x i = some b → Kept n w₀ b := by
  cases x with
  | copy i j =>
    simp only [step]
    cases hi : w i with
    | none => exact h
    | some s =>
      dsimp only
      split_ifs with hj
      · exact kept_update h j ((h i s hi).copy (hx s hi))
      · exact h
  | assign i j =>
    simp only [step]
    cases hi : w i with
    | none => exact h
    | some s =>
      dsimp only
      split_ifs with hij
      · exact h
      · exact kept_onPlace h j fun b _ => (h i s hi).assign (hx hij s hi) b
  | execute i lh index t => exact kept_onPlace h i fun b hb => hb.execute hreads lh index t
  | commitToSeal i extraData => exact kept_onPlace h i fun b hb => hb.commitToSeal extraData
  | uncommitToSeal i => exact kept_onPlace h i fun b hb => hb.uncommitToSeal

/-- All careful events. -/
theorem kept_leads (hreads : ReadsEnv n) (hfresh : ∀ i o, w₀ i = some o → Fresh n o)
    {w : Blocks ι S} (hrun : LeadsCarefully n w₀ w) : ∀ i b, w i = some b → Kept n w₀ b := by
  induction hrun with
  | refl => exact fun i o hi => ⟨i, o, [], o, hi, .none, (hfresh i o hi).opened, Tracks.refl⟩
  | tail hrun hstep ih =>
    obtain ⟨x, hx, rfl⟩ := hstep
    exact kept_step hreads ih hx

/-- A block that seals as a fresh one with its transactions does. -/
def Faithful (n : Node S) (w₀ : Blocks ι S) (b : Block S) : Prop :=
  ∃ j o l f, w₀ j = some o ∧ Executed n o l f ∧ b.transactions.items = l.map Prod.snd ∧
    SealsAs n f b

/-- After careful events, every block seals as a fresh one with its transactions does. -/
theorem faithful_of_leadsCarefully (n : Node S) (w₀ w : Blocks ι S) (hreads : ReadsEnv n)
    (hfresh : ∀ i o, w₀ i = some o → Fresh n o) (hrun : LeadsCarefully n w₀ w) :
    ∀ i b, w i = some b → Faithful n w₀ b := by
  intro i b hb
  obtain ⟨j, o, l, f, hj, hexec, ho, ht⟩ := kept_leads hreads hfresh hrun i b hb
  obtain ⟨b₀, hchild⟩ := (hfresh j o hj).child
  have hempty : o.transactions.items = [] := by
    rw [hchild.pending]
    rfl
  exact ⟨j, o, l, f, hj, hexec, ht.items.trans (hexec.items hempty), ht.sealsAs ho⟩

end Steps

end Histories

section Rewards

/-- A node whose state is the balance of the author, with a reward of five. -/
def payingNode : Node Word where
  sha3 := fun _ => .zero
  hash256 := fun _ => .zero
  receiptRlp := fun _ => [0x80]
  ops := {
    rootHash := fun s => .ofNat s.toNat
    hasRoot := fun _ _ => true
    setRoot := fun _ _ => 0
    execute := fun s env _ => .ok (s, ⟨.zero, env.gasUsed + 21000, 0, []⟩)
    addBalance := fun s _ v => s + v
    commit := fun s _ => s
    moveDaos := id
    rollback := id }
  chain := { countingNode.chain with blockReward := 5 }
  grow := fun c => 2 * c

theorem payingNode_readsEnv : ReadsEnv payingNode := fun _ _ _ _ _ _ _ _ _ _ _ => rfl

/-- A block on the first block. -/
def onFirst : Block Word where
  state := 0
  transactions := .empty
  receipts := []
  transactionSet := ∅
  precommit := 0
  previousBlock := .empty
  currentBlock := .empty
  currentBytes := []
  committedToSeal := false
  currentTxs := []
  currentUncles := []
  author := 0

def freshBlock : Block Word := left (resetCurrent payingNode 1 onFirst)

theorem freshBlock_fresh : Fresh payingNode freshBlock :=
  ⟨⟨onFirst, 1, rfl⟩, fun hne => absurd rfl hne⟩

/-- One block, in a world with room for two. -/
def oneBlock : Blocks Bool Word := fun i => if i then none else some freshBlock

theorem oneBlock_fresh : ∀ i o, oneBlock i = some o → Fresh payingNode o := by
  intro i o hi
  cases i with
  | true => cases hi
  | false =>
    obtain rfl := Option.some.inj hi
    exact freshBlock_fresh

theorem faithful_of_leadsCarefully_commit :
    Faithful payingNode oneBlock (left (commitToSeal payingNode [] freshBlock)) :=
  faithful_of_leadsCarefully payingNode oneBlock (step payingNode oneBlock (.commitToSeal false []))
    payingNode_readsEnv oneBlock_fresh (.single ⟨.commitToSeal false [], trivial, rfl⟩) false _ rfl

/-- The copy of a block that is committed for sealing. -/
def copiedBlock : Block Word := (left (commitToSeal payingNode [] freshBlock)).copy

theorem commit_copiedBlock : ∃ b, commitToSeal payingNode [] copiedBlock = .ok () b ∧ b.state = 10 :=
  ⟨_, rfl, by decide⟩

theorem commit_freshBlock : ∃ b, commitToSeal payingNode [] freshBlock = .ok () b ∧ b.state = 5 :=
  ⟨_, rfl, by decide⟩

/-- A copy of a committed block gives the reward a second time. -/
theorem copiedBlock_not_faithful : ∃ w, Leads payingNode oneBlock w ∧ w true = some copiedBlock ∧
    ¬ Faithful payingNode oneBlock copiedBlock := by
  refine ⟨step payingNode (step payingNode oneBlock (.commitToSeal false [])) (.copy false true),
    ?_, rfl, ?_⟩
  · exact (Relation.ReflTransGen.single ⟨.commitToSeal false [], rfl⟩).tail ⟨.copy false true, rfl⟩
  · rintro ⟨j, o, l, f, hj, hexec, hitems, hseals⟩
    obtain rfl : o = freshBlock := by
      cases j with
      | true => cases hj
      | false => exact (Option.some.inj hj).symm
    -- The copy has no transactions, so it is to seal as the fresh block does.
    have hnil : l = [] := List.map_eq_nil_iff.mp hitems.symm
    obtain rfl : f = freshBlock := by
      cases hexec with
      | none => rfl
      | one h hrun => simp at hnil
    obtain ⟨b, hb, hten⟩ := commit_copiedBlock
    obtain ⟨b', hb', hfive⟩ := commit_freshBlock
    have hsame := hseals.seals []
    rw [hb, hb'] at hsame
    have hstate : b.state = b'.state := hsame.2
    rw [hten, hfive] at hstate
    exact absurd hstate (by decide)

end Rewards

end Block
end XChain
