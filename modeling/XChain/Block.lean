import XChain.BlockHeader
import XChain.Buffer
import XChain.Machine
import XChain.Transaction

/-!
# Blocks

A block holds a state, the transactions that were executed on it with their receipts,
and the header under construction. It is filled from the queue, committed for sealing
and sealed, or made to follow a block that was received. The state, the roots of tries
and the chain are parameters.
-/
namespace XChain

open Rlp

/-- What the execution of a transaction throws. -/
inductive StateError where
  | InvalidNonce (required got : ℤ)
  | BlockGasLimitReached (got : ℤ)
  | other

/-- What operations on a block throw, and the two ways to read memory that is not there: through
a cursor into a place that was given back, and behind the end of the receipts. -/
inductive BlockError where
  | InvalidOperationOnSealedBlock
  | transaction (index : ℕ) (e : StateError)
  | InvalidParentHash
  | BlockNotFound
  | verify (e : BlockHeader.VerifyError)
  | header (e : HeaderError)
  | BadRLP
  | InvalidReceiptsStateRoot
  | InvalidLogBloom
  | TooManyUncles
  | UncleInChain
  | UnknownParent
  | UncleTooOld
  | UncleIsBrother
  | UncleParentNotInChain
  | atUncle (index : ℕ) (e : BlockError)
  | InvalidStateRoot
  | InvalidGasUsed
  | dangling
  | outOfRange

/-- The world that a transaction is executed in: the header, the last hashes, and the gas that
the block has used. -/
structure BlockEnv where
  header : BlockHeader
  lastHashes : List H256
  gasUsed : Word

/-- The operations on the state of all accounts. An execution that throws leaves the state as it
was. -/
structure StateOps (S : Type) where
  rootHash : S → H256
  hasRoot : S → H256 → Bool
  setRoot : S → H256 → S
  execute : S → BlockEnv → Transaction → Except StateError (S × TransactionReceipt)
  addBalance : S → Address → Word → S
  commit : S → Bool → S
  moveDaos : S → S
  rollback : S → S

/-- What a block asks the chain. -/
structure Chain where
  headerData : H256 → Option Bytes
  isKnown : H256 → Bool
  parent : H256 → H256
  children : H256 → List H256
  allKinFrom : H256 → ℕ → List H256
  genesisHash : H256
  currentHash : H256
  lastHashes : H256 → List H256
  blockReward : Word
  EIP158ForkBlock : Word
  daoHardforkBlock : Word

/-- The code that blocks call and that is not part of them. `hash256` is the root of the trie with
the given entries. -/
structure Node (S : Type) where
  sha3 : Bytes → H256
  hash256 : List (Bytes × Bytes) → H256
  receiptRlp : TransactionReceipt → Bytes
  ops : StateOps S
  chain : Chain
  grow : ℕ → ℕ

structure Block (S : Type) where
  state : S
  transactions : Buffer Transaction
  receipts : List TransactionReceipt
  transactionSet : Finset H256
  precommit : S
  previousBlock : BlockHeader
  currentBlock : BlockHeader
  currentBytes : Bytes
  committedToSeal : Bool
  currentTxs : Bytes
  currentUncles : Bytes
  author : Address

/-- A block that was received, with its header and its transactions taken apart. -/
structure VerifiedBlock where
  block : Bytes
  info : BlockHeader
  transactions : List Transaction

namespace Block

variable {S : Type}

abbrev Exec (S : Type) := EStateM BlockError (Block S)

section Basics

variable (n : Node S)

/-- The hash of a transaction with its signature. -/
def txHash (t : Transaction) : H256 := n.sha3 (t.rlp true false)

/-- The entries of a trie over a list: every item under its index. -/
def ordered (l : List Bytes) : List (Bytes × Bytes) :=
  l.zipIdx.map fun x => (encode (ofNat x.2), x.1)

def orderedTrieRoot (l : List Bytes) : H256 := n.hash256 (ordered l)

def isSealed (b : Block S) : Bool := b.currentBytes ≠ []

def gasUsed (b : Block S) : Word := (b.receipts.getLast?.map TransactionReceipt.gasUsed).getD 0

def logBloom (b : Block S) : LogBloom := LogBloom.join (b.receipts.map TransactionReceipt.bloom)

def liftExcept {α ε : Type} (f : ε → BlockError) : Except ε α → Exec S α
  | .ok a => pure a
  | .error e => throw (f e)

/-- The header of a block of the chain. -/
def info (h : H256) : Exec S BlockHeader :=
  match n.chain.headerData h with
  | none => throw .BlockNotFound
  | some data => liftExcept .header (BlockHeader.ofBytes n.sha3 data .HeaderData .zero)

/-- The changes that the chain makes at the block of the fork. -/
def performIrregularModifications : Exec S Unit :=
  modify fun b =>
    if n.chain.daoHardforkBlock ≠ 0 ∧ b.currentBlock.number = n.chain.daoHardforkBlock then
      { b with state := n.ops.commit (n.ops.moveDaos b.state) false }
    else b

def laterOf (t t' : Word) : Word := if t < t' then t' else t

def resetCurrentTime (timestamp : Word) : Exec S Unit :=
  modify fun b => { b with
    currentBlock := b.currentBlock.setTimestamp (laterOf (b.previousBlock.timestamp + 1) timestamp) }

def setIndex (idx : Word) : Exec S Unit :=
  modify fun b => { b with currentBlock := b.currentBlock.setIndex idx }

def setNodeList (nodes : List NodeId) : Exec S Unit :=
  modify fun b => { b with currentBlock := b.currentBlock.setNodeList nodes }

/-- A clean child of the previous block. -/
def resetCurrent (timestamp : Word) : Exec S Unit := do
  modify fun b =>
    let header := (BlockHeader.empty.setAuthor b.author).setTimestamp
      (laterOf (b.previousBlock.timestamp + 1) timestamp)
    let s := n.ops.setRoot b.state b.previousBlock.stateRoot
    { b with
      transactions := b.transactions.clear
      receipts := []
      transactionSet := ∅
      currentBlock := header.populateFromParent b.previousBlock
      currentBytes := []
      state := s
      precommit := s
      committedToSeal := false }
  performIrregularModifications n

/-- Follows the chain to a block; tells whether there was anything to do. -/
def sync (timestamp : Word) (hash : H256) : Exec S Bool := do
  let bi ← info n hash
  let b ← get
  if bi.sameFields b.currentBlock then do
    modify fun b => { b with previousBlock := b.currentBlock }
    resetCurrent n timestamp
    pure true
  else if bi.sameFields b.previousBlock then pure false
  else if n.ops.hasRoot b.state bi.stateRoot then do
    modify fun b => { b with previousBlock := bi }
    resetCurrent n timestamp
    pure true
  else throw .InvalidStateRoot

def uncommitToSeal : Exec S Unit :=
  modify fun b => if b.committedToSeal then { b with state := b.precommit, committedToSeal := false }
    else b

/-- Executes a transaction and takes it up, with its receipt. -/
def execute (lastHashes : List H256) (index : ℕ) (t : Transaction) : Exec S Unit := do
  let b ← get
  (if b.isSealed then throw .InvalidOperationOnSealedBlock else pure ())
  uncommitToSeal
  let b ← get
  match n.ops.execute b.state ⟨b.currentBlock, lastHashes, b.gasUsed⟩ t with
  | .error e => throw (.transaction index e)
  | .ok (s, receipt) =>
    set { b with
      state := s
      transactions := b.transactions.push n.grow t
      receipts := b.receipts ++ [receipt]
      transactionSet := insert (txHash n t) b.transactionSet }

/-- Reads a transaction through a cursor. -/
def readTransaction (c : Cursor) : Exec S Transaction := do
  let b ← get
  match b.transactions.read c with
  | some t => pure t
  | none => throw .dangling

/-- The receipt that was added last. -/
def lastReceipt : Exec S TransactionReceipt := do
  let b ← get
  match b.receipts.getLast? with
  | some r => pure r
  | none => throw .outOfRange

end Basics

section Sealing

variable (n : Node S)

/-- What an uncle and the author get. -/
def applyRewards (uncles : List BlockHeader) (blockReward : Word) : Exec S Unit :=
  modify fun b =>
    let s := uncles.foldl (fun s u => n.ops.addBalance s u.author
      (blockReward * (8 + u.number - b.currentBlock.number) / 8)) b.state
    let r := uncles.foldl (fun r _ => r + blockReward / 32) blockReward
    { b with state := n.ops.addBalance s b.currentBlock.author r }

def removeEmptyAccounts (b : Block S) : Bool := n.chain.EIP158ForkBlock ≤ b.currentBlock.number

/-- The rest of the children of one ancestor that are taken as uncles: at most two, and none
that is excluded. -/
def unclesFrom : List H256 → List H256 → List H256 → List H256 × List H256
  | [], excluded, us => (excluded, us)
  | u :: rest, excluded, us =>
    if u ∈ excluded then unclesFrom rest excluded us
    else if us.length + 1 = 2 then (excluded, us ++ [u])
    else unclesFrom rest (u :: excluded) (us ++ [u])

/-- The uncles among the children of up to `gens` ancestors. -/
def chooseUncles : ℕ → H256 → List H256 → List H256 → List H256
  | 0, _, _, us => us
  | gens + 1, p, excluded, us =>
    if p = n.chain.genesisHash ∨ 2 ≤ us.length then us
    else
      let (excluded, us) := unclesFrom (n.chain.children p) excluded us
      chooseUncles gens (n.chain.parent p) excluded us

def rawHeader (h : H256) : Exec S Bytes :=
  match n.chain.headerData h with
  | none => throw .BlockNotFound
  | some data => pure data

/-- A list of items with the given encodings. -/
def rawList (l : List Bytes) : Bytes := BlockHeader.listOf l.flatten

/-- The receipts of the first transactions. -/
def receiptsOf (b : Block S) : Exec S (List Bytes) :=
  if b.transactions.items.length ≤ b.receipts.length then
    pure ((b.receipts.take b.transactions.items.length).map n.receiptRlp)
  else throw .outOfRange

/-- Writes the roots, the uncles and the rewards into the header. -/
def commitToSeal (extraData : Bytes) : Exec S Unit := do
  let b ← get
  (if b.isSealed then throw .InvalidOperationOnSealedBlock else pure ())
  (if b.committedToSeal then uncommitToSeal else modify fun b => { b with precommit := b.state })
  let us := if b.previousBlock.number ≠ 0 then
      chooseUncles n 6 b.previousBlock.parentHash
        (n.chain.allKinFrom b.currentBlock.parentHash 6) []
    else []
  let headers ← us.mapM (info n)
  let raw ← us.mapM (rawHeader n)
  let b ← get
  let receipts ← receiptsOf n b
  let txs := b.transactions.items.map fun t => t.rlp true false
  modify fun b => { b with currentTxs := rawList txs, currentUncles := rawList raw }
  applyRewards n headers n.chain.blockReward
  modify fun b => { b with state := n.ops.commit b.state (removeEmptyAccounts n b) }
  modify fun b => { b with
    currentBlock := (((((b.currentBlock.setLogBloom b.logBloom).setGasUsed b.gasUsed).setRoots
      (orderedTrieRoot n txs) (orderedTrieRoot n receipts) (n.sha3 b.currentUncles)
      (n.ops.rootHash b.state)).setParentHash
        (b.previousBlock.hash n.sha3 .WithSeal).1).setExtraData (extraData.take 32))
    committedToSeal := true }

/-- Writes what has changed by the execution of the transactions into the header. -/
def commitToSealAfterExecTx : Exec S Unit := do
  modify fun b => { b with state := n.ops.commit b.state false }
  modify fun b => { b with
    currentBlock := ((b.currentBlock.setLogBloom b.logBloom).setGasUsed b.gasUsed).setRoots
      b.currentBlock.transactionsRoot (orderedTrieRoot n (b.receipts.map n.receiptRlp))
      b.currentBlock.sha3Uncles (n.ops.rootHash b.state)
    committedToSeal := true }

/-- The block that is sent out before its transactions are executed. -/
def sealProposal (header : Bytes) : Exec S (Option Bytes) := do
  let b ← get
  if b.committedToSeal then do
    let h ← liftExcept .header (BlockHeader.ofBytes n.sha3 header .HeaderData .zero)
    if (h.hash n.sha3 .WithoutSeal).1 = (b.currentBlock.hash n.sha3 .WithoutSeal).1 then
      pure (some (rawList [header, b.currentTxs, b.currentUncles,
        encode (.data (b.currentBlock.hash n.sha3 .WithoutSeal).1.bytes), encode (.list [])]))
    else pure none
  else pure none

def sealBlock (header : Bytes) : Exec S Bool := do
  let b ← get
  if b.committedToSeal then do
    let h ← liftExcept .header (BlockHeader.ofBytes n.sha3 header .HeaderData .zero)
    if (h.hash n.sha3 .WithoutSeal).1 = (b.currentBlock.hash n.sha3 .WithoutSeal).1 then do
      modify fun b => { b with
        currentBytes := rawList [header, b.currentTxs, b.currentUncles]
        currentBlock := h
        state := b.precommit }
      pure true
    else pure false
  else pure false

end Sealing

/-- The operations of the transaction queue. -/
structure QueueOps (Q : Type) where
  topTransactions : Q → ℕ → Finset H256 → List Transaction
  drop : Q → H256 → Q
  setFuture : Q → H256 → Q
  waiting : Q → Address → ℕ

section Filling

variable {Q : Type} (n : Node S) (q : QueueOps Q)

/-- Runs on the block alone. -/
def onBlock {α : Type} (m : Exec S α) : EStateM BlockError (Block S × Q) α := fun s =>
  match m s.1 with
  | .ok a b => .ok a (b, s.2)
  | .error e b => .error e (b, s.2)

/-- The transactions that a cursor still has before it, `remaining` of them, are executed again, and
every one is appended to the array that is walked through. A transaction is read once more
after it was executed, for its hash. -/
def execLoop (lastHashes : List H256) : ℕ → ℕ → Cursor →
    EStateM BlockError (Block S × Q) (List TransactionReceipt)
  | 0, _, _ => pure []
  | remaining + 1, i, c => do
    let t ← onBlock (readTransaction c)
    tryCatch (onBlock (execute n lastHashes i t)) fun e => do
      modify fun s => (s.1, q.drop s.2 (txHash n t))
      throw e
    let _ ← onBlock (readTransaction c)
    let r ← onBlock lastReceipt
    let rest ← execLoop lastHashes remaining (i + 1) { c with index := c.index + 1 }
    pure (r :: rest)

/-- Executes the pending transactions. -/
def exec : EStateM BlockError (Block S × Q) (List TransactionReceipt) := do
  let s ← get
  (if s.1.isSealed then throw .InvalidOperationOnSealedBlock else pure ())
  execLoop n q (n.chain.lastHashes n.chain.currentHash) s.1.transactions.items.length 0
    s.1.transactions.begin

def c_maxSyncTransactions : ℕ := 1024

/-- What becomes of a transaction that was taken from the queue and threw. -/
def refuse (b : Block S) (t : Transaction) (e : BlockError) (queue : Q) : Q :=
  match e with
  | .transaction _ (.InvalidNonce required got) =>
    if got < required then q.drop queue (txHash n t)
    else if required + q.waiting queue t.sender < got then q.drop queue (txHash n t)
    else q.setFuture queue (txHash n t)
  | .transaction _ (.BlockGasLimitReached got) =>
    if b.currentBlock.gasLimit.toNat < got then q.drop queue (txHash n t) else queue
  | _ => q.drop queue (txHash n t)

/-- One transaction from the queue; tells whether it was executed. -/
def syncTransaction (ask : Block S → Word) (lastHashes : List H256) (t : Transaction) :
    EStateM BlockError (Block S × Q) (List TransactionReceipt) := do
  let s ← get
  if txHash n t ∈ s.1.transactionSet then pure []
  else if ask s.1 ≤ t.gasPrice then
    tryCatch (do
      onBlock (execute n lastHashes 0 t)
      let r ← onBlock lastReceipt
      pure [r]) fun e => do
        modify fun s => (s.1, refuse n q s.1 t e s.2)
        pure []
  else if t.gasPrice < ask s.1 * 9 / 10 then do
    modify fun s => (s.1, q.drop s.2 (txHash n t))
    pure []
  else pure []

/-- One walk over the transactions from the queue. -/
def syncRound (ask : Block S → Word) (lastHashes : List H256) :
    List Transaction → EStateM BlockError (Block S × Q) (List TransactionReceipt)
  | [] => pure []
  | t :: ts => do
    let rs ← syncTransaction n q ask lastHashes t
    let rest ← syncRound ask lastHashes ts
    pure (rs ++ rest)

/-- Walks over the transactions until one walk executes all of them, or the time is over after
`rounds` walks. -/
def syncRounds (ask : Block S → Word) (lastHashes : List H256) (ts : List Transaction) :
    ℕ → EStateM BlockError (Block S × Q) (List TransactionReceipt)
  | 0 => pure []
  | rounds + 1 => do
    let rs ← syncRound n q ask lastHashes ts
    if rs.length < ts.length then do
      let rest ← syncRounds ask lastHashes ts rounds
      pure (rs ++ rest)
    else pure rs

/-- Fills the block from the queue. -/
def syncQueue (ask : Block S → Word) (rounds : ℕ) :
    EStateM BlockError (Block S × Q) (List TransactionReceipt) := do
  let s ← get
  (if s.1.isSealed then throw .InvalidOperationOnSealedBlock else pure ())
  syncRounds n q ask (n.chain.lastHashes n.chain.currentHash)
    (q.topTransactions s.2 c_maxSyncTransactions s.1.transactionSet) rounds

end Filling

section Following

variable (n : Node S)

/-- Executes the transactions of a received block; gives the encodings of their receipts. -/
def enactTransactions (lastHashes : List H256) : List Transaction → ℕ → Exec S (List Bytes)
  | [], _ => pure []
  | t :: rest, i => do
    execute n lastHashes i t
    let r ← lastReceipt
    let receipts ← enactTransactions lastHashes rest (i + 1)
    pure (n.receiptRlp r :: receipts)

/-- The ancestor that many generations above. -/
def ancestor (h : H256) (k : ℕ) : H256 := n.chain.parent^[k] h

/-- Checks one uncle and reads its header. -/
def enactUncle (excluded : List H256) (raw : Bytes) : Exec S BlockHeader := do
  let b ← get
  (if n.sha3 raw ∈ excluded then throw .UncleInChain else pure ())
  let uncle ← liftExcept .header (BlockHeader.ofBytes n.sha3 raw .HeaderData (n.sha3 raw))
  (if n.chain.isKnown uncle.parentHash then pure () else throw .UnknownParent)
  let uncleParent ← info n uncle.parentHash
  let depth : ℤ := b.currentBlock.number.toNat - uncle.number.toNat
  (if 6 < depth then throw .UncleTooOld else if depth < 1 then throw .UncleIsBrother else pure ())
  (if ancestor n (n.chain.parent b.currentBlock.parentHash) (depth.toNat - 1) ≠
      (uncleParent.hash n.sha3 .WithSeal).1 then
    throw .UncleParentNotInChain else pure ())
  liftExcept .verify (uncle.verify n.sha3 .CheckNothingNew uncleParent)
  pure uncle

/-- The uncles one after the other; each of them excludes itself afterwards. -/
def enactUncles : List H256 → List Bytes → ℕ → Exec S (List BlockHeader)
  | _, [], _ => pure []
  | excluded, raw :: rest, i => do
    let uncle ← tryCatch (enactUncle n excluded raw) fun e => throw (.atUncle i e)
    let uncles ← enactUncles (n.sha3 raw :: excluded) rest (i + 1)
    pure (uncle :: uncles)

/-- The items of a list, as they are encoded. -/
def rawItems : Option Item → List Bytes
  | some (.list l) => l.map encode
  | _ => []

/-- Follows a received block. The result is what it adds to the total difficulty. -/
def enact (blk : VerifiedBlock) : Exec S Word := do
  let b ← get
  (if b.currentBlock.parentHash ≠ (b.previousBlock.hash n.sha3 .WithSeal).1 then
    throw .InvalidParentHash else pure ())
  modify fun b => { b with currentBlock := blk.info }
  let root ← (match decodeStrict blk.block with
    | some root => pure root
    | none => throw .BadRLP)
  let receipts ← enactTransactions n (n.chain.lastHashes blk.info.parentHash) blk.transactions 0
  (if orderedTrieRoot n receipts ≠ blk.info.receiptsRoot then throw .InvalidReceiptsStateRoot
  else pure ())
  let b ← get
  (if b.currentBlock.logBloom ≠ b.logBloom then throw .InvalidLogBloom else pure ())
  let raw := rawItems (get? root 2)
  (if 2 < raw.length then throw .TooManyUncles else pure ())
  let rewarded ← enactUncles n ((blk.info.hash n.sha3 .WithSeal).1 ::
    n.chain.allKinFrom blk.info.parentHash 6) raw 0
  applyRewards n rewarded n.chain.blockReward
  modify fun b => { b with state := n.ops.commit b.state (removeEmptyAccounts n b) }
  let b ← get
  (if b.currentBlock.stateRoot ≠ b.previousBlock.stateRoot ∧
      b.currentBlock.stateRoot ≠ n.ops.rootHash b.state then do
    modify fun b => { b with state := n.ops.rollback b.state }
    throw .InvalidStateRoot
  else pure ())
  (if b.currentBlock.gasUsed ≠ b.gasUsed then do
    modify fun b => { b with state := n.ops.rollback b.state }
    throw .InvalidGasUsed
  else pure ())
  pure b.currentBlock.difficulty

/-- Goes to the parent of a received block and follows it. -/
def enactOn (timestamp : Word) (blk : VerifiedBlock) : Exec S Word := do
  let biParent ← info n blk.info.parentHash
  liftExcept .verify (blk.info.verify n.sha3 .CheckNothingNew biParent)
  (if biParent.number ≠ 0 then do
    let _ ← info n biParent.parentHash
    pure ()
  else pure ())
  let _ ← sync n timestamp blk.info.parentHash
  resetCurrent n timestamp
  modify fun b => { b with previousBlock := biParent }
  enact n blk

end Following

end Block
end XChain
