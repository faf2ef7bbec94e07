import XChain.BlockEnact

/-!
# How the PBFT client makes a block

The leader fills its working block from the queue, executing every transaction that it
takes up. It commits the block for sealing and sends it out; then it executes the block's
transactions, writes the header anew and seals the block.
-/
namespace XChain
namespace PBFTClient

open Block Rlp

/-- What the client reads and is told while it makes a block: the clock, its own index and the
nodes of the round, its settings, and whether the engine has sent the proposal. -/
structure Round where
  timestamp : Word
  now : Word
  nodeIdx : Word
  minerNodeList : List NodeId
  extraData : Bytes
  generated : Bool
  omitEmptyBlock : Bool
  maxBlockTransactions : ℕ

variable {S Q : Type} (n : Node S) (q : QueueOps Q) (r : Round)

/-- What the client catches. Reading memory that is not there is no exception. -/
def isException : BlockError → Bool
  | .dangling => false
  | .outOfRange => false
  | _ => true

def pending (s : Block S × Q) : ℕ := s.1.transactions.items.length

def syncTransactionQueue (ask : Block S → Word) (rounds : ℕ) :
    EStateM BlockError (Block S × Q) Unit := do
  let s ← get
  if s.1.isSealed then pure ()
  else if r.maxBlockTransactions ≤ pending s then pure ()
  else do
    let _ ← syncQueue n q ask rounds
    pure ()

/-- Executes the block's transactions; an exception resets the block. -/
def executeTransaction : EStateM BlockError (Block S × Q) Bool :=
  tryCatch (do
    let _ ← exec n q
    pure true) fun e =>
      if isException e then do
        onBlock (resetCurrent n r.now)
        pure false
      else throw e

/-- From the filled block to the sealed one. A round that does not come to its end resets the
block. -/
def issueBlock : EStateM BlockError (Block S × Q) Unit := do
  let s ← get
  let txNum := pending s
  onBlock (resetCurrentTime r.timestamp)
  onBlock (setIndex r.nodeIdx)
  onBlock (setNodeList r.minerNodeList)
  onBlock (commitToSeal n r.extraData)
  let s ← get
  let proposal ← onBlock (sealProposal n (s.1.currentBlock.streamRLP .WithoutSeal))
  let s ← get
  if proposal = none ∨ r.generated = false ∨ (txNum = 0 ∧ r.omitEmptyBlock = true) ∨
      txNum ≠ pending s then onBlock (resetCurrent n r.now)
  else do
    let executed ← executeTransaction n q r
    if executed then do
      onBlock (commitToSealAfterExecTx n)
      let s ← get
      let done ← onBlock (sealBlock n (s.1.currentBlock.streamRLP .WithoutSeal))
      if done then pure () else onBlock (resetCurrent n r.now)
    else pure ()

end PBFTClient
end XChain
