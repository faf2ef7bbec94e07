import Mathlib.Data.Finset.Dedup
import Mathlib.Data.Finset.Lattice.Basic
import Mathlib.Logic.Function.Basic
import XChain.MemoryDB
import XChain.RandomSelection
import XChain.Waits

/-!
# Relaying transactions

Round by round the host sends what is on top of its queue to its peers. In a round it first goes
through the transactions, with the set of those that were sent before locked, and notes for each
of them which peers are to get it; then it goes through its sessions, those of the newer protocol
first, and sends each peer what was noted. Meanwhile other threads connect and drop sessions,
note what peers have sent to the host, and reset the host.
-/
namespace XChain

inductive ImportResult where
  | Success
  | UnknownParent
  | FutureTimeKnown
  | FutureTimeUnknown
  | AlreadyInChain
  | AlreadyKnown
  | Malformed
  | OverbidGasPrice
  | BadChain
  | ZeroSignature
  deriving DecidableEq

/-- A peer with a session. `old` says that it speaks the older protocol. -/
structure RelayPeer where
  old : Bool
  m_knownTransactions : Finset H256 := ∅
  m_requireTransactions : Bool := false

namespace RelayPeer

def require (peer : RelayPeer) : RelayPeer := { peer with m_requireTransactions := true }

def settle (peer : RelayPeer) : RelayPeer := { peer with m_requireTransactions := false }

def know (h : H256) (peer : RelayPeer) : RelayPeer :=
  { peer with m_knownTransactions := insert h peer.m_knownTransactions }

def clearKnownTransactions (peer : RelayPeer) : RelayPeer :=
  { peer with m_knownTransactions := ∅ }

end RelayPeer

/-- Where the host is in a round. A settled peer has got its packet and is still noted as one
that requires transactions. -/
inductive Round (Peer Tx : Type) where
  | idle
  | select (done rest : List Tx) (peerTransactions : Peer → List Tx)
  | collect (peerTransactions : Peer → List Tx) (old : Bool)
  | serve (peerTransactions : Peer → List Tx) (old : Bool) (sessions : List Peer)
  | settle (peerTransactions : Peer → List Tx) (old : Bool) (p : Peer) (sessions : List Peer)

namespace Round

variable {Peer Tx : Type}

def peerTransactions : Round Peer Tx → Peer → List Tx
  | .idle => fun _ => []
  | .select _ _ plan => plan
  | .collect plan _ => plan
  | .serve plan _ _ => plan
  | .settle plan _ _ _ => plan

/-- The sessions that the round still holds on to. -/
def sessions : Round Peer Tx → List Peer
  | .serve _ _ sessions => sessions
  | .settle _ _ p sessions => p :: sessions
  | _ => []

/-- `x_transactions` is held. -/
def Locked : Round Peer Tx → Prop
  | .select _ _ _ => True
  | _ => False

/-- Goes on with the sessions, then with those of the older protocol. -/
def served (plan : Peer → List Tx) (old : Bool) : List Peer → Round Peer Tx
  | [] => if old then .idle else .collect plan true
  | p :: sessions => .serve plan old (p :: sessions)

end Round

structure TransactionRelay (Peer Tx : Type) where
  m_transactionsSent : Finset H256 := ∅
  peers : Peer → Option RelayPeer := fun _ => none
  /-- Imports of known transactions that wait for `x_transactions`. -/
  importing : List H256 := []
  round : Round Peer Tx := .idle

/-- A step of the host's thread or of another one. -/
inductive RelayAct (Peer Tx : Type) where
  | connect (p : Peer) (old : Bool)
  | disconnect (p : Peer)
  | require (p : Peer)
  | onTransactionImported (ir : ImportResult) (h : H256) (p : Peer)
  | alreadyKnown (h : H256)
  | reset
  | ensureInitialised (knownTransactions : Finset H256)
  | maintainTransactions (ts : List Tx)
  | select (rand : ℕ → ℕ) (peers : List Peer)
  | mark
  | collect (sessions : List Peer)
  | send
  | settle

namespace TransactionRelay

def c_maxSendTransactions : ℕ := 256

variable {Peer Tx : Type} [DecidableEq Peer] (sha3 : Tx → H256) (s : TransactionRelay Peer Tx)

/-- The peers when one of them has changed. -/
def changed (p : Peer) (f : RelayPeer → RelayPeer) : Peer → Option RelayPeer :=
  Function.update s.peers p ((s.peers p).map f)

/-- Whether a peer is to get a transaction. -/
def allow (t : Tx) (p : Peer) : Bool :=
  match s.peers p with
  | none => false
  | some peer => peer.m_requireTransactions ||
      (!decide (sha3 t ∈ s.m_transactionsSent) && !decide (sha3 t ∈ peer.m_knownTransactions))

/-- Notes a transaction for peers. -/
def pushBack (t : Tx) (peers : List Peer) (plan : Peer → List Tx) : Peer → List Tx :=
  peers.foldl (fun plan p => Function.update plan p (plan p ++ [t])) plan

def step (s : TransactionRelay Peer Tx) : RelayAct Peer Tx → TransactionRelay Peer Tx
  | .connect p old => { s with peers := Function.update s.peers p (some { old := old }) }
  | .disconnect p => { s with peers := Function.update s.peers p none }
  | .require p => { s with peers := s.changed p .require }
  | .onTransactionImported ir h p =>
    { s with
      peers := s.changed p (.know h)
      importing := if s.peers p ≠ none ∧ ir = .AlreadyKnown then h :: s.importing else s.importing }
  | .alreadyKnown h =>
    { s with
      m_transactionsSent := insert h s.m_transactionsSent
      importing := s.importing.erase h }
  | .reset => { s with m_transactionsSent := ∅ }
  | .ensureInitialised knownTransactions => { s with m_transactionsSent := knownTransactions }
  | .maintainTransactions ts => { s with round := .select [] ts fun _ => [] }
  | .select rand peers =>
    match s.round with
    | .select done (t :: rest) plan =>
      { s with round := .select (done ++ [t]) rest
                 (pushBack t (EthereumHost.randomSelection rand 0 (s.allow sha3 t) peers).2 plan) }
    | _ => s
  | .mark =>
    match s.round with
    | .select done [] plan =>
      { s with
        m_transactionsSent := s.m_transactionsSent ∪ (done.map sha3).toFinset
        round := .collect plan false }
    | _ => s
  | .collect sessions =>
    match s.round with
    | .collect plan old => { s with round := .served plan old sessions }
    | _ => s
  | .send =>
    match s.round with
    | .serve plan old (p :: sessions) =>
      { s with
        peers := s.changed p .clearKnownTransactions
        round := .settle plan old p sessions }
    | _ => s
  | .settle =>
    match s.round with
    | .settle plan old p sessions =>
      { s with
        peers := s.changed p .settle
        round := .served plan old sessions }
    | _ => s

/-- The packet for a peer. One that requires transactions gets it even without any. -/
def packetFor (p : Peer) (ts : List Tx) : List (Peer × List Tx) :=
  match s.peers p with
  | none => []
  | some peer => if ts ≠ [] ∨ peer.m_requireTransactions then [(p, ts)] else []

/-- The packets that a step sends: a peer and the transactions for it. -/
def packets (s : TransactionRelay Peer Tx) : RelayAct Peer Tx → List (Peer × List Tx)
  | .send =>
    match s.round with
    | .serve plan _ (p :: _) => s.packetFor p (plan p)
    | _ => []
  | _ => []

/-- When a step is possible. A new session is none of those that a round holds on to, and the
queue does not give a transaction twice. -/
def Enabled (s : TransactionRelay Peer Tx) : RelayAct Peer Tx → Prop
  | .connect p _ => s.peers p = none ∧ s.round.peerTransactions p = [] ∧ p ∉ s.round.sessions
  | .disconnect _ => True
  | .require _ => True
  | .onTransactionImported _ _ _ => True
  | .alreadyKnown h => h ∈ s.importing ∧ ¬ s.round.Locked
  | .reset => ¬ s.round.Locked
  | .ensureInitialised _ => s.round = .idle
  | .maintainTransactions ts =>
    s.round = .idle ∧ (ts.map sha3).Nodup ∧ ts.length ≤ c_maxSendTransactions
  | .select _ peers => (∃ done t rest plan, s.round = .select done (t :: rest) plan) ∧
      peers.Nodup ∧ ∀ p, p ∈ peers ↔ s.peers p ≠ none
  | .mark => ∃ done plan, s.round = .select done [] plan
  | .collect sessions => ∃ plan old, s.round = .collect plan old ∧ sessions.Nodup ∧
      ∀ p, p ∈ sessions ↔ ∃ peer, s.peers p = some peer ∧ peer.old = old
  | .send => ∃ plan old p sessions, s.round = .serve plan old (p :: sessions)
  | .settle => ∃ plan old p sessions, s.round = .settle plan old p sessions

def Reachable : TransactionRelay Peer Tx → Prop := ReachableFrom (step sha3) (Enabled sha3) {}

/-- How often a packet brings a peer a transaction. -/
def copies (p : Peer) (h : H256) (packet : Peer × List Tx) : ℕ :=
  if packet.1 = p then packet.2.countP fun t => sha3 t = h else 0

/-- What lets a transaction go to a peer once more: that the host forgets what it has sent, and
that the peer requires transactions. -/
def renews (p : Peer) : RelayAct Peer Tx → ℕ
  | .reset => 1
  | .ensureInitialised _ => 1
  | .require p' => if p' = p then 1 else 0
  | _ => 0

end TransactionRelay

end XChain
