import Mathlib.Logic.Function.Basic
import Mathlib.Data.List.Destutter
import XChain.Discovery

/-!
# The table of nodes

Nodes that were active lie in buckets by the distance of their hash from that of the own
id, the one that was active last at the end. A bucket holds references that may expire. A
node that does not fit into its bucket challenges the first one there, which is pinged.
-/
namespace XChain

namespace P2P

def isPrivateAddress : IpAddress → Bool
  | .v4 b =>
    match b.bytes with
    | b0 :: b1 :: _ =>
      b0 = 10 || b0 = 127 || (b0 = 172 && 16 ≤ b1 && b1 ≤ 31) || (b0 = 192 && b1 = 168)
    | _ => false
  | .v6 b =>
    b.bytes.take 2 = [0xfd, 0] ||
      (b.bytes.take 15 = List.replicate 15 0 && (b.bytes.getD 15 0 = 0 || b.bytes.getD 15 0 = 1))

def IpAddress.isUnspecified (a : IpAddress) : Bool := a.bytes.all (· = 0)

/-- The addresses 127.0.0.1, 0.0.0.0, ::1 and ::. -/
def isLocalHostAddress (a : IpAddress) : Bool :=
  a.bytes = [127, 0, 0, 1] || a.bytes = List.replicate 15 0 ++ [1] || a.isUnspecified

def isPublicAddress (a : IpAddress) : Bool := !(isPrivateAddress a || isLocalHostAddress a)

namespace NodeIPEndpoint

def isAllowed (test_allowLocal : Bool) (e : NodeIPEndpoint) : Bool :=
  if test_allowLocal then !e.address.isUnspecified else isPublicAddress e.address

def isSet (e : NodeIPEndpoint) : Bool :=
  !e.address.isUnspecified && 0 < e.udpPort.toNat && 0 < e.tcpPort.toNat

end NodeIPEndpoint

def s_bins : ℕ := 255

def s_bucketSize : ℕ := 16

/-- In nanoseconds. -/
def c_reqTimeout : ℕ := 300 * 10 ^ 6

/-- How often a number is halved before nothing is left. -/
def halvings : ℕ → BitVec 256 → ℕ
  | 0, _ => 0
  | n + 1, d => if d >>> 1 = 0 then 0 else halvings n (d >>> 1) + 1

/-- The distance of two nodes, by the hashes of their ids. -/
def distance (sha3 : Bytes → FixedHash 32) (a b : Public) : ℕ :=
  halvings 256 (BitVec.ofNat 256 (Rlp.ofBigEndian (sha3 a.bytes ^^^ sha3 b.bytes).bytes))

structure NodeEntry where
  id : Public
  endpoint : NodeIPEndpoint
  pending : Bool := true

/-- The first node may be replaced by the second one; the time is that of the challenge. -/
structure EvictionTimeout where
  leastSeen : Public
  time : ℕ
  new : Public
  deriving DecidableEq

inductive NodeTableEventType where
  | NodeEntryAdded
  | NodeEntryDropped
  deriving DecidableEq

/-- Entries are objects with a number, of which some are alive. `checks` counts the checks
of evictions that are scheduled. -/
structure NodeTable where
  id : Public
  entries : ℕ → NodeEntry
  alive : ℕ → Bool
  next : ℕ
  m_nodes : Public → Option ℕ
  m_state : Fin s_bins → List ℕ
  m_evictions : List EvictionTimeout
  checks : ℕ
  m_pubkDiscoverPings : IpAddress → Bool
  events : List (Public × NodeTableEventType)

/-- Removes elements from the first on that satisfies a test, and says whether there is
one. The test remembers that it was satisfied. -/
def removeFrom (test : ℕ → Bool) : Bool → List ℕ → List ℕ × Bool
  | removed, [] => ([], removed)
  | removed, n :: rest =>
    let removed := removed || test n
    let r := removeFrom test removed rest
    (if removed then r.1 else n :: r.1, r.2)

namespace NodeTable

variable (sha3 : Bytes → FixedHash 32) (test_allowLocal : Bool) (t : NodeTable)

def init (id : Public) : NodeTable where
  id := id
  entries _ := ⟨.zero 64, {}, true⟩
  alive _ := true
  next := 0
  m_nodes _ := none
  m_state _ := []
  m_evictions := []
  checks := 0
  m_pubkDiscoverPings _ := false
  events := []

/-- The object behind a reference, if it is alive. -/
def lock (n : ℕ) : Option ℕ := if t.alive n then some n else none

/-- The place of the bucket of a node, which may be out of bounds. -/
def bucketIndex (id : Public) : Option (Fin s_bins) :=
  let i := BitVec.ofNat 32 (distance sha3 t.id id) - 1
  if h : i.toNat < s_bins then some ⟨i.toNat, h⟩ else none

def appendEvent (id : Public) (e : NodeTableEventType) : NodeTable :=
  { t with events := t.events ++ [(id, e)] }

def setBucket (i : Fin s_bins) (nodes : List ℕ) : NodeTable :=
  { t with m_state := Function.update t.m_state i nodes }

@[simp] theorem setBucket_same (i : Fin s_bins) (nodes : List ℕ) :
    (t.setBucket i nodes).m_state i = nodes := by simp [setBucket]

theorem setBucket_of_ne {i j : Fin s_bins} (h : j ≠ i) (nodes : List ℕ) :
    (t.setBucket i nodes).m_state j = t.m_state j := by simp [setBucket, Function.update_of_ne h]

def setEntry (n : ℕ) (e : NodeEntry) : NodeTable := { t with entries := Function.update t.entries n e }

/-- Creates an entry and makes it the one of its id. -/
def newEntry (e : NodeEntry) : NodeTable :=
  { t with
    entries := Function.update t.entries t.next e
    alive := Function.update t.alive t.next true
    next := t.next + 1
    m_nodes := Function.update t.m_nodes e.id (some t.next) }

def notePending (id : Public) : NodeTable :=
  match t.m_nodes id with
  | some n => t.setEntry n { t.entries n with pending := false }
  | none => t

/-- Without a socket nothing is challenged. -/
def evict (leastSeen new now : ℕ) (isOpen : Bool) : NodeTable :=
  if isOpen then
    let evictions := t.m_evictions ++ [⟨(t.entries leastSeen).id, now, (t.entries new).id⟩]
    { t with
      m_evictions := evictions
      checks := if evictions.length = 1 then t.checks + 1 else t.checks }
  else t

/-- Puts a node at the end of its bucket, in which it may be already. -/
def activate (n : ℕ) (i : Fin s_bins) (now : ℕ) (isOpen : Bool) : NodeTable :=
  let (nodes, removed) := removeFrom (fun m => t.lock m = some n) false (t.m_state i)
  let note := fun t : NodeTable =>
    if removed then t else t.appendEvent (t.entries n).id .NodeEntryAdded
  if s_bucketSize ≤ nodes.length then
    match nodes with
    | [] => t.setBucket i nodes
    | front :: rest =>
      if t.alive front then (t.setBucket i nodes).evict front n now isOpen
      else note (t.setBucket i (rest ++ [n]))
  else note (t.setBucket i (nodes ++ [n]))

/-- Nothing if the bucket is out of bounds. -/
def noteActiveNode (pubk : Public) (endpoint : NodeIPEndpoint) (now : ℕ) (isOpen : Bool) :
    Option NodeTable :=
  if pubk = t.id ∨ !endpoint.isAllowed test_allowLocal then some t
  else
    match t.m_nodes pubk with
    | none => some t
    | some n =>
      if (t.entries n).pending then some t
      else
        let moved := { (t.entries n).endpoint with
      address := endpoint.address, udpPort := endpoint.udpPort }
        let t := t.setEntry n { t.entries n with endpoint := moved }
        (t.bucketIndex sha3 (t.entries n).id).map fun i => t.activate n i now isOpen

def dropNode (n : ℕ) : Option NodeTable :=
  (t.bucketIndex sha3 (t.entries n).id).map fun i =>
    (t.setBucket i ((t.m_state i).filter fun m => t.lock m ≠ some n)).appendEvent
      (t.entries n).id .NodeEntryDropped

/-- A node that is not known is noted as pending and pinged; without an id only its address
is noted. -/
def addNode (id : Public) (endpoint : NodeIPEndpoint) : NodeTable :=
  if !endpoint.isSet then t
  else if !id.isSet then
    { t with m_pubkDiscoverPings := Function.update t.m_pubkDiscoverPings endpoint.address true }
  else if (t.m_nodes id).isSome then t
  else t.newEntry ⟨id, endpoint, true⟩

/-- The handling of a pong. A challenge counts if its time is later than now. The flag says
whether the sender is noted as active afterwards. -/
def onPong (sourceid : Public) (endpoint : NodeIPEndpoint) (now : ℕ) : Option (NodeTable × Bool) :=
  match t.m_evictions.find? fun e => e.leastSeen = sourceid ∧ now < e.time with
  | some e => do
    let t := { t with m_evictions := t.m_evictions.erase e }
    let t ← (match t.m_nodes e.new with
      | some n => t.dropNode sha3 n
      | none => some t)
    return (t.notePending e.leastSeen, true)
  | none =>
    if (t.m_nodes sourceid).isSome then some (t.notePending sourceid, true)
    else if !t.m_pubkDiscoverPings endpoint.address then some (t, false)
    else
      let t := { t with
        m_pubkDiscoverPings := Function.update t.m_pubkDiscoverPings endpoint.address false }
      some (t.addNode sourceid endpoint, true)

/-- The challengers whose challenge is older than the timeout. -/
def expired (now : ℕ) : List ℕ :=
  (t.m_evictions.filter fun e => e.time + c_reqTimeout < now).filterMap fun e => t.m_nodes e.new

/-- One check, if it is scheduled. It drops the challengers and leaves the evictions. -/
def doCheckEvictions (now : ℕ) : Option NodeTable :=
  if t.checks = 0 then some t
  else
    let drop := t.expired now
    let evictionsRemain := drop.length < t.m_evictions.length
    ((drop.destutter (· ≠ ·)).foldlM (dropNode sha3) { t with checks := t.checks - 1 }).map fun t =>
      if evictionsRemain then { t with checks := t.checks + 1 } else t

end NodeTable

end P2P
end XChain
