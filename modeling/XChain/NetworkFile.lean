import XChain.Assoc
import XChain.NearestNodes
import XChain.SecureFixedHash

/-!
# The file of the network

The host keeps the nodes it knows in a file: its own key, the peers that it was connected to
of late and the nodes of the table. A host that starts with the file knows those peers again,
with their times in whole seconds, and offers the nodes with public addresses to its table.
-/
namespace XChain

namespace P2P

inductive PeerType where
  | Optional
  | Required
  deriving DecidableEq

/-- Times are in nanoseconds since the epoch. -/
structure Peer where
  id : Public
  endpoint : NodeIPEndpoint
  peerType : PeerType := .Optional
  isOffline : Bool := true
  m_score : BitVec 32 := 0
  m_rating : BitVec 32 := 0
  m_lastConnected : ℕ := 0
  m_lastAttempted : ℕ := 0
  m_failedAttempts : BitVec 32 := 0
  m_lastDisconnect : BitVec 32 := 0xffff

namespace Peer

/-- The order in which peers are saved. Scores and ratings are signed. -/
def lt (p q : Peer) : Bool :=
  if p.isOffline ≠ q.isOffline then p.isOffline
  else if p.isOffline then
    if p.m_lastAttempted = q.m_lastAttempted then p.m_failedAttempts < q.m_failedAttempts
    else p.m_lastAttempted < q.m_lastAttempted
  else if p.m_score = q.m_score then
    if p.m_rating = q.m_rating then
      if p.m_failedAttempts = q.m_failedAttempts then p.id.lt q.id
      else p.m_failedAttempts < q.m_failedAttempts
    else p.m_rating.slt q.m_rating
  else p.m_score.slt q.m_score

/-- Nanoseconds in a second. -/
def second : ℕ := 10 ^ 9

def streamRLP (p : Peer) : Item :=
  .list (p.endpoint.streamInline ++
    [.data p.id.bytes, Rlp.ofNat (if p.peerType = .Required then 1 else 0),
      Rlp.ofNat (p.m_lastConnected / second), Rlp.ofNat (p.m_lastAttempted / second),
      Rlp.ofNat p.m_failedAttempts.toNat, Rlp.ofNat p.m_lastDisconnect.toNat,
      Rlp.ofNat p.m_score.toNat, Rlp.ofNat p.m_rating.toNat])

/-- The times of the peer fit into the numbers that are read. -/
def InTime (p : Peer) : Prop :=
  p.m_lastConnected / second < 2 ^ 32 ∧ p.m_lastAttempted / second < 2 ^ 32

/-- What the file keeps of a peer: whole seconds, and no session. -/
def kept (p : Peer) : Peer :=
  { p with
    isOffline := true
    m_lastConnected := p.m_lastConnected / second * second
    m_lastAttempted := p.m_lastAttempted / second * second }

end Peer

/-- What the host has to do with the file: its key, the peers it knows, the ids of those that
it requires and what it asked the table of nodes to do. -/
structure HostNetwork where
  m_alias : Secret
  id : Public
  started : Bool
  m_run : Bool
  m_dropPeers : Bool
  m_peers : AList fun _ : Public => Peer
  m_requiredPeers : Public → Bool
  toTable : List NodeTable.Op
  ids : ∀ k p, m_peers.lookup k = some p → p.id = k

/-- The live nodes of the table, bucket by bucket. -/
def NodeTable.snapshot (t : NodeTable) : List NodeEntry :=
  (List.finRange s_bins).flatMap fun s => ((t.m_state s).filter t.alive).map t.entries

/-- A node is compared as the truth value of its id. -/
def NodeEntry.le (a b : NodeEntry) : Bool := b.id.isSet || !a.id.isSet

def NodeEntry.streamRLP (n : NodeEntry) : Item :=
  .list (n.endpoint.streamInline ++ [.data n.id.bytes])

namespace HostNetwork

section Save

variable (h : HostNetwork) (test_allowLocal : Bool) (now : ℕ) (m_nodeTable : Option NodeTable)

def peers : List Peer := (pairs h.m_peers).map Prod.snd

def isV4 : IpAddress → Bool
  | .v4 _ => true
  | .v6 _ => false

/-- The peer was connected within two days and has an endpoint, with a public address unless the
peer is required. -/
def isSaved (p : Peer) : Bool :=
  isV4 p.endpoint.address && now < p.m_lastConnected + 3600 * 48 * Peer.second &&
    p.endpoint.isSet && p.id ≠ h.id &&
    (p.peerType = .Required || p.endpoint.isAllowed test_allowLocal)

def savedPeers : List Peer :=
  (h.peers.mergeSort fun p q => !q.lt p).filter (h.isSaved test_allowLocal now)

def savedNodes : List NodeEntry :=
  match m_nodeTable with
  | some t => t.snapshot.mergeSort NodeEntry.le
  | none => []

def saveNetwork : Bytes :=
  Rlp.encode <| .list [Rlp.ofNat c_protocolVersion, .data h.m_alias.bytes,
    .list ((h.savedPeers test_allowLocal now).map Peer.streamRLP ++
      (savedNodes m_nodeTable).map NodeEntry.streamRLP)]

end Save

section Restore

variable (g : HostNetwork) (toArray : Item → Option (FixedHash 4)) (test_allowLocal : Bool)
  (now : ℕ) (isOpen : Bool)

def ask (op : NodeTable.Op) : HostNetwork := { g with toTable := g.toTable ++ [op] }

def setPeer (p : Peer) : HostNetwork :=
  { g with
    m_peers := g.m_peers.insert p.id p
    ids := by
      intro k q hq
      by_cases hk : k = p.id
      · rw [hk, AList.lookup_insert] at hq
        rw [hk, Option.some.inj hq]
      · rw [AList.lookup_insert_ne hk] at hq
        exact g.ids k q hq }

/-- Creates the peer of a required node or changes it. -/
def notePeer (n : Public) (endpoint : NodeIPEndpoint) : HostNetwork :=
  match g.m_peers.lookup n with
  | some p => g.setPeer { p with endpoint := endpoint, peerType := .Required }
  | none => g.setPeer { id := n, endpoint := endpoint, peerType := .Required }

def markRequired (n : Public) : HostNetwork :=
  { g with m_requiredPeers := Function.update g.m_requiredPeers n true }

def requirePeer (n : Public) (endpoint : NodeIPEndpoint) : HostNetwork :=
  if !g.m_run then g.markRequired n
  else if n.isSet then ((g.markRequired n).notePeer n endpoint).ask (.addNode n endpoint)
  else (g.markRequired n).ask (.addNode n endpoint)

/-- What is done with a peer that was read. -/
def restorePeer (p : Peer) : HostNetwork :=
  if p.peerType = .Required then (g.setPeer p).requirePeer p.id p.endpoint
  else (g.setPeer p).ask (.addKnownNode p.id p.endpoint now isOpen)

/-- The rest of an entry whose id and endpoint are known: a node when it has `n` items, and a
peer when it has seven more. -/
def restoreEntry (i : Item) (n : ℕ) (id : Public) (endpoint : NodeIPEndpoint) :
    Option HostNetwork :=
  let allowed := endpoint.isAllowed test_allowLocal
  if Rlp.itemCount i = n ∧ allowed then some (g.ask (.addNode id endpoint))
  else if Rlp.itemCount i = n + 7 then do
    let required ← Rlp.get? i n >>= Rlp.toUint 8
    let peerType := if required ≠ 0 then PeerType.Required else PeerType.Optional
    if !allowed ∧ peerType = .Optional then some g
    else
      let lastConnected ← Rlp.get? i (n + 1) >>= Rlp.toUint 32
      let lastAttempted ← Rlp.get? i (n + 2) >>= Rlp.toUint 32
      let failedAttempts ← Rlp.get? i (n + 3) >>= Rlp.toUint 32
      let lastDisconnect ← Rlp.get? i (n + 4) >>= Rlp.toUint 32
      let score ← Rlp.get? i (n + 5) >>= Rlp.toUint 32
      let rating ← Rlp.get? i (n + 6) >>= Rlp.toUint 32
      some <| g.restorePeer now isOpen
        { id := id
          endpoint := endpoint
          peerType := peerType
          m_score := score
          m_rating := rating
          m_lastConnected := lastConnected.toNat * Peer.second
          m_lastAttempted := lastAttempted.toNat * Peer.second
          m_failedAttempts := failedAttempts
          m_lastDisconnect := lastDisconnect }
  else some g

/-- One entry of the file. The entries of the third version have one port, and an address that
`toArray` reads. -/
def restoreItem (i : Item) : Option HostNetwork :=
  match Rlp.get? i 0 with
  | none => some g
  | some address =>
    if Rlp.itemCount address ≠ 4 ∧ Rlp.size address ≠ 4 then some g
    else if Rlp.itemCount i = 4 ∨ Rlp.itemCount i = 11 then do
      let id ← Rlp.get? i 3 >>= Rlp.toHash 64
      let endpoint ← NodeIPEndpoint.interpretRLP i
      g.restoreEntry test_allowLocal now isOpen i 4 id endpoint
    else if Rlp.itemCount i = 3 ∨ Rlp.itemCount i = 10 then do
      let id ← Rlp.get? i 2 >>= Rlp.toHash 64
      let v4 ← toArray address
      let port ← Rlp.get? i 1 >>= Rlp.toUint 16
      g.restoreEntry test_allowLocal now isOpen i 3 id ⟨.v4 v4, port, port⟩
    else some g

/-- A string without zeros in front. -/
def isInt : Item → Bool
  | .data b => b.head? ≠ some 0
  | .list _ => false

/-- The entries of a list; anything else has none. -/
def entriesOf (r : Item) : List Item := ((Rlp.get? r 2).bind DiscoveryDatagram.itemsOf).getD []

def restoreNetwork (b : Bytes) : Option HostNetwork :=
  if b = [] then some g
  else if !g.started then none
  else if g.m_dropPeers then some g
  else do
    let r ← Rlp.decodeStrict b
    let version ← Rlp.get? r 0
    let fileVersion ← Rlp.toUint 32 version
    if isInt version ∧ c_protocolVersion - 1 ≤ fileVersion.toNat then
      (entriesOf r).foldlM (fun g i => g.restoreItem toArray test_allowLocal now isOpen i) g
    else some g

end Restore

/-- The key in the file, and a new one where there is none. -/
def networkAlias (create : Secret) (b : Bytes) : Option Secret :=
  if b = [] then some create
  else do
    let r ← Rlp.decodeStrict b
    if Rlp.itemCount r ≠ 3 then some create
    else
      let version ← Rlp.get? r 0
      if !isInt version then some create
      else
        let fileVersion ← Rlp.toUint 32 version
        if 3 ≤ fileVersion.toNat then (Rlp.get? r 1).map fun x => .ofRef 32 (Rlp.toBytes x)
        else some create

section Fields

variable (g : HostNetwork) (now : ℕ) (isOpen : Bool) (op : NodeTable.Op) (p : Peer) (n : Public)
  (endpoint : NodeIPEndpoint)

@[simp] theorem m_peers_ask : (g.ask op).m_peers = g.m_peers := rfl

@[simp] theorem toTable_ask : (g.ask op).toTable = g.toTable ++ [op] := rfl

@[simp] theorem m_run_ask : (g.ask op).m_run = g.m_run := rfl

@[simp] theorem m_requiredPeers_ask : (g.ask op).m_requiredPeers = g.m_requiredPeers := rfl

@[simp] theorem toTable_setPeer : (g.setPeer p).toTable = g.toTable := rfl

@[simp] theorem m_run_setPeer : (g.setPeer p).m_run = g.m_run := rfl

@[simp] theorem m_requiredPeers_setPeer : (g.setPeer p).m_requiredPeers = g.m_requiredPeers := rfl

@[simp] theorem lookup_setPeer (k : Public) :
    (g.setPeer p).m_peers.lookup k = if k = p.id then some p else g.m_peers.lookup k := by
  split_ifs with hk
  · rw [hk]
    exact AList.lookup_insert g.m_peers
  · exact AList.lookup_insert_ne hk

@[simp] theorem toTable_notePeer : (g.notePeer n endpoint).toTable = g.toTable := by
  unfold notePeer
  split <;> rfl

@[simp] theorem m_run_notePeer : (g.notePeer n endpoint).m_run = g.m_run := by
  unfold notePeer
  split <;> rfl

@[simp] theorem m_requiredPeers_notePeer :
    (g.notePeer n endpoint).m_requiredPeers = g.m_requiredPeers := by
  unfold notePeer
  split <;> rfl

variable {g p}

/-- A required peer that is known with the endpoint is not changed. -/
theorem lookup_notePeer (hp : g.m_peers.lookup p.id = some p) (hreq : p.peerType = .Required)
    (k : Public) : (g.notePeer p.id p.endpoint).m_peers.lookup k = g.m_peers.lookup k := by
  have hsame : { p with endpoint := p.endpoint, peerType := .Required } = p := by rw [← hreq]
  rw [notePeer, hp]
  simp only [hsame, lookup_setPeer]
  split_ifs with hk
  · rw [hk, hp]
  · rfl

theorem lookup_requirePeer (hp : g.m_peers.lookup p.id = some p) (hreq : p.peerType = .Required)
    (k : Public) : (g.requirePeer p.id p.endpoint).m_peers.lookup k = g.m_peers.lookup k := by
  have hmark : (g.markRequired p.id).m_peers.lookup p.id = some p := hp
  unfold requirePeer
  split_ifs
  · rfl
  · exact lookup_notePeer hmark hreq k
  · rfl

variable (g p)

@[simp] theorem m_run_requirePeer : (g.requirePeer n endpoint).m_run = g.m_run := by
  unfold requirePeer
  split_ifs <;> simp [markRequired]

@[simp] theorem m_requiredPeers_requirePeer :
    (g.requirePeer n endpoint).m_requiredPeers = Function.update g.m_requiredPeers n true := by
  unfold requirePeer
  split_ifs <;> simp [markRequired]

theorem toTable_requirePeer :
    (g.requirePeer n endpoint).toTable =
      g.toTable ++ if g.m_run then [.addNode n endpoint] else [] := by
  unfold requirePeer
  cases hrun : g.m_run with
  | false => simp [markRequired]
  | true =>
    simp only [Bool.not_true, Bool.false_eq_true, if_false, if_true]
    split_ifs <;> simp [markRequired]

theorem lookup_restorePeer (k : Public) :
    (g.restorePeer now isOpen p).m_peers.lookup k =
      if k = p.id then some p else g.m_peers.lookup k := by
  by_cases hreq : p.peerType = .Required
  · have hp : (g.setPeer p).m_peers.lookup p.id = some p := by simp
    rw [restorePeer, if_pos hreq, lookup_requirePeer hp hreq, lookup_setPeer]
  · rw [restorePeer, if_neg hreq, m_peers_ask, lookup_setPeer]

theorem m_run_restorePeer : (g.restorePeer now isOpen p).m_run = g.m_run := by
  unfold restorePeer
  split_ifs <;> simp

theorem m_requiredPeers_restorePeer (k : Public) :
    (g.restorePeer now isOpen p).m_requiredPeers k =
      (g.m_requiredPeers k || (p.id = k && p.peerType = .Required)) := by
  unfold restorePeer
  split_ifs with hreq
  · by_cases hk : k = p.id
    · simp [hk, hreq]
    · simp [hk, Ne.symm hk]
  · simp [hreq]

/-- What the table is asked to do about a peer of the file. -/
def asked : List NodeTable.Op :=
  if p.peerType = .Required then if g.m_run then [.addNode p.id p.endpoint] else []
  else [.addKnownNode p.id p.endpoint now isOpen]

theorem toTable_restorePeer :
    (g.restorePeer now isOpen p).toTable = g.toTable ++ g.asked now isOpen p := by
  unfold restorePeer asked
  split_ifs with hreq hrun
  · simp [toTable_requirePeer, hrun]
  · simp [toTable_requirePeer, hrun]
  · simp

end Fields

section Entries

variable (g : HostNetwork) (toArray : Item → Option (FixedHash 4)) (test_allowLocal : Bool)
  (now : ℕ) (isOpen : Bool)

theorem toUint_ofNat_of_lt {bits n : ℕ} (hbits : 8 ∣ bits) (hn : n < 2 ^ bits) :
    Rlp.toUint bits (Rlp.ofNat n) = some (.ofNat bits n) := by
  have h := Rlp.toUint_ofNat hbits (BitVec.ofNat bits n)
  rwa [BitVec.toNat_ofNat, Nat.mod_eq_of_lt hn] at h

theorem size_of_isV4 {a : IpAddress} (h : isV4 a = true) : a.bytes.length = 4 := by
  cases a with
  | v4 b => exact b.size
  | v6 b => cases h

theorem size_of_not_isV4 {a : IpAddress} (h : ¬isV4 a = true) : a.bytes.length = 16 := by
  cases a with
  | v4 b => exact absurd rfl h
  | v6 b => exact b.size

variable {test_allowLocal}

theorem restoreEntry_peer {p : Peer} (htime : p.InTime)
    (hallowed : p.peerType = .Required ∨ p.endpoint.isAllowed test_allowLocal = true) :
    g.restoreEntry test_allowLocal now isOpen p.streamRLP 4 p.id p.endpoint =
      some (g.restorePeer now isOpen p.kept) := by
  have hcount : Rlp.itemCount p.streamRLP = 11 := rfl
  have h4 : Rlp.get? p.streamRLP 4 = some (Rlp.ofNat (if p.peerType = .Required then 1 else 0)) :=
    rfl
  have h5 : Rlp.get? p.streamRLP 5 = some (Rlp.ofNat (p.m_lastConnected / Peer.second)) := rfl
  have h6 : Rlp.get? p.streamRLP 6 = some (Rlp.ofNat (p.m_lastAttempted / Peer.second)) := rfl
  have h7 : Rlp.get? p.streamRLP 7 = some (Rlp.ofNat p.m_failedAttempts.toNat) := rfl
  have h8 : Rlp.get? p.streamRLP 8 = some (Rlp.ofNat p.m_lastDisconnect.toNat) := rfl
  have h9 : Rlp.get? p.streamRLP 9 = some (Rlp.ofNat p.m_score.toNat) := rfl
  have h10 : Rlp.get? p.streamRLP 10 = some (Rlp.ofNat p.m_rating.toNat) := rfl
  have hconnected := toUint_ofNat_of_lt (by norm_num) htime.1
  have hattempted := toUint_ofNat_of_lt (by norm_num) htime.2
  have hword : ∀ w : BitVec 32, Rlp.toUint 32 (Rlp.ofNat w.toNat) = some w :=
    Rlp.toUint_ofNat (by norm_num)
  have hmod : ∀ t, t / Peer.second < 2 ^ 32 →
      (BitVec.ofNat 32 (t / Peer.second)).toNat = t / Peer.second := fun t ht => by
    rw [BitVec.toNat_ofNat, Nat.mod_eq_of_lt ht]
  rw [restoreEntry, hcount, if_neg (by omega), if_pos rfl]
  cases hreq : p.peerType with
  | Required =>
    have hone : Rlp.toUint 8 (Rlp.ofNat 1) = some 1 :=
      toUint_ofNat_of_lt (by norm_num) (by norm_num)
    simp [h4, h5, h6, h7, h8, h9, h10, hreq, hone, hconnected, hattempted, hword,
      hmod _ htime.1, hmod _ htime.2, Peer.kept]
  | Optional =>
    have hzero : Rlp.toUint 8 (Rlp.ofNat 0) = some 0 :=
      toUint_ofNat_of_lt (by norm_num) (by norm_num)
    have ha : p.endpoint.isAllowed test_allowLocal = true := hallowed.resolve_left (by simp [hreq])
    simp [h4, h5, h6, h7, h8, h9, h10, hreq, ha, hzero, hconnected, hattempted, hword,
      hmod _ htime.1, hmod _ htime.2, Peer.kept]

theorem restoreItem_peer {p : Peer} (hv4 : isV4 p.endpoint.address = true) (htime : p.InTime)
    (hallowed : p.peerType = .Required ∨ p.endpoint.isAllowed test_allowLocal = true) :
    g.restoreItem toArray test_allowLocal now isOpen p.streamRLP =
      some (g.restorePeer now isOpen p.kept) := by
  have hcount : Rlp.itemCount p.streamRLP = 11 := rfl
  have haddress : Rlp.get? p.streamRLP 0 = some (.data p.endpoint.address.bytes) := rfl
  have hid : Rlp.get? p.streamRLP 3 = some (.data p.id.bytes) := rfl
  have hendpoint : NodeIPEndpoint.interpretRLP p.streamRLP = some p.endpoint :=
    NodeIPEndpoint.interpretRLP_streamInline p.endpoint _
  have hsize : Rlp.size (.data p.endpoint.address.bytes) = 4 := size_of_isV4 hv4
  rw [restoreItem, haddress]
  simp [hsize, hcount, hid, hendpoint, restoreEntry_peer g now isOpen htime hallowed]

/-- The nodes of the file that are offered to the table. -/
def offered (test_allowLocal : Bool) (l : List NodeEntry) : List NodeTable.Op :=
  (l.filter fun n => isV4 n.endpoint.address && n.endpoint.isAllowed test_allowLocal).map
    fun n => .addNode n.id n.endpoint

theorem restoreItem_node (n : NodeEntry) :
    g.restoreItem toArray test_allowLocal now isOpen n.streamRLP =
      some { g with toTable := g.toTable ++ offered test_allowLocal [n] } := by
  have hcount : Rlp.itemCount n.streamRLP = 4 := rfl
  have haddress : Rlp.get? n.streamRLP 0 = some (.data n.endpoint.address.bytes) := rfl
  have hid : Rlp.get? n.streamRLP 3 = some (.data n.id.bytes) := rfl
  have hendpoint : NodeIPEndpoint.interpretRLP n.streamRLP = some n.endpoint :=
    NodeIPEndpoint.interpretRLP_streamInline n.endpoint _
  have hnone : Rlp.itemCount (.data n.endpoint.address.bytes) = 0 := rfl
  rw [restoreItem, haddress]
  by_cases hv4 : isV4 n.endpoint.address = true
  · have hsize : Rlp.size (.data n.endpoint.address.bytes) = 4 := size_of_isV4 hv4
    cases hallowed : n.endpoint.isAllowed test_allowLocal with
    | true => simp [hsize, hcount, hid, hendpoint, restoreEntry, hallowed, offered, hv4, ask]
    | false => simp [hsize, hcount, hid, hendpoint, restoreEntry, hallowed, offered]
  · have hsize : Rlp.size (.data n.endpoint.address.bytes) = 16 := size_of_not_isV4 hv4
    simp [hsize, hnone, offered, hv4]

/-- The peers of a file are added one after the other. -/
theorem foldlM_peers {l : List Peer} (h : ∀ p ∈ l, isV4 p.endpoint.address = true ∧ p.InTime ∧
      (p.peerType = .Required ∨ p.endpoint.isAllowed test_allowLocal = true)) :
    (l.map Peer.streamRLP).foldlM
        (fun g i => g.restoreItem toArray test_allowLocal now isOpen i) g =
      some (l.foldl (fun g p => g.restorePeer now isOpen p.kept) g) := by
  induction l generalizing g with
  | nil => rfl
  | cons p l ih =>
    obtain ⟨hv4, htime, hallowed⟩ := h p List.mem_cons_self
    rw [List.map_cons, List.foldlM_cons, restoreItem_peer g toArray now isOpen hv4 htime hallowed]
    exact ih _ fun q hq => h q (List.mem_cons_of_mem _ hq)

theorem foldlM_nodes (l : List NodeEntry) :
    (l.map NodeEntry.streamRLP).foldlM
        (fun g i => g.restoreItem toArray test_allowLocal now isOpen i) g =
      some { g with toTable := g.toTable ++ offered test_allowLocal l } := by
  induction l generalizing g with
  | nil => simp [offered]
  | cons n l ih =>
    have hsplit : offered test_allowLocal (n :: l) =
        offered test_allowLocal [n] ++ offered test_allowLocal l := by
      simp only [offered, ← List.map_append, ← List.filter_append, List.singleton_append]
    rw [List.map_cons, List.foldlM_cons, restoreItem_node, hsplit, ← List.append_assoc]
    exact ih _

end Entries

section Runs

variable (g : HostNetwork) (now : ℕ) (isOpen : Bool) (l : List Peer)

/-- The host after the peers of a file. -/
def addKept : HostNetwork := l.foldl (fun g p => g.restorePeer now isOpen p.kept) g

theorem lookup_addKept (k : Public) :
    (g.addKept now isOpen l).m_peers.lookup k =
      (lastOf k (l.map fun p => (p.id, p.kept))).or (g.m_peers.lookup k) := by
  induction l generalizing g with
  | nil => rfl
  | cons p l ih =>
    have hstep := lookup_restorePeer g now isOpen p.kept k
    rw [addKept, List.foldl_cons]
    refine (ih _).trans ?_
    have hid : p.kept.id = p.id := rfl
    rw [hstep, hid, List.map_cons, lastOf, Option.or_assoc]
    by_cases hk : k = p.id
    · rw [if_pos hk, if_pos hk, Option.some_or]
    · rw [if_neg hk, if_neg hk, Option.none_or]

theorem m_requiredPeers_addKept (k : Public) :
    (g.addKept now isOpen l).m_requiredPeers k =
      (g.m_requiredPeers k || l.any fun p => p.id = k && p.peerType = .Required) := by
  induction l generalizing g with
  | nil => simp [addKept]
  | cons p l ih =>
    rw [addKept, List.foldl_cons]
    refine (ih _).trans ?_
    rw [m_requiredPeers_restorePeer, List.any_cons, Bool.or_assoc]
    rfl

theorem toTable_addKept :
    (g.addKept now isOpen l).toTable = g.toTable ++ l.flatMap (g.asked now isOpen) := by
  induction l generalizing g with
  | nil => simp [addKept]
  | cons p l ih =>
    have hasked : (g.restorePeer now isOpen p.kept).asked now isOpen = g.asked now isOpen := by
      funext q
      rw [asked, m_run_restorePeer, asked]
    rw [addKept, List.foldl_cons]
    refine (ih _).trans ?_
    rw [toTable_restorePeer, hasked, List.flatMap_cons, List.append_assoc]
    rfl

end Runs

section Example

/-- A host that knows no peers. -/
def blank : HostNetwork where
  m_alias := .zero 32
  id := .zero 64
  started := true
  m_run := true
  m_dropPeers := false
  m_peers := ∅
  m_requiredPeers := fun _ => false
  toTable := []
  ids := fun _ _ h => absurd h (by simp)

def requiredPeer : Peer where
  id := NodeTable.nearId
  endpoint := NodeTable.publicEndpoint
  peerType := .Required

/-- A host that knows one peer. -/
def acquainted : HostNetwork := blank.setPeer requiredPeer

theorem inTime_requiredPeer : requiredPeer.InTime := ⟨by decide, by decide⟩

theorem inTime_acquainted {k : Public} {p : Peer} (hp : acquainted.m_peers.lookup k = some p) :
    p.InTime := by
  rw [acquainted, lookup_setPeer] at hp
  split_ifs at hp
  · rw [← Option.some.inj hp]
    exact inTime_requiredPeer
  · cases hp

end Example

section File

variable (h g : HostNetwork) (toArray : Item → Option (FixedHash 4)) (test_allowLocal : Bool)
  (saved now : ℕ) (isOpen : Bool) (m_nodeTable : Option NodeTable)

/-- The peer with an id, if it is saved. -/
def savedPeer (k : Public) : Option Peer :=
  (h.m_peers.lookup k).filter (h.isSaved test_allowLocal saved)

theorem savedPeer_eq_some {k : Public} {p : Peer} :
    h.savedPeer test_allowLocal saved k = some p ↔
      p ∈ h.savedPeers test_allowLocal saved ∧ p.id = k := by
  rw [savedPeer, Option.filter_eq_some_iff, savedPeers, List.mem_filter, List.mem_mergeSort, peers,
    List.mem_map]
  constructor
  · rintro ⟨hlook, hsaved⟩
    exact ⟨⟨⟨(k, p), mem_pairs.mpr hlook, rfl⟩, hsaved⟩, h.ids k p hlook⟩
  · rintro ⟨⟨⟨⟨k', q⟩, hmem, rfl⟩, hsaved⟩, rfl⟩
    have hlook := mem_pairs.mp hmem
    exact ⟨by rwa [h.ids k' q hlook], hsaved⟩

theorem lastOf_savedPeers (k : Public) :
    lastOf k ((h.savedPeers test_allowLocal saved).map fun p => (p.id, p.kept)) =
      (h.savedPeer test_allowLocal saved k).map Peer.kept := by
  have hmem : ∀ v, (k, v) ∈ (h.savedPeers test_allowLocal saved).map (fun p => (p.id, p.kept)) →
      ∃ p, h.savedPeer test_allowLocal saved k = some p ∧ p.kept = v := by
    intro v hv
    obtain ⟨p, hp, heq⟩ := List.mem_map.mp hv
    obtain ⟨hid, hkept⟩ := Prod.mk.inj heq
    exact ⟨p, (savedPeer_eq_some ..).mpr ⟨hp, hid⟩, hkept⟩
  cases hsaved : h.savedPeer test_allowLocal saved k with
  | none =>
    refine lastOf_eq_none fun v hv => ?_
    obtain ⟨p, hp, -⟩ := hmem v hv
    rw [hsaved] at hp
    cases hp
  | some q =>
    obtain ⟨hq, rfl⟩ := (savedPeer_eq_some ..).mp hsaved
    refine lastOf_eq (List.mem_map.mpr ⟨q, hq, rfl⟩) fun w hw => ?_
    obtain ⟨p, hp, rfl⟩ := hmem w hw
    rw [Option.some.inj (hsaved.symm.trans hp)]

theorem any_savedPeers (k : Public) :
    ((h.savedPeers test_allowLocal saved).any fun p => p.id = k && p.peerType = .Required) =
      (h.savedPeer test_allowLocal saved k).any fun p => p.peerType = .Required := by
  rw [Bool.eq_iff_iff, List.any_eq_true, Option.any_eq_true]
  constructor
  · rintro ⟨p, hp, htest⟩
    obtain ⟨hid, hreq⟩ := (Bool.and_eq_true_iff ..).mp htest
    exact ⟨p, (savedPeer_eq_some ..).mpr ⟨hp, of_decide_eq_true hid⟩, hreq⟩
  · rintro ⟨p, hsaved, hreq⟩
    obtain ⟨hp, rfl⟩ := (savedPeer_eq_some ..).mp hsaved
    exact ⟨p, hp, by simpa using hreq⟩

theorem isInt_version : isInt (Rlp.ofNat c_protocolVersion) = true := by decide

theorem toUint_version : Rlp.toUint 32 (Rlp.ofNat c_protocolVersion) = some 4 :=
  toUint_ofNat_of_lt (by norm_num) (by decide)

variable {h}

/-- What a saved peer passes on reading. -/
theorem of_mem_savedPeers {p : Peer} (hp : p ∈ h.savedPeers test_allowLocal saved) :
    h.m_peers.lookup p.id = some p ∧ isV4 p.endpoint.address = true ∧
      (p.peerType = .Required ∨ p.endpoint.isAllowed test_allowLocal = true) := by
  have hsaved := (savedPeer_eq_some ..).mpr ⟨hp, rfl⟩
  obtain ⟨hlook, htest⟩ := Option.filter_eq_some_iff.mp hsaved
  simp only [isSaved, Bool.and_eq_true, Bool.or_eq_true, decide_eq_true_eq] at htest
  exact ⟨hlook, htest.1.1.1.1, htest.2⟩

variable {g}

theorem restoreNetwork_file (hstarted : g.started = true) (hdrop : g.m_dropPeers = false)
    (key : Item) (items : List Item) :
    g.restoreNetwork toArray test_allowLocal now isOpen
        (Rlp.encode (.list [Rlp.ofNat c_protocolVersion, key, .list items])) =
      items.foldlM (fun g i => g.restoreItem toArray test_allowLocal now isOpen i) g := by
  have hversion : c_protocolVersion - 1 ≤ (4 : BitVec 32).toNat := by decide
  rw [restoreNetwork, if_neg (Rlp.encode_ne_nil _), hstarted, hdrop, Rlp.decodeStrict_encode]
  simp only [Bool.not_true, Bool.false_eq_true, if_false, Option.bind_eq_bind, Option.bind_some,
    Rlp.get?, List.getElem?_cons_zero, toUint_version, isInt_version, hversion, and_self, if_true,
    entriesOf, List.getElem?_cons_succ, DiscoveryDatagram.itemsOf, Option.getD_some]

/-- A host that starts with the file of another run knows the saved peers again, requires
those that were required, and offers the nodes to its table. -/
theorem restoreNetwork_saveNetwork (hstarted : g.started = true) (hdrop : g.m_dropPeers = false)
    (htime : ∀ k p, h.m_peers.lookup k = some p → p.InTime) :
    ∃ g', g.restoreNetwork toArray test_allowLocal now isOpen
        (h.saveNetwork test_allowLocal saved m_nodeTable) = some g' ∧
      (∀ k, g'.m_peers.lookup k =
        ((h.savedPeer test_allowLocal saved k).map Peer.kept).or (g.m_peers.lookup k)) ∧
      (∀ k, g'.m_requiredPeers k = (g.m_requiredPeers k ||
        (h.savedPeer test_allowLocal saved k).any fun p => p.peerType = .Required)) ∧
      g'.toTable = g.toTable ++
        (h.savedPeers test_allowLocal saved).flatMap (g.asked now isOpen) ++
        offered test_allowLocal (savedNodes m_nodeTable) := by
  have hpeers := foldlM_peers g toArray now isOpen (l := h.savedPeers test_allowLocal saved)
    fun p hp => by
      obtain ⟨hlook, hv4, hallowed⟩ := of_mem_savedPeers test_allowLocal saved hp
      exact ⟨hv4, htime _ _ hlook, hallowed⟩
  refine ⟨{ g.addKept now isOpen (h.savedPeers test_allowLocal saved) with
    toTable := (g.addKept now isOpen (h.savedPeers test_allowLocal saved)).toTable ++
      offered test_allowLocal (savedNodes m_nodeTable) }, ?_, fun k => ?_, fun k => ?_, ?_⟩
  · rw [saveNetwork, restoreNetwork_file toArray test_allowLocal now isOpen hstarted hdrop,
      List.foldlM_append, hpeers]
    exact foldlM_nodes _ toArray now isOpen _
  · rw [← lastOf_savedPeers]
    exact lookup_addKept g now isOpen _ k
  · rw [← any_savedPeers]
    exact m_requiredPeers_addKept g now isOpen _ k
  · exact congrArg (· ++ _) (toTable_addKept g now isOpen _)

theorem restoreNetwork_saveNetwork_onePeer :
    ∃ g', blank.restoreNetwork (fun _ => none) false 0 true (acquainted.saveNetwork false 0 none) =
        some g' ∧
      g'.m_peers.lookup NodeTable.nearId = some requiredPeer ∧
      g'.m_requiredPeers NodeTable.nearId = true := by
  have hsaved : acquainted.savedPeer false 0 NodeTable.nearId = some requiredPeer := by rfl
  obtain ⟨g', hg, hpeers, hrequired, -⟩ := restoreNetwork_saveNetwork (fun _ => none) false 0 0 true
    none (g := blank) rfl rfl fun _ _ => inTime_acquainted
  refine ⟨g', hg, ?_, ?_⟩
  · rw [hpeers, hsaved]
    rfl
  · rw [hrequired, hsaved]
    rfl

/-- A host that starts with its file keeps its key. -/
theorem networkAlias_saveNetwork (create : Secret) :
    networkAlias create (h.saveNetwork test_allowLocal saved m_nodeTable) = some h.m_alias := by
  have hne : h.saveNetwork test_allowLocal saved m_nodeTable ≠ [] := Rlp.encode_ne_nil _
  rw [networkAlias, if_neg hne, saveNetwork, Rlp.decodeStrict_encode]
  simp [Rlp.get?, Rlp.itemCount, isInt_version, toUint_version, Rlp.toBytes]

end File

section AnyFile

variable {g g' g'' : HostNetwork} {toArray : Item → Option (FixedHash 4)} {test_allowLocal : Bool}
  {now : ℕ} {isOpen : Bool}

/-- What one entry of a file can do. -/
theorem restoreEntry_cases {i : Item} {n : ℕ} {id : Public} {endpoint : NodeIPEndpoint}
    (h : g.restoreEntry test_allowLocal now isOpen i n id endpoint = some g') :
    g' = g ∨
      (endpoint.isAllowed test_allowLocal = true ∧ g' = g.ask (.addNode id endpoint)) ∨
      ∃ p : Peer, (p.peerType = .Required ∨ p.endpoint.isAllowed test_allowLocal = true) ∧
        g' = g.restorePeer now isOpen p := by
  unfold restoreEntry at h
  simp only at h
  split_ifs at h with hnode hpeer
  · exact .inr (.inl ⟨hnode.2, (Option.some.inj h).symm⟩)
  · simp only [Option.bind_eq_bind, Option.bind_eq_some_iff] at h
    obtain ⟨required, -, h⟩ := h
    generalize (if required ≠ 0 then PeerType.Required else PeerType.Optional) = peerType at h
    split_ifs at h with hskip
    · exact .inl (Option.some.inj h).symm
    · simp only [Option.bind_eq_some_iff] at h
      obtain ⟨_, -, _, -, _, -, _, -, _, -, _, -, h⟩ := h
      refine .inr (.inr ⟨_, ?_, (Option.some.inj h).symm⟩)
      cases peerType with
      | Required => exact .inl rfl
      | Optional => exact .inr (by simpa using hskip)
  · exact .inl (Option.some.inj h).symm

theorem restoreItem_cases {i : Item}
    (h : g.restoreItem toArray test_allowLocal now isOpen i = some g') :
    g' = g ∨
      (∃ id, ∃ endpoint : NodeIPEndpoint, endpoint.isAllowed test_allowLocal = true ∧
        g' = g.ask (.addNode id endpoint)) ∨
      ∃ p : Peer, (p.peerType = .Required ∨ p.endpoint.isAllowed test_allowLocal = true) ∧
        g' = g.restorePeer now isOpen p := by
  unfold restoreItem at h
  split at h
  · exact .inl (Option.some.inj h).symm
  · simp only [Option.bind_eq_bind] at h
    split_ifs at h
    · exact .inl (Option.some.inj h).symm
    · obtain ⟨id, -, h⟩ := Option.bind_eq_some_iff.mp h
      obtain ⟨endpoint, -, h⟩ := Option.bind_eq_some_iff.mp h
      exact (restoreEntry_cases h).imp_right (Or.imp_left fun hnode => ⟨id, endpoint, hnode⟩)
    · obtain ⟨id, -, h⟩ := Option.bind_eq_some_iff.mp h
      obtain ⟨v4, -, h⟩ := Option.bind_eq_some_iff.mp h
      obtain ⟨port, -, h⟩ := Option.bind_eq_some_iff.mp h
      exact (restoreEntry_cases h).imp_right (Or.imp_left fun hnode => ⟨id, _, hnode⟩)
    · exact .inl (Option.some.inj h).symm

/-- A file may ask the table for nodes with public addresses and for required peers. -/
def MayAsk (test_allowLocal : Bool) (g : HostNetwork) : NodeTable.Op → Prop
  | .addNode id endpoint =>
    endpoint.isAllowed test_allowLocal = true ∨ g.m_requiredPeers id = true
  | .addKnownNode _ endpoint _ _ => endpoint.isAllowed test_allowLocal = true
  | _ => False

theorem MayAsk.mono (hreq : ∀ k, g.m_requiredPeers k = true → g'.m_requiredPeers k = true)
    {op : NodeTable.Op} (h : MayAsk test_allowLocal g op) : MayAsk test_allowLocal g' op := by
  cases op with
  | addNode id endpoint => exact Or.imp_right (hreq id) h
  | addKnownNode => exact h
  | _ => exact h.elim

/-- What a file can do to a host, whatever is in it: no peer and no requirement is lost, and a
peer that is new or changed is required or has a public address, as has every node that the
table is asked for. -/
structure Restored (test_allowLocal : Bool) (g g' : HostNetwork) : Prop where
  known : ∀ k, (g.m_peers.lookup k).isSome → (g'.m_peers.lookup k).isSome
  required : ∀ k, g.m_requiredPeers k = true → g'.m_requiredPeers k = true
  fresh : ∀ k p, g'.m_peers.lookup k = some p → g.m_peers.lookup k = some p ∨
    (p.peerType = .Required ∧ g'.m_requiredPeers k = true) ∨
    p.endpoint.isAllowed test_allowLocal = true
  asked : ∃ ops, g'.toTable = g.toTable ++ ops ∧ ∀ op ∈ ops, MayAsk test_allowLocal g' op

namespace Restored

theorem refl : Restored test_allowLocal g g :=
  ⟨fun _ h => h, fun _ h => h, fun _ _ h => .inl h, [], by simp⟩

theorem trans (h : Restored test_allowLocal g g') (h' : Restored test_allowLocal g' g'') :
    Restored test_allowLocal g g'' where
  known k hk := h'.known k (h.known k hk)
  required k hk := h'.required k (h.required k hk)
  fresh k p hp := by
    rcases h'.fresh k p hp with hbefore | hnew
    · rcases h.fresh k p hbefore with hold | ⟨hreq, hk⟩ | hallowed
      · exact .inl hold
      · exact .inr (.inl ⟨hreq, h'.required k hk⟩)
      · exact .inr (.inr hallowed)
    · exact .inr hnew
  asked := by
    obtain ⟨ops, htable, hops⟩ := h.asked
    obtain ⟨ops', htable', hops'⟩ := h'.asked
    refine ⟨ops ++ ops', by rw [htable', htable, List.append_assoc], fun op hop => ?_⟩
    rcases List.mem_append.mp hop with hop | hop
    · exact (hops op hop).mono h'.required
    · exact hops' op hop

theorem restorePeer {p : Peer}
    (hp : p.peerType = .Required ∨ p.endpoint.isAllowed test_allowLocal = true) :
    Restored test_allowLocal g (g.restorePeer now isOpen p) where
  known k hk := by
    rw [lookup_restorePeer]
    split_ifs
    · rfl
    · exact hk
  required k hk := by rw [m_requiredPeers_restorePeer, hk, Bool.true_or]
  fresh k q hq := by
    rw [lookup_restorePeer] at hq
    split_ifs at hq with hk
    · obtain rfl := Option.some.inj hq
      refine .inr (hp.imp_left fun hreq => ⟨hreq, ?_⟩)
      simp [m_requiredPeers_restorePeer, hk, hreq]
    · exact .inl hq
  asked := by
    refine ⟨_, toTable_restorePeer .., fun op hop => ?_⟩
    rw [HostNetwork.asked] at hop
    split_ifs at hop with hreq
    · obtain rfl := List.mem_singleton.mp hop
      refine .inr ?_
      simp [m_requiredPeers_restorePeer, hreq]
    · cases hop
    · obtain rfl := List.mem_singleton.mp hop
      exact hp.resolve_left hreq

theorem restoreItem {i : Item}
    (h : g.restoreItem toArray test_allowLocal now isOpen i = some g') :
    Restored test_allowLocal g g' := by
  obtain rfl | ⟨id, endpoint, hallowed, rfl⟩ | ⟨p, hp, rfl⟩ := restoreItem_cases h
  · exact refl
  · refine ⟨fun _ h => h, fun _ h => h, fun _ _ h => .inl h, [.addNode id endpoint], rfl, ?_⟩
    intro op hop
    obtain rfl := List.mem_singleton.mp hop
    exact .inl hallowed
  · exact restorePeer hp

theorem foldlM {l : List Item}
    (h : l.foldlM (fun g i => g.restoreItem toArray test_allowLocal now isOpen i) g = some g') :
    Restored test_allowLocal g g' := by
  induction l generalizing g with
  | nil =>
    obtain rfl := Option.some.inj h
    exact refl
  | cons i l ih =>
    rw [List.foldlM_cons] at h
    obtain ⟨g₁, hi, hl⟩ := Option.bind_eq_some_iff.mp h
    exact (restoreItem hi).trans (ih hl)

end Restored

end AnyFile

end HostNetwork

end P2P

end XChain
