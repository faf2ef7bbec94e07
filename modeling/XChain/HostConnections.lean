import Mathlib.Data.Finset.Image
import XChain.NetworkFile

/-!
# The connections of the host

At every tick of its timer the host connects to the peers that it knows: first to the required
ones, and then to others while it has open slots. The slots are counted down past zero, so
that one peer is left out and those behind it are connected to again. The number of sessions
stays within the slots all the same, as a session is only started where there is room.
-/
namespace XChain

namespace P2P

namespace DisconnectReason

def TCPError : BitVec 32 := 1

def BadProtocol : BitVec 32 := 2

def UselessPeer : BitVec 32 := 3

def TooManyPeers : BitVec 32 := 4

def ClientQuit : BitVec 32 := 8

end DisconnectReason

namespace Peer

open DisconnectReason in
/-- Seconds until the peer is tried again. -/
def fallbackSeconds (p : Peer) : BitVec 32 :=
  if p.peerType = .Required then 5
  else if p.m_lastDisconnect = BadProtocol then 30 * (p.m_failedAttempts + 1)
  else if p.m_lastDisconnect = UselessPeer ∨ p.m_lastDisconnect = TooManyPeers then
    25 * (p.m_failedAttempts + 1)
  else if p.m_lastDisconnect = ClientQuit then 15 * (p.m_failedAttempts + 1)
  else if p.m_failedAttempts < 5 then
    if p.m_failedAttempts ≠ 0 then p.m_failedAttempts * 5 else 5
  else if p.m_failedAttempts < 15 then 25 + (p.m_failedAttempts - 5) * 10
  else 25 + 100 + (p.m_failedAttempts - 15) * 20

def shouldReconnect (p : Peer) (now : ℕ) : Bool :=
  p.id.isSet && p.endpoint.isSet && p.m_lastAttempted + p.fallbackSeconds.toNat * second < now

end Peer

inductive PeerSlotType where
  | Egress
  | Ingress

/-- The sessions that are alive, with whether they are connected, the peers and the attempts
to connect to them. -/
structure Connections where
  m_run : Bool
  pin : Bool
  m_idealPeerCount : BitVec 32
  m_stretchPeers : BitVec 32
  m_peers : List Peer
  m_requiredPeers : Public → Bool
  m_sessions : AList fun _ : Public => Bool
  m_pendingPeerConns : Finset Public

namespace Connections

section Operations

variable (c : Connections) (haveNode : Public → Bool) (now : ℕ)

def peerCount : ℕ := countValues (fun isConnected => isConnected) c.m_sessions

def peerSlots : PeerSlotType → ℕ
  | .Egress => c.m_idealPeerCount.toNat
  | .Ingress => (c.m_idealPeerCount * c.m_stretchPeers).toNat

def peerSlotsAvailable (type : PeerSlotType) : Bool :=
  c.peerCount + c.m_pendingPeerConns.card < c.peerSlots type

def havePeerSession (id : Public) : Bool := (c.m_sessions.lookup id).isSome

/-- Changes the peer with an id. -/
def setPeer (id : Public) (f : Peer → Peer) : Connections :=
  { c with m_peers := c.m_peers.map fun p => if p.id = id then f p else p }

/-- Begins to connect to a peer. -/
def connect (p : Peer) : Connections :=
  if !c.m_run then c
  else if c.havePeerSession p.id then c
  else if !haveNode p.id ∧ p.peerType = .Optional then c
  else if p.id ∈ c.m_pendingPeerConns then c
  else
    { c.setPeer p.id fun p => { p with m_lastAttempted := now } with
      m_pendingPeerConns := insert p.id c.m_pendingPeerConns }

/-- The end of an attempt. When it succeeded a handshake begins. -/
def onConnect (id : Public) (failed : Bool) : Connections :=
  { c.setPeer id fun p =>
      { p with
        m_lastAttempted := now
        m_failedAttempts := p.m_failedAttempts + 1
        m_lastDisconnect := if failed then DisconnectReason.TCPError else p.m_lastDisconnect } with
    m_pendingPeerConns := c.m_pendingPeerConns.erase id }

/-- The required peers with a session. -/
def reqConn : ℕ := c.m_peers.countP fun p => c.havePeerSession p.id && p.peerType = .Required

def toConnect : List Peer :=
  c.m_peers.filter fun p =>
    !c.havePeerSession p.id && p.shouldReconnect now && (!c.pin || p.peerType = .Required)

/-- The first loop: connects while fewer required peers than the ideal number are counted. -/
def connectRequired : List Peer → ℕ → Connections → Connections × ℕ
  | [], reqConn, c => (c, reqConn)
  | p :: l, reqConn, c =>
    if p.peerType = .Required then
      connectRequired l (reqConn + 1)
        (if reqConn < c.m_idealPeerCount.toNat then c.connect haveNode now p else c)
    else connectRequired l reqConn c

/-- The second loop: a number of open slots that is not zero counts as true. -/
def connectOptional : List Peer → ℤ → Connections → Connections
  | [], _, c => c
  | p :: l, openSlots, c =>
    if p.peerType = .Optional then
      connectOptional l (openSlots - 1) (if openSlots ≠ 0 then c.connect haveNode now p else c)
    else connectOptional l openSlots c

/-- The host after the first loop. -/
def afterRequired : Connections × ℕ :=
  connectRequired haveNode now (c.toConnect now) c.reqConn c

/-- As an `int`. -/
def openSlots : ℤ :=
  let r := c.afterRequired haveNode now
  (BitVec.ofInt 32 (r.1.m_idealPeerCount.toNat - r.1.peerCount - r.1.m_pendingPeerConns.card +
    r.2)).toInt

def run : Connections :=
  if !c.m_run then c
  else if c.pin then (c.afterRequired haveNode now).1
  else if 0 < c.openSlots haveNode now then
    connectOptional haveNode now (c.toConnect now) (c.openSlots haveNode now)
      (c.afterRequired haveNode now).1
  else (c.afterRequired haveNode now).1

/-- A peer has said hello; it suits if its version and its capabilities do. -/
def startPeerSession (id : Public) (suits : Bool) : Connections :=
  if !suits then c
  else if c.pin && !c.m_requiredPeers id then c
  else if c.m_sessions.lookup id = some true then c
  else if !c.peerSlotsAvailable .Ingress then c
  else { c with m_sessions := c.m_sessions.insert id true }

/-- A session loses its connection. -/
def drop (id : Public) : Connections :=
  if c.havePeerSession id then { c with m_sessions := c.m_sessions.insert id false } else c

/-- A session without users is destroyed. -/
def expire (id : Public) : Connections := { c with m_sessions := c.m_sessions.erase id }

/-- A host that starts. -/
def start (ideal stretch : BitVec 32) (pin : Bool) (peers : List Peer)
    (required : Public → Bool) : Connections where
  m_run := true
  pin := pin
  m_idealPeerCount := ideal
  m_stretchPeers := stretch
  m_peers := peers
  m_requiredPeers := required
  m_sessions := ∅
  m_pendingPeerConns := ∅

end Operations

section Loops

variable (c : Connections) (haveNode : Public → Bool) (now : ℕ) (p : Peer)

@[simp] theorem m_run_connect : (c.connect haveNode now p).m_run = c.m_run := by
  unfold connect
  split_ifs <;> rfl

@[simp] theorem m_sessions_connect : (c.connect haveNode now p).m_sessions = c.m_sessions := by
  unfold connect
  split_ifs <;> rfl

@[simp] theorem peerSlots_connect (type : PeerSlotType) :
    (c.connect haveNode now p).peerSlots type = c.peerSlots type := by
  unfold connect
  split_ifs <;> rfl

variable {c p}

theorem pending_connect (hrun : c.m_run = true) (hfree : c.havePeerSession p.id = false) :
    (c.connect haveNode now p).m_pendingPeerConns =
      if haveNode p.id = true ∨ p.peerType = .Required then insert p.id c.m_pendingPeerConns
      else c.m_pendingPeerConns := by
  have htype : p.peerType = .Optional ↔ ¬p.peerType = .Required := by
    cases p.peerType <;> simp
  by_cases hnode : haveNode p.id = true ∨ p.peerType = .Required
  · have hknown : ¬((!haveNode p.id) = true ∧ p.peerType = .Optional) := by
      rw [htype]
      rcases hnode with hnode | hreq
      · simp [hnode]
      · simp [hreq]
    rw [connect, if_neg (by simp [hrun]), if_neg (by simp [hfree]), if_neg hknown, if_pos hnode]
    split_ifs with hpending
    · exact (Finset.insert_eq_of_mem hpending).symm
    · rfl
  · have hunknown : (!haveNode p.id) = true ∧ p.peerType = .Optional := by
      rw [htype]
      simpa using not_or.mp hnode
    rw [connect, if_neg (by simp [hrun]), if_neg (by simp [hfree]), if_pos hunknown, if_neg hnode]

variable (c)

/-- The peers that are not required. -/
def optionals (l : List Peer) : List Peer := l.filter fun p => p.peerType = .Optional

theorem optionals_cons_of_pos {l : List Peer} (hp : p.peerType = .Optional) :
    optionals (p :: l) = p :: optionals l := by
  simp [optionals, hp]

theorem optionals_cons_of_neg {l : List Peer} (hp : ¬p.peerType = .Optional) :
    optionals (p :: l) = optionals l := by
  simp [optionals, hp]

/-- Connects to the peers one after the other. -/
def connectAll (l : List Peer) : Connections := l.foldl (fun c p => c.connect haveNode now p) c

variable {c}

theorem pending_connectAll {l : List Peer} (hrun : c.m_run = true)
    (hfree : ∀ p ∈ l, c.havePeerSession p.id = false) :
    (c.connectAll haveNode now l).m_pendingPeerConns = c.m_pendingPeerConns ∪
      ((l.filter fun p => haveNode p.id = true ∨ p.peerType = .Required).map Peer.id).toFinset := by
  induction l generalizing c with
  | nil => simp [connectAll]
  | cons p l ih =>
    have hp := pending_connect haveNode now hrun (hfree p List.mem_cons_self)
    have hl : ∀ q ∈ l, (c.connect haveNode now p).havePeerSession q.id = false := by
      intro q hq
      rw [havePeerSession, m_sessions_connect]
      exact hfree q (List.mem_cons_of_mem _ hq)
    have ih := ih (c := c.connect haveNode now p) (by rwa [m_run_connect]) hl
    rw [connectAll, List.foldl_cons]
    refine ih.trans ?_
    rw [hp, List.filter_cons]
    by_cases hnode : haveNode p.id = true ∨ p.peerType = .Required
    · simp [hnode]
    · simp [hnode]

variable (c)

/-- Below zero every number of slots counts as true. -/
theorem connectOptional_of_neg (l : List Peer) {s : ℤ} (hs : s < 0) :
    connectOptional haveNode now l s c =
      c.connectAll haveNode now (optionals l) := by
  induction l generalizing c s with
  | nil => rfl
  | cons p l ih =>
    by_cases hp : p.peerType = .Optional
    · rw [connectOptional, if_pos hp, if_pos hs.ne, ih _ (by omega),
        optionals_cons_of_pos hp]
      rfl
    · rw [connectOptional, if_neg hp, ih _ hs, optionals_cons_of_neg hp]

/-- The slots are counted down past zero: only the peer that finds none is left out. -/
theorem connectOptional_eq (l : List Peer) (s : ℕ) :
    connectOptional haveNode now l s c =
      c.connectAll haveNode now ((optionals l).eraseIdx s) := by
  induction l generalizing c s with
  | nil => rfl
  | cons p l ih =>
    by_cases hp : p.peerType = .Optional
    · rw [connectOptional, if_pos hp, optionals_cons_of_pos hp]
      cases s with
      | zero => exact connectOptional_of_neg c haveNode now l (by decide)
      | succ s =>
        have hpred : ((s + 1 : ℕ) : ℤ) - 1 = s := by omega
        rw [if_pos (by omega), hpred, ih]
        rfl
    · rw [connectOptional, if_neg hp, ih, optionals_cons_of_neg hp]

/-- The first loop changes neither sessions nor settings. -/
theorem connectRequired_frame (l : List Peer) (reqConn : ℕ) :
    (connectRequired haveNode now l reqConn c).1.m_run = c.m_run ∧
      (connectRequired haveNode now l reqConn c).1.m_sessions = c.m_sessions ∧
      ∀ type, (connectRequired haveNode now l reqConn c).1.peerSlots type = c.peerSlots type := by
  induction l generalizing c reqConn with
  | nil => exact ⟨rfl, rfl, fun _ => rfl⟩
  | cons p l ih =>
    unfold connectRequired
    split_ifs
    · simpa using ih (c.connect haveNode now p) (reqConn + 1)
    · exact ih c (reqConn + 1)
    · exact ih c reqConn

theorem connectAll_frame (l : List Peer) :
    (c.connectAll haveNode now l).m_sessions = c.m_sessions ∧
      ∀ type, (c.connectAll haveNode now l).peerSlots type = c.peerSlots type := by
  induction l generalizing c with
  | nil => exact ⟨rfl, fun _ => rfl⟩
  | cons p l ih =>
    obtain ⟨hsessions, hslots⟩ := ih (c.connect haveNode now p)
    exact ⟨hsessions.trans (m_sessions_connect ..), fun type =>
      (hslots type).trans (peerSlots_connect ..)⟩

/-- The peers that are tried in the second loop: all that are not required, but for the one
that finds no slot. -/
def tried : List Peer :=
  (optionals (c.toConnect now)).eraseIdx (c.openSlots haveNode now).toNat

theorem connectOptional_openSlots (hslots : 0 < c.openSlots haveNode now) :
    connectOptional haveNode now (c.toConnect now) (c.openSlots haveNode now)
        (c.afterRequired haveNode now).1 =
      (c.afterRequired haveNode now).1.connectAll haveNode now (c.tried haveNode now) := by
  rw [tried, ← connectOptional_eq, Int.toNat_of_nonneg hslots.le]

theorem run_cases :
    c.run haveNode now = c ∨ c.run haveNode now = (c.afterRequired haveNode now).1 ∨
      c.run haveNode now =
        (c.afterRequired haveNode now).1.connectAll haveNode now (c.tried haveNode now) := by
  unfold run
  split_ifs with hrun hpin hslots
  · exact .inl rfl
  · exact .inr (.inl rfl)
  · exact .inr (.inr (connectOptional_openSlots c haveNode now hslots))
  · exact .inr (.inl rfl)

variable {c} in
theorem of_mem_tried (hp : p ∈ c.tried haveNode now) :
    c.havePeerSession p.id = false ∧ p.peerType = .Optional := by
  obtain ⟨hmem, htype⟩ := List.mem_filter.mp (List.mem_of_mem_eraseIdx hp)
  have htest := (List.mem_filter.mp hmem).2
  simp only [Bool.and_eq_true, Bool.not_eq_true'] at htest
  exact ⟨htest.1.1, of_decide_eq_true htype⟩

/-- While there are open slots, a host that is not pinned tries all other peers but one. -/
theorem pending_of_run (hrun : c.m_run = true) (hpin : c.pin = false)
    (hslots : 0 < c.openSlots haveNode now) :
    (c.run haveNode now).m_pendingPeerConns =
      (c.afterRequired haveNode now).1.m_pendingPeerConns ∪
        (((c.tried haveNode now).filter fun p => haveNode p.id).map Peer.id).toFinset := by
  obtain ⟨hrun', hsessions, -⟩ := connectRequired_frame c haveNode now (c.toConnect now) c.reqConn
  have hrunning : (c.afterRequired haveNode now).1.m_run = true := hrun'.trans hrun
  have hfree : ∀ p ∈ c.tried haveNode now,
      (c.afterRequired haveNode now).1.havePeerSession p.id = false := by
    intro p hp
    rw [havePeerSession, afterRequired, hsessions]
    exact (of_mem_tried haveNode now hp).1
  have hfilter : (c.tried haveNode now).filter
      (fun p => haveNode p.id = true ∨ p.peerType = .Required) =
      (c.tried haveNode now).filter fun p => haveNode p.id := by
    refine List.filter_congr fun p hp => ?_
    simp [(of_mem_tried haveNode now hp).2]
  rw [run, hrun, hpin, if_neg (by decide), if_neg (by decide), if_pos hslots,
    connectOptional_openSlots c haveNode now hslots,
    pending_connectAll haveNode now hrunning hfree, hfilter]

end Loops

section Example

def peerAt (k : UInt8) : Peer where
  id := .ofRef 64 (k :: List.replicate 63 0)
  endpoint := NodeTable.publicEndpoint

/-- Three peers and one slot. -/
def oneSlot : Connections := start 1 1 false [peerAt 1, peerAt 2, peerAt 3] fun _ => false

theorem pending_of_run_oneSlot :
    (oneSlot.run (fun _ => true) (10 ^ 10)).m_pendingPeerConns =
      {(peerAt 1).id, (peerAt 3).id} := by
  have hslots : 0 < oneSlot.openSlots (fun _ => true) (10 ^ 10) := by decide
  rw [pending_of_run oneSlot _ _ rfl rfl hslots]
  decide

end Example

section Runs

/-- What happens to the connections. Other parts of the host change its peers. -/
inductive Event where
  | run (haveNode : Public → Bool) (now : ℕ)
  | onConnect (id : Public) (now : ℕ) (failed : Bool)
  | startPeerSession (id : Public) (suits : Bool)
  | drop (id : Public)
  | expire (id : Public)
  | change (peers : List Peer) (required : Public → Bool)

def step (c : Connections) : Event → Connections
  | .run haveNode now => c.run haveNode now
  | .onConnect id now failed => c.onConnect now id failed
  | .startPeerSession id suits => c.startPeerSession id suits
  | .drop id => c.drop id
  | .expire id => c.expire id
  | .change peers required => { c with m_peers := peers, m_requiredPeers := required }

variable (c : Connections)

theorem run_frame (haveNode : Public → Bool) (now : ℕ) :
    (c.run haveNode now).m_sessions = c.m_sessions ∧
      ∀ type, (c.run haveNode now).peerSlots type = c.peerSlots type := by
  obtain ⟨-, hsessions, hslots⟩ := connectRequired_frame c haveNode now (c.toConnect now) c.reqConn
  obtain hrun | hrun | hrun := run_cases c haveNode now
  · rw [hrun]
    exact ⟨rfl, fun _ => rfl⟩
  · rw [hrun]
    exact ⟨hsessions, hslots⟩
  · obtain ⟨hsessions', hslots'⟩ := connectAll_frame (c.afterRequired haveNode now).1 haveNode now
      (c.tried haveNode now)
    rw [hrun]
    exact ⟨hsessions'.trans hsessions, fun type => (hslots' type).trans (hslots type)⟩

theorem peerSlots_step (e : Event) (type : PeerSlotType) :
    (c.step e).peerSlots type = c.peerSlots type := by
  cases e with
  | run haveNode now => exact (run_frame c haveNode now).2 type
  | startPeerSession id suits =>
    simp only [step, startPeerSession]
    split_ifs <;> rfl
  | drop id =>
    simp only [step, drop]
    split_ifs <;> rfl
  | _ => rfl

theorem peerCount_erase_le (id : Public) : (c.expire id).peerCount ≤ c.peerCount := by
  cases hlook : c.m_sessions.lookup id with
  | none => rw [expire, erase_of_lookup_eq_none c.m_sessions id hlook]
  | some b =>
    have hcount := countValues_erase (fun isConnected => isConnected) c.m_sessions id hlook
    simp only [peerCount, expire]
    omega

/-- A session starts only where there is room for it. -/
theorem peerCount_step {e : Event} (h : c.peerCount ≤ c.peerSlots .Ingress) :
    (c.step e).peerCount ≤ c.peerSlots .Ingress := by
  cases e with
  | run haveNode now =>
    simp only [step, peerCount, (run_frame c haveNode now).1]
    exact h
  | onConnect id now failed => exact h
  | startPeerSession id suits =>
    simp only [step, startPeerSession]
    split_ifs with _ _ hconnected hroom
    · exact h
    · exact h
    · exact h
    · exact h
    · have hinsert := countValues_insert (fun isConnected => isConnected) c.m_sessions id true
      have herase := peerCount_erase_le c id
      simp only [peerSlotsAvailable, Bool.not_eq_true', decide_eq_false_iff_not, not_not] at hroom
      simp only [peerCount, expire] at herase hroom ⊢
      simp only [if_true] at hinsert
      omega
  | drop id =>
    simp only [step, drop]
    split_ifs
    · have hinsert := countValues_insert (fun isConnected => isConnected) c.m_sessions id false
      have herase := peerCount_erase_le c id
      simp only [peerCount, expire] at herase h ⊢
      simp only [Bool.false_eq_true, if_false] at hinsert
      omega
    · exact h
  | expire id => exact (peerCount_erase_le c id).trans h
  | change peers required => exact h

/-- After any events the number of sessions is within the slots. -/
theorem peerCount_after (ideal stretch : BitVec 32) (pin : Bool) (peers : List Peer)
    (required : Public → Bool) (events : List Event) :
    (events.foldl step (start ideal stretch pin peers required)).peerCount ≤
      (ideal * stretch).toNat := by
  have hrun : ∀ c : Connections, c.peerCount ≤ c.peerSlots .Ingress →
      (events.foldl step c).peerCount ≤ c.peerSlots .Ingress := by
    induction events with
    | nil => exact fun _ h => h
    | cons e events ih =>
      intro c h
      have hnext := ih (c.step e) (by rw [peerSlots_step]; exact peerCount_step c h)
      rwa [peerSlots_step] at hnext
  exact hrun _ (Nat.zero_le _)

end Runs

end Connections

end P2P

end XChain
