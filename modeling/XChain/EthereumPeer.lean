import XChain.BlockHeader
import XChain.Requester

/-!
# What a peer is asked for

A peer of the protocol is asked for headers, bodies, receipts and node data, and what it was
asked for last is remembered until a reply to it or a status comes. A reply is handed on only
when the peer was asked for it last. What the observer asks for while it looks at a packet is a
request after the packet: nothing happens to the peer between the two.
-/
namespace XChain

open Rlp

inductive SubprotocolPacketType where
  | StatusPacket
  | NewBlockHashesPacket
  | TransactionsPacket
  | GetBlockHeadersPacket
  | BlockHeadersPacket
  | GetBlockBodiesPacket
  | BlockBodiesPacket
  | NewBlockPacket
  | GetNodeDataPacket
  | NodeDataPacket
  | GetReceiptsPacket
  | ReceiptsPacket
  deriving DecidableEq

def SubprotocolPacketType.ofId : ℕ → Option SubprotocolPacketType
  | 0x00 => some .StatusPacket
  | 0x01 => some .NewBlockHashesPacket
  | 0x02 => some .TransactionsPacket
  | 0x03 => some .GetBlockHeadersPacket
  | 0x04 => some .BlockHeadersPacket
  | 0x05 => some .GetBlockBodiesPacket
  | 0x06 => some .BlockBodiesPacket
  | 0x07 => some .NewBlockPacket
  | 0x0d => some .GetNodeDataPacket
  | 0x0e => some .NodeDataPacket
  | 0x0f => some .GetReceiptsPacket
  | 0x10 => some .ReceiptsPacket
  | _ => none

inductive Asking where
  | State
  | BlockHeaders
  | BlockBodies
  | NodeData
  | Receipts
  | Nothing
  deriving DecidableEq

structure EthereumPeer where
  hostProtocolVersion : BitVec 32
  protocolVersion : BitVec 32
  networkId : Word
  totalDifficulty : Word
  latestHash : H256
  genesisHash : H256
  peerCapabilityVersion : Word
  asking : Asking
  lastAskedHeaders : BitVec 32

/-- A packet for the peer: its entries and their number. -/
structure PeerPacket where
  type : SubprotocolPacketType
  count : ℕ
  payload : Bytes

/-- What a call or a packet leads to besides a change of the peer. -/
inductive PeerEffect where
  | send (packet : PeerPacket)
  | addRating (r : ℤ)
  | disable (problem : String)
  | onPeerStatus
  | onPeerTransactions (r : Item)
  | onPeerBlockHeaders (r : Item)
  | onPeerBlockBodies (r : Item)
  | onPeerNewHashes (hashes : List (H256 × Word))
  | onPeerNewBlock (r : Item)
  | onPeerNodeData (r : Item)
  | onPeerReceipts (r : Item)

/-- The kind of a reply that is handed on. -/
def PeerEffect.reply : PeerEffect → Option Asking
  | .onPeerBlockHeaders _ => some .BlockHeaders
  | .onPeerBlockBodies _ => some .BlockBodies
  | .onPeerNodeData _ => some .NodeData
  | .onPeerReceipts _ => some .Receipts
  | _ => none

/-- Hands on a reply or a status. -/
def PeerEffect.isProcessed : PeerEffect → Bool
  | .onPeerStatus => true
  | x => x.reply.isSome

/-- Where the host finds what a peer asks for; nothing when it throws. -/
structure HostData where
  blockHeaders : Item → ℕ → ℕ → Bool → Option (Bytes × ℕ)
  blockBodies : Item → Option (Bytes × ℕ)
  nodeData : Item → Option (List Bytes)
  receipts : Item → Option (Bytes × ℕ)

/-- The functions of a peer that other code defines. Of the two that ask for headers it is the
one that starts at a number. -/
structure PeerCode where
  setIdle : EthereumPeer → EthereumPeer
  requestStatus : EthereumPeer → Word → Word → H256 → H256 → EthereumPeer × List PeerPacket
  requestBlockHeaders :
    EthereumPeer → BitVec 32 → BitVec 32 → BitVec 32 → Bool → EthereumPeer × List PeerPacket

/-- They leave behind what they are called for. -/
structure PeerCode.Lawful (m : PeerCode) : Prop where
  setIdle : ∀ p, (m.setIdle p).asking = .Nothing
  requestStatus : ∀ p networkId td currentHash genesisHash,
    (m.requestStatus p networkId td currentHash genesisHash).1.asking = .State
  requestBlockHeaders : ∀ p startNumber count skip reverse,
    (m.requestBlockHeaders p startNumber count skip reverse).1.asking = .BlockHeaders

namespace EthereumPeer

def c_maxIncomingNewHashes : ℕ := 1024

def c_maxHeadersToSend : ℕ := 1024

variable (m : PeerCode) (d : HostData) (p : EthereumPeer)

def setAsking (a : Asking) : EthereumPeer := { p with asking := a }

/-- Asks for headers from the block with a hash. -/
def requestBlockHeaders (startHash : H256) (count skip : BitVec 32) (reverse : Bool) :
    EthereumPeer × List PeerEffect :=
  let payload := encodeAll [.data startHash.bytes, ofNat count.toNat, ofNat skip.toNat,
    ofNat (if reverse then 1 else 0)]
  ({ p.setAsking .BlockHeaders with lastAskedHeaders := count },
    [.send ⟨.GetBlockHeadersPacket, 4, payload⟩])

def requestByHashes (hashes : List H256) (asking : Asking) (packetType : SubprotocolPacketType) :
    EthereumPeer × List PeerEffect :=
  let p := p.setAsking asking
  if hashes ≠ [] then
    (p, [.send ⟨packetType, hashes.length, encodeAll (hashes.map fun h => .data h.bytes)⟩])
  else (m.setIdle p, [])

def requestBlockBodies (blocks : List H256) : EthereumPeer × List PeerEffect :=
  requestByHashes m p blocks .BlockBodies .GetBlockBodiesPacket

def requestNodeData (hashes : List H256) : EthereumPeer × List PeerEffect :=
  requestByHashes m p hashes .NodeData .GetNodeDataPacket

def requestReceipts (blocks : List H256) : EthereumPeer × List PeerEffect :=
  requestByHashes m p blocks .Receipts .GetReceiptsPacket

/-- Sets the fields one after the other, up to the first that cannot be read. -/
def setFields : List (EthereumPeer → Option EthereumPeer) → EthereumPeer → EthereumPeer × Bool
  | [], p => (p, true)
  | set :: fields, p =>
    match set p with
    | some p => setFields fields p
    | none => (p, false)

/-- The fields of a status. -/
def statusFields (r : Item) : List (EthereumPeer → Option EthereumPeer) :=
  [fun p => (get? r 0 >>= toUint 32).map fun v => { p with protocolVersion := v },
    fun p => (get? r 1 >>= toUint 256).map fun v => { p with networkId := v },
    fun p => (get? r 2 >>= toUint 256).map fun v => { p with totalDifficulty := v },
    fun p => (get? r 3 >>= toH256).map fun v => { p with latestHash := v },
    fun p => (get? r 4 >>= toH256).map fun v => { p with genesisHash := v }]

def interpretStatus (r : Item) : EthereumPeer × List PeerEffect :=
  let (p, read) := setFields (statusFields r) p
  if read then
    let p := if p.peerCapabilityVersion.toNat = p.hostProtocolVersion.toNat
      then { p with protocolVersion := p.hostProtocolVersion } else p
    (m.setIdle p, [.onPeerStatus])
  else (p, [])

/-- A reply of a kind is handed on when the peer was asked for it. -/
def interpretReply (kind : Asking) (handOn : Item → PeerEffect) (r : Item) :
    EthereumPeer × List PeerEffect :=
  if p.asking ≠ kind then (p, []) else (m.setIdle p, [handOn r])

def numHeadersToSend (maxHeaders : Word) : ℕ :=
  if maxHeaders.toNat ≤ c_maxHeadersToSend then maxHeaders.toNat else c_maxHeadersToSend

/-- The answer to a request for headers. -/
def answerHeaders (r : Item) : Option (List PeerEffect) := do
  let blockId ← get? r 0
  let maxHeaders ← get? r 1 >>= toUint 256
  let skip ← get? r 2 >>= toUint 256
  let reverse ← get? r 3 >>= toUint 8
  if skip.toNat > 2 ^ 32 - 1 - 1 then pure []
  else
    let (rlp, count) ← d.blockHeaders blockId (numHeadersToSend maxHeaders) skip.toNat (reverse ≠ 0)
    pure [.send ⟨.BlockHeadersPacket, count, rlp⟩, .addRating 0]

/-- The answer to a request with a list of hashes. -/
def answerEntries (type : SubprotocolPacketType) (find : Item → Option (Bytes × ℕ)) (r : Item) :
    Option (List PeerEffect) :=
  if itemCount r % 2 ^ 32 = 0 then some [.addRating (-10)]
  else (find r).map fun (rlp, count) => [.addRating 0, .send ⟨type, count, rlp⟩]

/-- The entries of a packet of new hashes. -/
def newHash (x : Item) : Option (H256 × Word) := do
  let h ← get? x 0 >>= toH256
  let number ← get? x 1 >>= toUint 256
  pure (h, number)

def newHashes (r : Item) : Option (List PeerEffect) :=
  let count := itemCount r % 2 ^ 32
  if count > c_maxIncomingNewHashes then some [.disable "Too many new hashes"]
  else ((List.range count).mapM fun i => get? r i >>= newHash).map fun hashes =>
    [.onPeerNewHashes hashes]

/-- Packets that leave the peer as it is; nothing happens when one throws. -/
def answered (effects : Option (List PeerEffect)) : EthereumPeer × List PeerEffect :=
  (p, effects.getD [])

def interpretPacket (r : Item) : SubprotocolPacketType → EthereumPeer × List PeerEffect
  | .StatusPacket => interpretStatus m p r
  | .TransactionsPacket => (p, [.onPeerTransactions r])
  | .GetBlockHeadersPacket => answered p (answerHeaders d r)
  | .BlockHeadersPacket => interpretReply m p .BlockHeaders .onPeerBlockHeaders r
  | .GetBlockBodiesPacket => answered p (answerEntries .BlockBodiesPacket d.blockBodies r)
  | .BlockBodiesPacket => interpretReply m p .BlockBodies .onPeerBlockBodies r
  | .NewBlockPacket => (p, [.onPeerNewBlock r])
  | .NewBlockHashesPacket => answered p (newHashes r)
  | .GetNodeDataPacket =>
    answered p (answerEntries .NodeDataPacket
      (fun r => (d.nodeData r).map fun data => (encodeAll (data.map .data), data.length)) r)
  | .GetReceiptsPacket => answered p (answerEntries .ReceiptsPacket d.receipts r)
  | .NodeDataPacket => interpretReply m p .NodeData .onPeerNodeData r
  | .ReceiptsPacket => interpretReply m p .Receipts .onPeerReceipts r

/-- Whether the packet is one of the protocol, and what it leads to. -/
def interpret (id : ℕ) (r : Item) : Bool × EthereumPeer × List PeerEffect :=
  match SubprotocolPacketType.ofId id with
  | some type => (true, interpretPacket m d p r type)
  | none => (false, p, [])

end EthereumPeer

/-- A call of a peer's function or a packet from the peer. -/
inductive PeerEvent where
  | requestStatus (networkId td : Word) (currentHash genesisHash : H256)
  | requestBlockHeaders (startHash : H256) (count skip : BitVec 32) (reverse : Bool)
  | requestBlockHeadersFrom (startNumber count skip : BitVec 32) (reverse : Bool)
  | requestBlockBodies (blocks : List H256)
  | requestNodeData (hashes : List H256)
  | requestReceipts (blocks : List H256)
  | setIdle
  | packet (id : ℕ) (r : Item)

/-- What a call asks for. -/
def PeerEvent.asks : PeerEvent → Option Asking
  | .requestStatus .. => some .State
  | .requestBlockHeaders .. => some .BlockHeaders
  | .requestBlockHeadersFrom .. => some .BlockHeaders
  | .requestBlockBodies _ => some .BlockBodies
  | .requestNodeData _ => some .NodeData
  | .requestReceipts _ => some .Receipts
  | .setIdle => none
  | .packet .. => none

namespace EthereumPeer

open Requester (Awaits deliveries requests)

variable (m : PeerCode) (d : HostData) (p : EthereumPeer)

def step : PeerEvent → EthereumPeer × List PeerEffect
  | .requestStatus networkId td currentHash genesisHash =>
    (m.requestStatus p networkId td currentHash genesisHash).map id (List.map .send)
  | .requestBlockHeaders startHash count skip reverse =>
    requestBlockHeaders p startHash count skip reverse
  | .requestBlockHeadersFrom startNumber count skip reverse =>
    (m.requestBlockHeaders p startNumber count skip reverse).map id (List.map .send)
  | .requestBlockBodies blocks => requestBlockBodies m p blocks
  | .requestNodeData hashes => requestNodeData m p hashes
  | .requestReceipts blocks => requestReceipts m p blocks
  | .setIdle => (m.setIdle p, [])
  | .packet id r => (interpret m d p id r).2

def next (e : PeerEvent) : EthereumPeer := (step m d p e).1

/-- The replies that are handed on. -/
def delivers (e : PeerEvent) : List Asking := (step m d p e).2.filterMap PeerEffect.reply

/-- A reply or a status is handed on. -/
def processes (e : PeerEvent) : Prop := ∃ x ∈ (step m d p e).2, x.isProcessed = true

/-- The kind of the reply that the peer waits for. -/
def pending : Option Asking :=
  if p.asking = .State ∨ p.asking = .Nothing then none else some p.asking

/-- What happens without a request: what the peer was asked for stays, or it is dropped, alone or
with a status or with the reply to it. -/
inductive Outcome : EthereumPeer × List PeerEffect → Prop where
  | kept {q : EthereumPeer} {effects : List PeerEffect} (hasking : q.asking = p.asking)
      (hquiet : ∀ x ∈ effects, x.isProcessed = false) : Outcome (q, effects)
  | dropped {q : EthereumPeer} (hasking : q.asking = .Nothing) : Outcome (q, [])
  | status {q : EthereumPeer} (hasking : q.asking = .Nothing) : Outcome (q, [.onPeerStatus])
  | reply {q : EthereumPeer} {x : PeerEffect} (hasking : q.asking = .Nothing)
      (hreply : x.reply = some p.asking) : Outcome (q, [x])

variable {m d p} {r : Item}

theorem setFields_asking {fields : List (EthereumPeer → Option EthereumPeer)}
    (h : ∀ set ∈ fields, ∀ p q, set p = some q → q.asking = p.asking) :
    (setFields fields p).1.asking = p.asking := by
  induction fields generalizing p with
  | nil => rfl
  | cons set fields ih =>
    unfold setFields
    cases hset : set p with
    | none => rfl
    | some q =>
      exact (ih fun f hf => h f (.tail _ hf)).trans (h set (.head _) p q hset)

theorem statusFields_asking (r : Item) :
    ∀ set ∈ statusFields r, ∀ p q, set p = some q → q.asking = p.asking := by
  intro set hset p q h
  simp only [statusFields, List.mem_cons, List.not_mem_nil, or_false] at hset
  rcases hset with rfl | rfl | rfl | rfl | rfl <;>
    (obtain ⟨v, -, rfl⟩ := Option.map_eq_some_iff.mp h; rfl)

theorem interpretStatus_outcome (hm : m.Lawful) : Outcome p (interpretStatus m p r) := by
  have hkeep := setFields_asking (p := p) (statusFields_asking r)
  unfold interpretStatus
  cases hread : setFields (statusFields r) p with
  | mk q read =>
    rw [hread] at hkeep
    cases read with
    | true => exact .status (hm.setIdle _)
    | false => exact .kept hkeep fun x hx => absurd hx List.not_mem_nil

theorem interpretReply_outcome (hm : m.Lawful) {kind : Asking} {handOn : Item → PeerEffect}
    (hkind : (handOn r).reply = some kind) : Outcome p (interpretReply m p kind handOn r) := by
  unfold interpretReply
  split_ifs with hask
  · exact .kept rfl fun x hx => absurd hx List.not_mem_nil
  · exact .reply (hm.setIdle p) (hkind.trans (congrArg some (not_not.mp hask).symm))

theorem answered_outcome {effects : Option (List PeerEffect)}
    (h : ∀ l, effects = some l → ∀ x ∈ l, x.isProcessed = false) :
    Outcome p (answered p effects) := by
  refine .kept rfl ?_
  cases effects with
  | none => exact fun x hx => absurd hx List.not_mem_nil
  | some l => exact h l rfl

theorem answerHeaders_quiet {l : List PeerEffect} (h : answerHeaders d r = some l) :
    ∀ x ∈ l, x.isProcessed = false := by
  simp only [answerHeaders, Option.bind_eq_bind, Option.bind_eq_some_iff] at h
  obtain ⟨blockId, -, maxHeaders, -, skip, -, reverse, -, h⟩ := h
  split_ifs at h
  · obtain rfl := Option.some.inj h
    simp
  · obtain ⟨⟨rlp, count⟩, -, h⟩ := Option.bind_eq_some_iff.mp h
    obtain rfl := Option.some.inj h
    simp [PeerEffect.isProcessed, PeerEffect.reply]

theorem numHeadersToSend_le (maxHeaders : Word) :
    numHeadersToSend maxHeaders ≤ c_maxHeadersToSend := by
  unfold numHeadersToSend
  split_ifs with h
  · exact h
  · exact le_refl _

/-- The host is asked for a limited number of headers and for steps that fit into 32 bits only. -/
theorem answerHeaders_congr {d' : HostData}
    (h : ∀ blockId count skip reverse, count ≤ c_maxHeadersToSend → skip ≤ 2 ^ 32 - 2 →
      d.blockHeaders blockId count skip reverse = d'.blockHeaders blockId count skip reverse) :
    answerHeaders d r = answerHeaders d' r := by
  unfold answerHeaders
  refine Option.bind_congr fun blockId _ => Option.bind_congr fun maxHeaders _ =>
    Option.bind_congr fun skip _ => Option.bind_congr fun reverse _ => ?_
  split_ifs with hskip
  · rfl
  · rw [h _ _ _ _ (numHeadersToSend_le maxHeaders) (by omega)]

theorem answerEntries_quiet {type : SubprotocolPacketType} {find : Item → Option (Bytes × ℕ)}
    {l : List PeerEffect} (h : answerEntries type find r = some l) :
    ∀ x ∈ l, x.isProcessed = false := by
  unfold answerEntries at h
  split_ifs at h
  · obtain rfl := Option.some.inj h
    simp [PeerEffect.isProcessed, PeerEffect.reply]
  · obtain ⟨⟨rlp, count⟩, -, rfl⟩ := Option.map_eq_some_iff.mp h
    simp [PeerEffect.isProcessed, PeerEffect.reply]

theorem newHashes_quiet {l : List PeerEffect} (h : newHashes r = some l) :
    ∀ x ∈ l, x.isProcessed = false := by
  simp only [newHashes] at h
  split_ifs at h
  · obtain rfl := Option.some.inj h
    simp [PeerEffect.isProcessed, PeerEffect.reply]
  · obtain ⟨hashes, -, rfl⟩ := Option.map_eq_some_iff.mp h
    simp [PeerEffect.isProcessed, PeerEffect.reply]

theorem interpretPacket_outcome (hm : m.Lawful) (type : SubprotocolPacketType) :
    Outcome p (interpretPacket m d p r type) := by
  cases type with
  | StatusPacket => exact interpretStatus_outcome hm
  | TransactionsPacket => exact .kept rfl (by simp [PeerEffect.isProcessed, PeerEffect.reply])
  | GetBlockHeadersPacket => exact answered_outcome fun _ => answerHeaders_quiet
  | BlockHeadersPacket => exact interpretReply_outcome hm rfl
  | GetBlockBodiesPacket => exact answered_outcome fun _ => answerEntries_quiet
  | BlockBodiesPacket => exact interpretReply_outcome hm rfl
  | NewBlockPacket => exact .kept rfl (by simp [PeerEffect.isProcessed, PeerEffect.reply])
  | NewBlockHashesPacket => exact answered_outcome fun _ => newHashes_quiet
  | GetNodeDataPacket => exact answered_outcome fun _ => answerEntries_quiet
  | GetReceiptsPacket => exact answered_outcome fun _ => answerEntries_quiet
  | NodeDataPacket => exact interpretReply_outcome hm rfl
  | ReceiptsPacket => exact interpretReply_outcome hm rfl

theorem interpret_outcome (hm : m.Lawful) (id : ℕ) : Outcome p (interpret m d p id r).2 := by
  unfold interpret
  cases SubprotocolPacketType.ofId id with
  | none => exact .kept rfl fun x hx => absurd hx List.not_mem_nil
  | some type => exact interpretPacket_outcome hm type

theorem step_outcome (hm : m.Lawful) {e : PeerEvent} (h : e.asks = none) :
    Outcome p (step m d p e) := by
  cases e with
  | setIdle => exact .dropped (hm.setIdle p)
  | packet id r => exact interpret_outcome hm id
  | _ => cases h

theorem requestByHashes_asked (hm : m.Lawful) (hashes : List H256) (asking : Asking)
    (type : SubprotocolPacketType) :
    ((requestByHashes m p hashes asking type).1.asking = asking ∨
      (requestByHashes m p hashes asking type).1.asking = .Nothing) ∧
      ∀ x ∈ (requestByHashes m p hashes asking type).2, x.isProcessed = false := by
  simp only [requestByHashes]
  split_ifs
  · exact ⟨.inl rfl, by simp [PeerEffect.isProcessed, PeerEffect.reply]⟩
  · exact ⟨.inr (hm.setIdle _), fun x hx => absurd hx List.not_mem_nil⟩

/-- After a request the peer is asked for it, or for nothing, and nothing is handed on. -/
theorem step_asked (hm : m.Lawful) {e : PeerEvent} {k : Asking} (h : e.asks = some k) :
    ((step m d p e).1.asking = k ∨ (step m d p e).1.asking = .Nothing) ∧
      ∀ x ∈ (step m d p e).2, x.isProcessed = false := by
  cases e with
  | requestStatus networkId td currentHash genesisHash =>
    obtain rfl := Option.some.inj h
    exact ⟨.inl (hm.requestStatus p networkId td currentHash genesisHash),
      by simp [step, PeerEffect.isProcessed, PeerEffect.reply]⟩
  | requestBlockHeaders startHash count skip reverse =>
    obtain rfl := Option.some.inj h
    exact ⟨.inl rfl, by simp [step, requestBlockHeaders, PeerEffect.isProcessed, PeerEffect.reply]⟩
  | requestBlockHeadersFrom startNumber count skip reverse =>
    obtain rfl := Option.some.inj h
    exact ⟨.inl (hm.requestBlockHeaders p startNumber count skip reverse),
      by simp [step, PeerEffect.isProcessed, PeerEffect.reply]⟩
  | requestBlockBodies blocks =>
    obtain rfl := Option.some.inj h
    exact requestByHashes_asked hm blocks _ _
  | requestNodeData hashes =>
    obtain rfl := Option.some.inj h
    exact requestByHashes_asked hm hashes _ _
  | requestReceipts blocks =>
    obtain rfl := Option.some.inj h
    exact requestByHashes_asked hm blocks _ _
  | setIdle => cases h
  | packet id r => cases h

theorem pending_eq_none (h : p.asking = .Nothing) : p.pending = none := if_pos (.inr h)

theorem pending_of_reply {x : PeerEffect} (h : x.reply = some p.asking) :
    p.pending = some p.asking := by
  refine if_neg ?_
  cases x <;> simp [PeerEffect.reply] at h <;> simp [← h]

theorem reply_eq_none {x : PeerEffect} (h : x.isProcessed = false) : x.reply = none := by
  cases x <;> first | rfl | cases h

theorem delivers_eq_nil {e : PeerEvent} (h : ∀ x ∈ (step m d p e).2, x.isProcessed = false) :
    delivers m d p e = [] :=
  List.filterMap_eq_nil_iff.mpr fun x hx => reply_eq_none (h x hx)

/-- A peer waits for the reply to the latest request and takes no other one. -/
theorem requester (hm : m.Lawful) :
    Requester (next m d) PeerEvent.asks (processes m d) (delivers m d) pending where
  asked p e k h := by
    rcases (step_asked (d := d) (p := p) hm h).1 with hask | hask
    · by_cases hk : k = .State ∨ k = .Nothing
      · exact .inr (if_pos (hask ▸ hk))
      · exact .inl ((if_neg (hask ▸ hk)).trans (congrArg some hask))
    · exact .inr (pending_eq_none hask)
  kept p e h := by
    have hout := step_outcome (d := d) (p := p) hm h
    unfold next processes
    generalize step m d p e = out at hout
    cases hout with
    | kept hask hquiet =>
      refine .inr ⟨by simp only [pending, hask], ?_⟩
      rintro ⟨x, hx, hproc⟩
      rw [hquiet x hx] at hproc
      cases hproc
    | dropped hask => exact .inl (pending_eq_none hask)
    | status hask => exact .inl (pending_eq_none hask)
    | reply hask _ => exact .inl (pending_eq_none hask)
  taken p e := by
    cases h : e.asks with
    | some k => exact .inl (delivers_eq_nil (step_asked hm h).2)
    | none =>
      have hout := step_outcome (d := d) (p := p) hm h
      unfold next delivers
      generalize step m d p e = out at hout
      cases hout with
      | kept _ hquiet =>
        exact .inl (List.filterMap_eq_nil_iff.mpr fun x hx => reply_eq_none (hquiet x hx))
      | dropped _ => exact .inl rfl
      | status _ => exact .inl rfl
      | reply hask hreply =>
        refine .inr ⟨p.asking, ?_, rfl, pending_of_reply hreply, pending_eq_none hask⟩
        simp [hreply]

/-- A reply is handed on only when the latest request is for its kind and nothing was handed on
since, and there are never more replies of a kind than requests for it. -/
theorem replies_solicited (hm : m.Lawful) (hp : p.asking = .Nothing) (events : List PeerEvent)
    (k : Asking) :
    (∀ pre e post, events = pre ++ e :: post → k ∈ delivers m d (runFrom (next m d) p pre) e →
      Awaits (next m d) PeerEvent.asks (processes m d) p k pre) ∧
    ∀ pre, pre <+: events →
      deliveries (next m d) (delivers m d) k p pre ≤ requests PeerEvent.asks k pre :=
  ⟨fun _ _ _ _ hk => (requester hm).awaits_of_mem (pending_eq_none hp) hk,
    fun _ _ => (requester hm).deliveries_le (pending_eq_none hp)⟩

/-- A peer that was asked for nothing yet. -/
def unasked : EthereumPeer where
  hostProtocolVersion := 63
  protocolVersion := 0
  networkId := 0
  totalDifficulty := 0
  latestHash := .ofNat 0
  genesisHash := .ofNat 0
  peerCapabilityVersion := 63
  asking := .Nothing
  lastAskedHeaders := 0

def plainCode : PeerCode where
  setIdle p := p.setAsking .Nothing
  requestStatus p networkId td currentHash genesisHash :=
    (p.setAsking .State, [⟨.StatusPacket, 5, encodeAll [ofNat p.hostProtocolVersion.toNat,
      ofNat networkId.toNat, ofNat td.toNat, .data currentHash.bytes, .data genesisHash.bytes]⟩])
  requestBlockHeaders p startNumber count skip reverse :=
    ({ p.setAsking .BlockHeaders with lastAskedHeaders := count },
      [⟨.GetBlockHeadersPacket, 4, encodeAll [ofNat startNumber.toNat, ofNat count.toNat,
        ofNat skip.toNat, ofNat (if reverse then 1 else 0)]⟩])

def noData : HostData := ⟨fun _ _ _ _ => none, fun _ => none, fun _ => none, fun _ => none⟩

/-- Bodies are asked for and headers come. -/
def mismatched : List PeerEvent := [.requestBlockBodies [.ofNat 1], .packet 0x04 (.list [])]

theorem replies_solicited_bodies :
    Awaits (next plainCode noData) PeerEvent.asks (processes plainCode noData) unasked .BlockBodies
      mismatched ∧
    deliveries (next plainCode noData) (delivers plainCode noData) .BlockBodies unasked
      (mismatched ++ [.packet 0x06 (.list [])]) ≤ 1 := by
  have hlawful : plainCode.Lawful := ⟨fun _ => rfl, fun _ _ _ _ _ => rfl, fun _ _ _ _ _ => rfl⟩
  have hall := replies_solicited (d := noData) hlawful (p := unasked) rfl
    (mismatched ++ [.packet 0x06 (.list [])]) .BlockBodies
  exact ⟨hall.1 mismatched (.packet 0x06 (.list [])) [] rfl (.head _),
    hall.2 _ (List.prefix_refl _)⟩

end EthereumPeer
end XChain
