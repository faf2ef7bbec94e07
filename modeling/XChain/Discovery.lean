import XChain.Capabilities
import XChain.RLPXFrameCoder

/-!
# Discovery datagrams

A datagram is a hash, a signature, one byte for its type and a list of its fields. The hash
is over all that follows it and the signature over all that follows the signature. What
was signed is read back with the key of the signer, and nothing else passes the hash.
-/
namespace XChain

namespace P2P

inductive IpAddress where
  | v4 (b : FixedHash 4)
  | v6 (b : FixedHash 16)
  deriving DecidableEq

def IpAddress.bytes : IpAddress → Bytes
  | .v4 b => b.bytes
  | .v6 b => b.bytes

def IpAddress.unspecified : IpAddress := .v4 (.zero 4)

structure NodeIPEndpoint where
  address : IpAddress := .unspecified
  udpPort : BitVec 16 := 0
  tcpPort : BitVec 16 := 0
  deriving DecidableEq

namespace NodeIPEndpoint

/-- The three items of an endpoint, as a list of their own or among others. -/
def streamInline (e : NodeIPEndpoint) : List Item :=
  [.data e.address.bytes, Rlp.ofNat e.udpPort.toNat, Rlp.ofNat e.tcpPort.toNat]

def streamRLP (e : NodeIPEndpoint) : Item := .list e.streamInline

/-- The kind of an address is told by its size; any other size is the default address. -/
def addressOf (b : Bytes) : IpAddress :=
  if h : b.length = 4 then .v4 ⟨b, h⟩
  else if h : b.length = 16 then .v6 ⟨b, h⟩
  else .unspecified

def interpretRLP (r : Item) : Option NodeIPEndpoint := do
  let address ← Rlp.get? r 0
  let udpPort ← Rlp.get? r 1 >>= Rlp.toUint 16
  let tcpPort ← Rlp.get? r 2 >>= Rlp.toUint 16
  return ⟨addressOf (Rlp.toBytes address), udpPort, tcpPort⟩

@[simp] theorem addressOf_bytes (a : IpAddress) : addressOf a.bytes = a := by
  cases a with
  | v4 b =>
    have h : b.bytes.length = 4 := b.size
    simp [addressOf, IpAddress.bytes]
  | v6 b =>
    have h : b.bytes.length = 16 := b.size
    simp [addressOf, IpAddress.bytes]

/-- An endpoint is read back, also when other items follow. -/
@[simp] theorem interpretRLP_streamInline (e : NodeIPEndpoint) (rest : List Item) :
    interpretRLP (.list (e.streamInline ++ rest)) = some e := by
  simp [interpretRLP, streamInline, Rlp.get?, Rlp.toBytes]

@[simp] theorem interpretRLP_streamRLP (e : NodeIPEndpoint) : interpretRLP e.streamRLP = some e := by
  have h := interpretRLP_streamInline e []
  rwa [List.append_nil] at h

end NodeIPEndpoint

structure Neighbour where
  endpoint : NodeIPEndpoint
  node : Public

namespace Neighbour

def streamRLP (n : Neighbour) : Item := .list (n.endpoint.streamInline ++ [.data n.node.bytes])

/-- A node of another size is the zero node. -/
def interpretRLP (r : Item) : Option Neighbour := do
  let endpoint ← NodeIPEndpoint.interpretRLP r
  let node ← Rlp.get? r 3
  return ⟨endpoint, FixedHash.ofRef 64 (Rlp.toBytes node)⟩

@[simp] theorem interpretRLP_streamRLP (n : Neighbour) : interpretRLP n.streamRLP = some n := by
  have hnode : Rlp.get? n.streamRLP 3 = some (.data n.node.bytes) := rfl
  rw [interpretRLP, hnode, streamRLP, NodeIPEndpoint.interpretRLP_streamInline]
  simp [Rlp.toBytes]

end Neighbour

/-- The fields of each type of packet, except for those that all types have. -/
inductive PacketBody where
  | pingNode (version : BitVec 32) (source destination : NodeIPEndpoint)
  | pong (destination : NodeIPEndpoint)
  | findNode (target : FixedHash 64)
  | neighbours (neighbours : List Neighbour)

/-- A packet. The source is set for packets that were received, and the echo is the hash of
such a packet, or what a pong says. -/
structure DiscoveryDatagram where
  sourceid : Public
  echo : FixedHash 32
  ts : BitVec 32
  body : PacketBody

namespace PacketBody

def type : PacketBody → UInt8
  | pingNode _ _ _ => 1
  | pong _ => 2
  | findNode _ => 3
  | neighbours _ => 4

/-- The fields as they are sent: a ping carries the version that is compiled in. -/
def transmitted : PacketBody → PacketBody
  | pingNode _ source destination =>
    pingNode (BitVec.ofNat 32 c_protocolVersion) source destination
  | body => body

end PacketBody

namespace DiscoveryDatagram

def streamRLP (d : DiscoveryDatagram) : Item :=
  match d.body with
  | .pingNode _ source destination =>
    .list [Rlp.ofNat c_protocolVersion, source.streamRLP, destination.streamRLP, Rlp.ofNat d.ts.toNat]
  | .pong destination => .list [destination.streamRLP, .data d.echo.bytes, Rlp.ofNat d.ts.toNat]
  | .findNode target => .list [.data target.bytes, Rlp.ofNat d.ts.toNat]
  | .neighbours l => .list [.list (l.map Neighbour.streamRLP), Rlp.ofNat d.ts.toNat]

/-- The items of a list. -/
def itemsOf : Item → Option (List Item)
  | .data _ => none
  | .list l => some l

/-- Reads the fields of a packet whose type, source and hash are known. -/
def interpretRLP (type : UInt8) (sourceid : Public) (echo : FixedHash 32) (r : Item) :
    Option DiscoveryDatagram :=
  if type = 1 then do
    let version ← Rlp.get? r 0 >>= Rlp.toUint 32
    let source ← Rlp.get? r 1 >>= NodeIPEndpoint.interpretRLP
    let destination ← Rlp.get? r 2 >>= NodeIPEndpoint.interpretRLP
    let ts ← Rlp.get? r 3 >>= Rlp.toUint 32
    return ⟨sourceid, echo, ts, .pingNode version source destination⟩
  else if type = 2 then do
    let destination ← Rlp.get? r 0 >>= NodeIPEndpoint.interpretRLP
    let echo ← Rlp.get? r 1 >>= Rlp.toHash 32
    let ts ← Rlp.get? r 2 >>= Rlp.toUint 32
    return ⟨sourceid, echo, ts, .pong destination⟩
  else if type = 3 then do
    let target ← Rlp.get? r 0 >>= Rlp.toHash 64
    let ts ← Rlp.get? r 1 >>= Rlp.toUint 32
    return ⟨sourceid, echo, ts, .findNode target⟩
  else do
    let items ← Rlp.get? r 0 >>= itemsOf
    let l ← items.mapM Neighbour.interpretRLP
    let ts ← Rlp.get? r 1 >>= Rlp.toUint 32
    return ⟨sourceid, echo, ts, .neighbours l⟩

/-- What a reader makes of the packet: its source and hash, and the fields that are sent. -/
def received (d : DiscoveryDatagram) (sourceid : Public) (hash : FixedHash 32) : DiscoveryDatagram where
  sourceid := sourceid
  echo :=
    match d.body with
    | .pong _ => d.echo
    | _ => hash
  ts := d.ts
  body := d.body.transmitted

theorem mapM_interpretRLP (l : List Neighbour) :
    l.mapM (Neighbour.interpretRLP ∘ Neighbour.streamRLP) = some l := by
  induction l with
  | nil => rfl
  | cons n l ih => simp [ih]

theorem interpretRLP_streamRLP (d : DiscoveryDatagram) (sourceid : Public) (hash : FixedHash 32) :
    interpretRLP d.body.type sourceid hash d.streamRLP = some (d.received sourceid hash) := by
  obtain ⟨s, echo, ts, body⟩ := d
  have hts : Rlp.toUint 32 (Rlp.ofNat ts.toNat) = some ts := Rlp.toUint_ofNat (by norm_num) ts
  cases body with
  | pingNode version source destination =>
    have hversion : Rlp.toUint 32 (Rlp.ofNat c_protocolVersion) =
        some (BitVec.ofNat 32 c_protocolVersion) :=
      Rlp.toUint_ofNat (by norm_num) (BitVec.ofNat 32 c_protocolVersion)
    simp [interpretRLP, PacketBody.type, streamRLP, received, PacketBody.transmitted, Rlp.get?,
      hversion, hts]
  | pong destination =>
    simp [interpretRLP, PacketBody.type, streamRLP, received, PacketBody.transmitted, Rlp.get?, hts]
  | findNode target =>
    simp [interpretRLP, PacketBody.type, streamRLP, received, PacketBody.transmitted, Rlp.get?, hts]
  | neighbours l =>
    simp [interpretRLP, PacketBody.type, streamRLP, received, PacketBody.transmitted, Rlp.get?, hts,
      itemsOf, mapM_interpretRLP]

end DiscoveryDatagram

abbrev Signature := FixedHash 65

/-- Signatures from which the key of the signer is recovered, and the hash. -/
structure Ecdsa where
  toPublic : Secret → Public
  sign : Secret → FixedHash 32 → Signature
  recover : Signature → FixedHash 32 → Public
  sha3 : Bytes → FixedHash 32

/-- What is signed with a key leads back to its public key, which is not zero. -/
structure Ecdsa.Recovers (P : Ecdsa) (k : Secret) : Prop where
  recover_sign : ∀ h, P.recover (P.sign k h) h = P.toPublic k
  isSet : (P.toPublic k).isSet = true

/-- What comes of a datagram: it is turned away, its fields cannot be read, memory behind it
is read, or it is a packet. -/
inductive Interpreted where
  | rejected
  | threw
  | overread
  | packet (d : DiscoveryDatagram)

namespace DiscoveryDatagram

variable (P : Ecdsa)

/-- The type and the fields. -/
def rlpx (d : DiscoveryDatagram) : Bytes := d.body.type :: Rlp.encode d.streamRLP

/-- The signature and what is signed. -/
def signedRLPx (d : DiscoveryDatagram) (k : Secret) : Bytes :=
  (P.sign k (P.sha3 d.rlpx)).bytes ++ d.rlpx

def sign (d : DiscoveryDatagram) (k : Secret) : Bytes :=
  (P.sha3 (d.signedRLPx P k)).bytes ++ d.signedRLPx P k

def interpretUDP (packet : Bytes) : Interpreted :=
  if packet.length < 32 + 65 + 1 + 3 then .rejected
  else
    let hashedBytes := cropped packet 32 (packet.length - 32)
    let signedBytes := cropped hashedBytes 65 (hashedBytes.length - 65)
    let signatureBytes := cropped packet 32 65
    let bodyBytes := croppedFrom packet (32 + 65 + 1)
    let echo := P.sha3 hashedBytes
    if cropped packet 0 32 ≠ echo.bytes then .rejected
    -- The signature is taken from the memory from the first of its bytes on.
    else if h : signatureBytes.length = 65 then
      let sourceid := P.recover ⟨signatureBytes, h⟩ (P.sha3 signedBytes)
      if !sourceid.isSet then .rejected
      else
        match signedBytes with
        | [] => .overread
        | type :: _ =>
          if type = 0 ∨ 4 < type then .rejected
          else
            match Rlp.readFirst bodyBytes >>= interpretRLP type sourceid echo with
            | some d => .packet d
            | none => .threw
    else .overread

section Bytes

variable {P}

theorem two_le_length_encodeAll (x y : Item) (l : List Item) :
    2 ≤ (Rlp.encodeAll (x :: y :: l)).length := by
  have hx := List.length_pos_iff.mpr (Rlp.encode_ne_nil x)
  have hy := List.length_pos_iff.mpr (Rlp.encode_ne_nil y)
  simp only [Rlp.encodeAll, List.length_append]
  omega

theorem length_header_pos (base : UInt8) (n : ℕ) : 1 ≤ (Rlp.header base n).length := by
  unfold Rlp.header
  by_cases hshort : n < 56
  · rw [if_pos hshort]
    simp
  · rw [if_neg hshort]
    simp only
    split <;> simp

/-- Every packet has fields of at least three bytes. -/
theorem three_le_length_encode (d : DiscoveryDatagram) : 3 ≤ (Rlp.encode d.streamRLP).length := by
  have hlist : ∀ (x y : Item) (l : List Item), 3 ≤ (Rlp.encode (.list (x :: y :: l))).length := by
    intro x y l
    have htwo := two_le_length_encodeAll x y l
    rw [Rlp.encode, List.length_append]
    have hheader := length_header_pos 0xc0 (Rlp.encodeAll (x :: y :: l)).length
    omega
  rw [streamRLP]
  split <;> exact hlist _ _ _

theorem length_rlpx (d : DiscoveryDatagram) : 4 ≤ d.rlpx.length := by
  have h := three_le_length_encode d
  rw [rlpx, List.length_cons]
  omega

end Bytes

section Reading

variable {P}

theorem cropped_rest {b : Bytes} {n : ℕ} (h : n ≤ b.length) : cropped b n (b.length - n) = b.drop n := by
  rw [cropped, if_pos (by omega), List.take_of_length_le (by rw [List.length_drop])]

/-- The parts of a datagram that is long enough. -/
theorem interpretUDP_eq {packet : Bytes} (hlong : 32 + 65 + 1 + 3 ≤ packet.length)
    (hsig : ((packet.drop 32).take 65).length = 65) {type : UInt8}
    (hsigned : packet.drop 97 = type :: packet.drop 98) :
    interpretUDP P packet =
      if packet.take 32 ≠ (P.sha3 (packet.drop 32)).bytes then .rejected
      else
        let sourceid := P.recover ⟨(packet.drop 32).take 65, hsig⟩ (P.sha3 (packet.drop 97))
        if !sourceid.isSet then .rejected
        else if type = 0 ∨ 4 < type then .rejected
        else
          match Rlp.readFirst (packet.drop 98) >>=
            interpretRLP type sourceid (P.sha3 (packet.drop 32)) with
          | some d => .packet d
          | none => .threw := by
  have hhashed : cropped packet 32 (packet.length - 32) = packet.drop 32 := cropped_rest (by omega)
  have hcropped : cropped (packet.drop 32) 65 ((packet.drop 32).length - 65) = packet.drop 97 := by
    rw [cropped_rest (by rw [List.length_drop]; omega), List.drop_drop]
  have hsignature : cropped packet 32 65 = (packet.drop 32).take 65 := by
    rw [cropped, if_pos (by omega)]
  have hfirst : cropped packet 0 32 = packet.take 32 := cropped_zero (by omega)
  simp only [interpretUDP, if_neg (show ¬ packet.length < 32 + 65 + 1 + 3 by omega), hhashed,
    hcropped, hsignature, hfirst, croppedFrom_eq, dif_pos hsig, hsigned]

theorem length_signature {packet : Bytes} (hlong : 32 + 65 + 1 + 3 ≤ packet.length) :
    ((packet.drop 32).take 65).length = 65 := by
  rw [List.length_take, List.length_drop]
  omega

theorem drop_signed {packet : Bytes} (hlong : 32 + 65 + 1 + 3 ≤ packet.length) :
    ∃ type, packet.drop 97 = type :: packet.drop 98 :=
  ⟨packet[97], List.drop_eq_getElem_cons (by omega)⟩

theorem type_ne (body : PacketBody) : ¬ (body.type = 0 ∨ 4 < body.type) := by
  cases body <;> simp [PacketBody.type]

end Reading

/-- A signed packet is read back as what was sent, with the key of the signer and the hash
of the datagram. A datagram that is too short or whose hash does not match is turned away,
and no datagram makes the reader go over its end. -/
theorem interpretUDP_sign :
    (∀ k, P.Recovers k → ∀ d : DiscoveryDatagram,
      interpretUDP P (d.sign P k) = .packet (d.received (P.toPublic k) (P.sha3 (d.signedRLPx P k)))) ∧
    (∀ packet : Bytes, packet.length < 32 + 65 + 1 + 3 ∨
      packet.take 32 ≠ (P.sha3 (packet.drop 32)).bytes → interpretUDP P packet = .rejected) ∧
    ∀ packet, interpretUDP P packet ≠ .overread := by
  constructor
  · intro k hk d
    have hrlpx := length_rlpx d
    have hhash : (P.sha3 (d.signedRLPx P k)).bytes.length = 32 := FixedHash.size _
    have hsize : (P.sign k (P.sha3 d.rlpx)).bytes.length = 65 := FixedHash.size _
    have hlong : 32 + 65 + 1 + 3 ≤ (d.sign P k).length := by
      rw [sign, List.length_append, hhash, signedRLPx, List.length_append, hsize]
      omega
    have hhashed : (d.sign P k).drop 32 = d.signedRLPx P k := List.drop_left' hhash
    have hsigned : (d.sign P k).drop 97 = d.rlpx := by
      have h : (d.sign P k).drop (32 + 65) = ((d.sign P k).drop 32).drop 65 := List.drop_drop.symm
      rw [show 97 = 32 + 65 from rfl, h, hhashed]
      exact List.drop_left' hsize
    have hbody : (d.sign P k).drop 98 = Rlp.encode d.streamRLP := by
      have h : (d.sign P k).drop (97 + 1) = ((d.sign P k).drop 97).drop 1 := List.drop_drop.symm
      rw [show 98 = 97 + 1 from rfl, h, hsigned]
      rfl
    have hfirst : (d.sign P k).take 32 = (P.sha3 (d.signedRLPx P k)).bytes := List.take_left' hhash
    have hsig : ((d.sign P k).drop 32).take 65 = (P.sign k (P.sha3 d.rlpx)).bytes := by
      rw [hhashed]
      exact List.take_left' hsize
    have hcons : (d.sign P k).drop 97 = d.body.type :: (d.sign P k).drop 98 := by
      rw [hsigned, hbody]
      rfl
    have hrecover : P.recover ⟨((d.sign P k).drop 32).take 65, length_signature hlong⟩
        (P.sha3 ((d.sign P k).drop 97)) = P.toPublic k := by
      have hsame : (⟨((d.sign P k).drop 32).take 65, length_signature hlong⟩ : Signature) =
          P.sign k (P.sha3 d.rlpx) := FixedHash.ext hsig
      rw [hsame, hsigned, hk.recover_sign]
    have hread : Rlp.readFirst (Rlp.encode d.streamRLP) = some d.streamRLP := by
      have h := Rlp.readFirst_encode d.streamRLP []
      rwa [List.append_nil] at h
    rw [interpretUDP_eq hlong (length_signature hlong) hcons, hrecover, hbody, hread, hfirst, hhashed]
    simp [hk.isSet, type_ne, interpretRLP_streamRLP]
  constructor
  · intro packet hbad
    by_cases hshort : packet.length < 32 + 65 + 1 + 3
    · rw [interpretUDP, if_pos hshort]
    · obtain ⟨type, htype⟩ := drop_signed (not_lt.mp hshort)
      rw [interpretUDP_eq (not_lt.mp hshort) (length_signature (not_lt.mp hshort)) htype,
        if_pos (hbad.resolve_left hshort)]
  · intro packet
    by_cases hshort : packet.length < 32 + 65 + 1 + 3
    · rw [interpretUDP, if_pos hshort]
      simp
    · obtain ⟨type, htype⟩ := drop_signed (not_lt.mp hshort)
      rw [interpretUDP_eq (not_lt.mp hshort) (length_signature (not_lt.mp hshort)) htype]
      simp only
      split_ifs
      · simp
      · simp
      · simp
      · split <;> simp

/-- A scheme with one key. -/
def oneKey : Ecdsa where
  toPublic _ := ⟨List.replicate 64 1, List.length_replicate⟩
  sign _ _ := .zero 65
  recover _ _ := ⟨List.replicate 64 1, List.length_replicate⟩
  sha3 _ := .zero 32

/-- A packet that looks for a node. -/
theorem interpretUDP_sign_findNode :
    interpretUDP oneKey ((⟨.zero 64, .zero 32, 7, .findNode (.zero 64)⟩ : DiscoveryDatagram).sign
      oneKey (.zero 32)) =
      .packet ⟨⟨List.replicate 64 1, List.length_replicate⟩, .zero 32, 7, .findNode (.zero 64)⟩ :=
  (interpretUDP_sign oneKey).1 (.zero 32) ⟨fun _ => rfl, by decide⟩ _

end DiscoveryDatagram

end P2P
end XChain
