import XChain.FixedHash
import XChain.RlpFields

/-!
# Encryption and authentication of frames

A coder has one keystream and one running MAC for each direction. A frame is a header block
and a payload padded to whole blocks, each encrypted and followed by a digest of the MAC that
has absorbed it. The ciphers and hashes are parameters, with the one law that both sides of a
key agreement rely on.
-/
namespace XChain

abbrev Secret := FixedHash 32
abbrev Public := FixedHash 64

/-- The cryptography under the coder. `keystream key` is counter mode from the zero vector
and `aes key` a single block; `digest` is the first half of the hash of what a running
hash has absorbed. -/
structure Primitives where
  toPublic : Secret → Public
  agree : Secret → Public → Secret
  sha3 : Bytes → FixedHash 32
  digest : Bytes → FixedHash 16
  keystream : FixedHash 32 → ℕ → UInt8
  aes : FixedHash 32 → FixedHash 16 → FixedHash 16
  agree_comm : ∀ a b, agree a (toPublic b) = agree b (toPublic a)

/-- The ephemeral key of one side. The remote key is set by the only agreement. -/
structure ECDHE where
  ephemeral : Secret
  remoteEphemeral : Public

def ECDHE.fresh (ephemeral : Secret) : ECDHE := ⟨ephemeral, FixedHash.zero 64⟩

/-- A second agreement is refused. -/
def ECDHE.agree (P : Primitives) (e : ECDHE) (remote : Public) : Option (Secret × ECDHE) :=
  if e.remoteEphemeral.isSet then none
  else some (P.agree e.ephemeral remote, { e with remoteEphemeral := remote })

@[simp] theorem ECDHE.agree_fresh (P : Primitives) (s : Secret) (remote : Public) :
    (ECDHE.fresh s).agree P remote = some (P.agree s remote, ⟨s, remote⟩) := by
  have hset : (FixedHash.zero 64).isSet = false := by decide
  simp [ECDHE.agree, ECDHE.fresh, hset]

/-- What a frame header says, with the padding that follows from the length. -/
@[ext] structure RLPXFrameInfo where
  length : ℕ
  padding : ℕ
  protocolId : BitVec 16
  multiFrame : Bool
  sequenceId : BitVec 16
  totalLength : BitVec 32
  deriving DecidableEq

/-- Zero bytes that fill the last block of `length` bytes. -/
def paddingOf (length : ℕ) : ℕ := (16 - length % 16) % 16

/-- Three bytes of length, then a list of the protocol, the sequence and the total size;
bytes behind the list are not looked at. -/
def RLPXFrameInfo.ofHeader (h : Bytes) : Option RLPXFrameInfo := do
  let length := Rlp.ofBigEndian (h.take 3)
  let data := h.drop 3
  let header ← Rlp.readFirst data
  let protocolId ← Rlp.get? header 0 >>= Rlp.toUint 16
  let multiFrame := decide (Rlp.itemCount header > 1)
  let sequenceId ← if multiFrame then Rlp.get? header 1 >>= Rlp.toUint 16 else some 0
  let totalLength ←
    if Rlp.itemCount header = 3 then Rlp.get? header 2 >>= Rlp.toUint 32 else some 0
  return { length, padding := paddingOf length, protocolId, multiFrame, sequenceId, totalLength }

/-- The header of each of the writers: a packet in a single frame of the legacy format, a
single frame of a protocol, and the first or a later frame of a segmented packet. -/
inductive FrameHeader where
  | legacy
  | single (protocolType : BitVec 16)
  | continuation (protocolType seqId : BitVec 16)
  | first (protocolType seqId : BitVec 16) (totalSize : BitVec 32)
  deriving DecidableEq

/-- The list behind the length. The legacy format has two empty strings. -/
def FrameHeader.items : FrameHeader → List Item
  | .legacy => [.data [], .data []]
  | .single protocolType => [Rlp.ofNat protocolType.toNat]
  | .continuation protocolType seqId => [Rlp.ofNat protocolType.toNat, Rlp.ofNat seqId.toNat]
  | .first protocolType seqId totalSize =>
    [Rlp.ofNat protocolType.toNat, Rlp.ofNat seqId.toNat, Rlp.ofNat totalSize.toNat]

def FrameHeader.out (h : FrameHeader) (length : ℕ) : Bytes :=
  Rlp.fixedBytes 3 length ++ Rlp.encode (.list h.items)

namespace FrameHeader

/-- What a reader takes from the header of a frame of `length` bytes. -/
def info (length : ℕ) : FrameHeader → RLPXFrameInfo
  | .legacy => ⟨length, paddingOf length, 0, true, 0, 0⟩
  | .single protocolType => ⟨length, paddingOf length, protocolType, false, 0, 0⟩
  | .continuation protocolType seqId => ⟨length, paddingOf length, protocolType, true, seqId, 0⟩
  | .first protocolType seqId totalSize =>
    ⟨length, paddingOf length, protocolType, true, seqId, totalSize⟩

theorem length_encode_ofNat {n k : ℕ} (h : n < 2 ^ (8 * k)) (hk : k < 56) :
    (Rlp.encode (Rlp.ofNat n)).length ≤ k + 1 := by
  have hlen : (Rlp.bigEndian n).length ≤ k := Rlp.length_bigEndian_le h
  rw [Rlp.ofNat]
  generalize Rlp.bigEndian n = b at hlen
  cases b with
  | nil => simp
  | cons x b =>
    cases b with
    | nil =>
      simp only [Rlp.encode]
      split_ifs
      · simp
      · simp [Rlp.header] at hlen ⊢
        omega
    | cons y b =>
      have hshort : (x :: y :: b).length < 56 := by omega
      simp only [Rlp.encode, Rlp.header, if_pos hshort, List.length_append, List.length_singleton]
      omega

/-- A header fits into its block. -/
theorem length_out_le (h : FrameHeader) (length : ℕ) : (h.out length).length ≤ 16 := by
  have hitems : (Rlp.encodeAll h.items).length ≤ 11 := by
    have hword : ∀ w : BitVec 16, (Rlp.encode (Rlp.ofNat w.toNat)).length ≤ 3 := fun w =>
      length_encode_ofNat w.isLt (by norm_num)
    have hlong : ∀ w : BitVec 32, (Rlp.encode (Rlp.ofNat w.toNat)).length ≤ 5 := fun w =>
      length_encode_ofNat w.isLt (by norm_num)
    cases h with
    | legacy => decide
    | single p =>
      have hp := hword p
      simp only [items, Rlp.encodeAll, List.length_append, List.length_nil]
      omega
    | continuation p s =>
      have hp := hword p
      have hs := hword s
      simp only [items, Rlp.encodeAll, List.length_append, List.length_nil]
      omega
    | first p s t =>
      have hp := hword p
      have hs := hword s
      have ht := hlong t
      simp only [items, Rlp.encodeAll, List.length_append, List.length_nil]
      omega
  have hshort : (Rlp.encodeAll h.items).length < 56 := by omega
  simp only [out, Rlp.encode, Rlp.header, if_pos hshort, List.length_append,
    Rlp.length_fixedBytes, List.length_singleton]
  omega

/-- A header is read back, whatever follows it. -/
theorem ofHeader_out (h : FrameHeader) {length : ℕ} (hlength : length < 2 ^ 24) (rest : Bytes) :
    RLPXFrameInfo.ofHeader (h.out length ++ rest) = some (h.info length) := by
  have htake : (h.out length ++ rest).take 3 = Rlp.fixedBytes 3 length := by
    rw [out, List.append_assoc]
    exact List.take_left' (Rlp.length_fixedBytes 3 length)
  have hdrop : (h.out length ++ rest).drop 3 = Rlp.encode (.list h.items) ++ rest := by
    rw [out, List.append_assoc]
    exact List.drop_left' (Rlp.length_fixedBytes 3 length)
  have hlen : Rlp.ofBigEndian (Rlp.fixedBytes 3 length) = length := by
    rw [Rlp.ofBigEndian_fixedBytes]
    exact Nat.mod_eq_of_lt (by omega)
  have hitem : Rlp.readFirst (Rlp.encode (.list h.items) ++ rest) = some (.list h.items) :=
    Rlp.readFirst_encode _ rest
  have hword : ∀ w : BitVec 16, Rlp.toUint 16 (Rlp.ofNat w.toNat) = some w :=
    Rlp.toUint_ofNat (by norm_num)
  have hlong : ∀ w : BitVec 32, Rlp.toUint 32 (Rlp.ofNat w.toNat) = some w :=
    Rlp.toUint_ofNat (by norm_num)
  have hzero : Rlp.toUint 16 (.data []) = some 0 := by decide
  simp only [RLPXFrameInfo.ofHeader, htake, hdrop, hlen, hitem, Option.bind_eq_bind,
    Option.bind_some]
  cases h <;> simp [items, info, Rlp.get?, Rlp.itemCount, hword, hlong, hzero]

end FrameHeader

/-- Keys, the number of keystream bytes used, and what each MAC has absorbed. -/
structure RLPXFrameCoder where
  frameEncKey : FixedHash 32
  frameEnc : ℕ
  frameDecKey : FixedHash 32
  frameDec : ℕ
  macEncKey : FixedHash 32
  egressMac : Bytes
  ingressMac : Bytes

namespace RLPXFrameCoder

variable (P : Primitives)

/-- Both sides hash the shared secret, the nonces with the acceptor's first, and then what
came out before. The MACs absorb the MAC secret under the nonce of the receiving side and
the handshake message that went in the same direction. -/
def setup (originated : Bool) (remoteEphemeral : Public) (remoteNonce : FixedHash 32)
    (ecdhe : ECDHE) (nonce : FixedHash 32) (ackCipher authCipher : Bytes) :
    Option (RLPXFrameCoder × ECDHE) := do
  let (ephemeralShared, ecdhe) ← ecdhe.agree P remoteEphemeral
  let leftNonce := if originated then remoteNonce else nonce
  let rightNonce := if originated then nonce else remoteNonce
  let nonces := P.sha3 (leftNonce.bytes ++ rightNonce.bytes)
  let sharedSecret := P.sha3 (ephemeralShared.bytes ++ nonces.bytes)
  let aesSecret := P.sha3 (ephemeralShared.bytes ++ sharedSecret.bytes)
  let macSecret := P.sha3 (ephemeralShared.bytes ++ aesSecret.bytes)
  let egressSeed := macSecret ^^^ remoteNonce
  let egressCipher := if originated then authCipher else ackCipher
  -- The MAC secret is recovered from the seed that was written over it.
  let ingressSeed := egressSeed ^^^ remoteNonce ^^^ nonce
  let ingressCipher := if originated then ackCipher else authCipher
  return ({ frameEncKey := aesSecret, frameEnc := 0, frameDecKey := aesSecret, frameDec := 0,
            macEncKey := macSecret, egressMac := egressSeed.bytes ++ egressCipher,
            ingressMac := ingressSeed.bytes ++ ingressCipher }, ecdhe)

/-- The digest, encrypted and combined with the seed or else with itself, is absorbed. -/
def updateMAC (macEncKey : FixedHash 32) (mac seed : Bytes) : Bytes :=
  let prevDigest := P.digest mac
  let encDigest := P.aes macEncKey prevDigest
  mac ++ (encDigest ^^^ if seed.length ≠ 0 then FixedHash.ofRef 16 seed else prevDigest).bytes

variable (c : RLPXFrameCoder)

def egressDigest : FixedHash 16 := P.digest c.egressMac

def ingressDigest : FixedHash 16 := P.digest c.ingressMac

def updateEgressMACWithHeader (headerCipher : Bytes) : RLPXFrameCoder :=
  { c with egressMac := updateMAC P c.macEncKey c.egressMac (cropped headerCipher 0 16) }

def updateEgressMACWithFrame (cipher : Bytes) : RLPXFrameCoder :=
  { c with egressMac := updateMAC P c.macEncKey (c.egressMac ++ cipher) [] }

def updateIngressMACWithHeader (headerCipher : Bytes) : RLPXFrameCoder :=
  { c with ingressMac := updateMAC P c.macEncKey c.ingressMac (cropped headerCipher 0 16) }

def updateIngressMACWithFrame (cipher : Bytes) : RLPXFrameCoder :=
  { c with ingressMac := updateMAC P c.macEncKey (c.ingressMac ++ cipher) [] }

/-- Encrypts bytes with the next part of the egress keystream. -/
def processEnc (b : Bytes) : Bytes × RLPXFrameCoder :=
  (mask (P.keystream c.frameEncKey) c.frameEnc b, { c with frameEnc := c.frameEnc + b.length })

def processDec (b : Bytes) : Bytes × RLPXFrameCoder :=
  (mask (P.keystream c.frameDecKey) c.frameDec b, { c with frameDec := c.frameDec + b.length })

/-- The first half of a frame: 16 bytes of header, filled with zeros, and their digest. -/
def writeHeader (header : Bytes) : Bytes × RLPXFrameCoder :=
  let headerWithMac := header.take 32 ++ List.replicate (32 - header.length) 0
  let (cipher, c) := c.processEnc P (headerWithMac.take 16)
  let c := c.updateEgressMACWithHeader P cipher
  (cipher ++ (c.egressDigest P).bytes, c)

/-- The second half: the payload, its padding and their digest. -/
def writePayload (payload : Bytes) : Bytes × RLPXFrameCoder :=
  let padding := paddingOf payload.length
  let (packet, c) := c.processEnc P payload
  let (zeros, c) := c.processEnc P (List.replicate padding 0)
  let c := c.updateEgressMACWithFrame P (packet ++ zeros)
  (packet ++ zeros ++ (c.egressDigest P).bytes, c)

/-- The bytes of a frame. -/
def writeFrame (header : FrameHeader) (payload : Bytes) : Bytes × RLPXFrameCoder :=
  let (headerWithMac, c) := c.writeHeader P (header.out payload.length)
  let (frame, c) := c.writePayload P payload
  (headerWithMac ++ frame, c)

def writeSingleFramePacket (packet : Bytes) : Bytes × RLPXFrameCoder :=
  c.writeFrame P .legacy packet

/-- The header in place of its encryption, or nothing when its digest is another one. The
MAC has absorbed the header in both cases. -/
def authAndDecryptHeader (io : Bytes) : Option Bytes × RLPXFrameCoder :=
  let c := c.updateIngressMACWithHeader P io
  if FixedHash.ofRef 16 (cropped io 16 16) ≠ c.ingressDigest P then (none, c)
  else
    let (header, c) := c.processDec P (io.take 16)
    (some (header ++ io.drop 16), c)

/-- The padded payload in place of its encryption, with the digest behind it. -/
def authAndDecryptFrame (io : Bytes) : Option Bytes × RLPXFrameCoder :=
  let cipherText := cropped io 0 (io.length - 16)
  let c := c.updateIngressMACWithFrame P cipherText
  if FixedHash.ofRef 16 (io.drop (io.length - 16)) ≠ c.ingressDigest P then (none, c)
  else
    let (frame, c) := c.processDec P (io.take (io.length - 16))
    (some (frame ++ io.drop (io.length - 16)), c)

end RLPXFrameCoder
end XChain
