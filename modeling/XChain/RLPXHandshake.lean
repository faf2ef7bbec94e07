import XChain.Duplex
import XChain.Ecies
import XChain.RLPXLink

/-!
# Handshake

The originator encrypts its signature, key and nonce for the acceptor, which answers with its
ephemeral key and nonce. Either message has a format of fixed size and one that is a list
behind its size. A reader takes as many bytes as the first format has, and goes on with the
second one if it cannot decrypt them.
-/
namespace XChain

namespace P2P

def c_rlpxVersion : ℕ := 4

/-- What comes next. -/
inductive HandshakeState where
  | error
  | new
  | ackAuth
  | ackAuthEIP8
  | writeHello
  | readHello
  deriving DecidableEq

/-- The message that is being read. -/
inductive Reading where
  | auth
  | authEIP8
  | ack
  | ackEIP8
  deriving DecidableEq

/-- What a handshake waits for. A read waits for a number of bytes. -/
inductive Pending where
  | start
  | writing
  | reading (r : Reading) (n : ℕ)
  | hello
  | closed
  | thrown
  deriving DecidableEq

/-- `seed` and `rand` are what will be drawn for the message of this side. -/
structure RLPXHandshake where
  m_alias : Secret
  m_remote : Public
  m_originated : Bool
  m_ecdhe : ECDHE
  m_nonce : FixedHash 32
  seed : EciesSeed
  rand : ℕ
  m_nextState : HandshakeState := .new
  m_auth : Bytes := []
  m_authCipher : Bytes := []
  m_ack : Bytes := []
  m_ackCipher : Bytes := []
  m_remoteEphemeral : Public := .zero 64
  m_remoteNonce : FixedHash 32 := .zero 32
  m_remoteVersion : BitVec 64 := 0
  m_io : Option RLPXFrameCoder := none
  pending : Pending := .start

namespace RLPXHandshake

variable (P : CryptoPrimitives) (h : RLPXHandshake)

/-- Signature, hash of the ephemeral key, key, nonce and a zero. -/
def authPlain : Bytes :=
  let staticShared := P.agree h.m_alias h.m_remote
  let sig := P.sign h.m_ecdhe.ephemeral (staticShared ^^^ h.m_nonce)
  sig.bytes ++ (P.sha3 (P.toPublic h.m_ecdhe.ephemeral).bytes).bytes ++
    (P.toPublic h.m_alias).bytes ++
    h.m_nonce.bytes ++ [0]

def writeAuth : RLPXHandshake × Bytes :=
  let m_authCipher := P.encryptECIES h.seed h.m_remote [] (h.authPlain P)
  ({ h with m_auth := h.authPlain P, m_authCipher := m_authCipher, pending := .writing },
    m_authCipher)

/-- Ephemeral key, nonce and a zero. -/
def ackPlain : Bytes := (P.toPublic h.m_ecdhe.ephemeral).bytes ++ h.m_nonce.bytes ++ [0]

def writeAck : RLPXHandshake × Bytes :=
  let m_ackCipher := P.encryptECIES h.seed h.m_remote [] (h.ackPlain P)
  ({ h with m_ack := h.ackPlain P, m_ackCipher := m_ackCipher, pending := .writing }, m_ackCipher)

/-- The encryption of a text behind the size of what follows the size. -/
def sealEIP8 (plain : Bytes) : Bytes :=
  let prefix2 := Rlp.fixedBytes 2 (plain.length + c_eciesOverhead)
  prefix2 ++ P.encryptECIES h.seed h.m_remote prefix2 plain

/-- A list of ephemeral key, nonce and version, and up to 199 zeros. -/
def ackPlainEIP8 : Bytes :=
  Rlp.encode (.list [.data (P.toPublic h.m_ecdhe.ephemeral).bytes, .data h.m_nonce.bytes,
    Rlp.ofNat c_rlpxVersion]) ++ List.replicate (h.rand % 100 + 100) 0

def writeAckEIP8 : RLPXHandshake × Bytes :=
  let m_ackCipher := h.sealEIP8 P (h.ackPlainEIP8 P)
  ({ h with m_ack := h.ackPlainEIP8 P, m_ackCipher := m_ackCipher, pending := .writing },
    m_ackCipher)

def setAuthValues (sig : XChain.Signature) (remotePubk : Public) (remoteNonce : FixedHash 32)
    (remoteVersion : BitVec 64) : RLPXHandshake :=
  let sharedSecret := P.agree h.m_alias remotePubk
  { h with
    m_remote := remotePubk
    m_remoteNonce := remoteNonce
    m_remoteVersion := remoteVersion
    m_remoteEphemeral := P.recover sig (sharedSecret ^^^ remoteNonce) }

def readAuth : RLPXHandshake := { h with pending := .reading .auth 307 }

def readAck : RLPXHandshake := { h with pending := .reading .ack 210 }

/-- The bytes that have been read begin with the size of what follows the size. -/
def readAuthEIP8 : RLPXHandshake :=
  let size := Rlp.ofBigEndian (h.m_authCipher.take 2)
  { h with
    m_authCipher := h.m_authCipher.take (size + 2)
    pending := .reading .authEIP8 (size + 2 - 307) }

def readAckEIP8 : RLPXHandshake :=
  let size := Rlp.ofBigEndian (h.m_ackCipher.take 2)
  { h with
    m_ackCipher := h.m_ackCipher.take (size + 2)
    pending := .reading .ackEIP8 (size + 2 - 210) }

/-- The hello packets that follow are not looked at. -/
def transition : RLPXHandshake × Bytes :=
  match h.m_nextState with
  | .error => ({ h with pending := .closed }, [])
  | .new =>
    let h := { h with m_nextState := .ackAuth }
    if h.m_originated then h.writeAuth P else (h.readAuth, [])
  | .ackAuth =>
    let h := { h with m_nextState := .writeHello }
    if h.m_originated then (h.readAck, []) else h.writeAck P
  | .ackAuthEIP8 =>
    let h := { h with m_nextState := .writeHello }
    if h.m_originated then (h.readAck, []) else h.writeAckEIP8 P
  | .writeHello =>
    let h := { h with m_nextState := .readHello }
    match RLPXFrameCoder.setup P.toPrimitives h.m_originated h.m_remoteEphemeral h.m_remoteNonce
      h.m_ecdhe
        h.m_nonce h.m_ackCipher h.m_authCipher with
    | none => ({ h with pending := .thrown }, [])
    | some (m_io, m_ecdhe) => ({ h with m_io := some m_io, m_ecdhe := m_ecdhe, pending := .hello },
      [])
  | .readHello => (h, [])

/-- Signature, key, nonce and version. -/
def authItems (m_auth : Bytes) : Option (XChain.Signature × Public × FixedHash 32 × BitVec 64) := do
  let rlp ← Rlp.readFirst m_auth
  let sig ← Rlp.get? rlp 0 >>= Rlp.toHash 65
  let pubk ← Rlp.get? rlp 1 >>= Rlp.toHash 64
  let nonce ← Rlp.get? rlp 2 >>= Rlp.toHash 32
  let version ← Rlp.get? rlp 3 >>= Rlp.toUint 64
  return (sig, pubk, nonce, version)

/-- Ephemeral key, nonce and version. -/
def ackItems (m_ack : Bytes) : Option (Public × FixedHash 32 × BitVec 64) := do
  let rlp ← Rlp.readFirst m_ack
  let ephemeral ← Rlp.get? rlp 0 >>= Rlp.toHash 64
  let nonce ← Rlp.get? rlp 1 >>= Rlp.toHash 32
  let version ← Rlp.get? rlp 2 >>= Rlp.toUint 64
  return (ephemeral, nonce, version)

/-- What is done with the bytes that have been read. -/
def received (data : Bytes) : Reading → RLPXHandshake × Bytes
  | .auth =>
    let h := { h with m_authCipher := data }
    match P.decryptECIES h.m_alias [] h.m_authCipher with
    | some m_auth =>
      let sig := FixedHash.ofRef 65 (cropped m_auth 0 65)
      let pubk := FixedHash.ofRef 64 (cropped m_auth (65 + 32) 64)
      let nonce := FixedHash.ofRef 32 (cropped m_auth (65 + 32 + 64) 32)
      (setAuthValues P { h with m_auth := m_auth } sig pubk nonce 4).transition P
    | none => (h.readAuthEIP8, [])
  | .authEIP8 =>
    let h := { h with m_authCipher := h.m_authCipher ++ data }
    match P.decryptECIES h.m_alias (cropped h.m_authCipher 0 2) (croppedFrom h.m_authCipher 2) with
    | some m_auth =>
      let h := { h with m_auth := m_auth }
      match authItems m_auth with
      | none => ({ h with pending := .thrown }, [])
      | some (sig, pubk, nonce, version) =>
        transition P { h.setAuthValues P sig pubk nonce version with m_nextState := .ackAuthEIP8 }
    | none => transition P { h with m_nextState := .error }
  | .ack =>
    let h := { h with m_ackCipher := data }
    match P.decryptECIES h.m_alias [] h.m_ackCipher with
    | some m_ack =>
      transition P { h with
        m_ack := m_ack
        m_remoteEphemeral := .ofRef 64 (cropped m_ack 0 64)
        m_remoteNonce := .ofRef 32 (cropped m_ack 64 32)
        m_remoteVersion := 4 }
    | none => (h.readAckEIP8, [])
  | .ackEIP8 =>
    let h := { h with m_ackCipher := h.m_ackCipher ++ data }
    match P.decryptECIES h.m_alias (cropped h.m_ackCipher 0 2) (croppedFrom h.m_ackCipher 2) with
    | some m_ack =>
      let h := { h with m_ack := m_ack }
      match ackItems m_ack with
      | none => ({ h with pending := .thrown }, [])
      | some (ephemeral, nonce, version) =>
        transition P { h with
          m_remoteEphemeral := ephemeral
          m_remoteNonce := nonce
          m_remoteVersion := version }
    | none => transition P { h with m_nextState := .error }

example (data : Bytes) (hfail : P.decryptECIES h.m_alias [] data = none) :
    (h.received P data .ack).2 = [] := by
  simp only [received, hfail]

/-- What has been waited for happens, unless there are not bytes enough. -/
def step (wire : Bytes) : RLPXHandshake × Bytes × Bytes :=
  match h.pending with
  | .start | .writing =>
    let (h, out) := h.transition P
    (h, wire, out)
  | .reading r n =>
    if wire.length < n then (h, wire, [])
    else
      let (h, out) := h.received P (wire.take n) r
      (h, wire.drop n, out)
  | .hello | .closed | .thrown => (h, wire, [])

end RLPXHandshake

end P2P
end XChain
