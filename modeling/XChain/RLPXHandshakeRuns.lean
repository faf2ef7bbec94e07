import XChain.RLPXHandshake

/-!
# Both sides of a handshake agree

Each side follows a script: what it reads in one stage is what the other side has written in
an earlier one. In the end both hold the same two messages and the keys of the other side,
whichever of the formats is used.
-/
namespace XChain

namespace P2P

open Rlp

/-- What a side has drawn or holds before the handshake. -/
structure Identity where
  m_alias : Secret
  ephemeral : Secret
  m_nonce : FixedHash 32
  seed : EciesSeed
  rand : ℕ

namespace RLPXHandshake

variable (P : CryptoPrimitives) (o a : Identity)

/-- A handshake with a known host. -/
def originator : RLPXHandshake where
  m_alias := o.m_alias
  m_remote := P.toPublic a.m_alias
  m_originated := true
  m_ecdhe := .fresh o.ephemeral
  m_nonce := o.m_nonce
  seed := o.seed
  rand := o.rand

/-- A handshake with whoever has connected. -/
def acceptor : RLPXHandshake where
  m_alias := a.m_alias
  m_remote := .zero 64
  m_originated := false
  m_ecdhe := .fresh a.ephemeral
  m_nonce := a.m_nonce
  seed := a.seed
  rand := a.rand

/-- What `writeAuth` signs with the ephemeral key. -/
def authSignature : XChain.Signature :=
  P.sign o.ephemeral (P.agree o.m_alias (P.toPublic a.m_alias) ^^^ o.m_nonce)

/-- A list of signature, key, nonce and version, and any bytes. The code reads this format
and does not write it. -/
def authPlainEIP8 (version : BitVec 64) (padding : Bytes) : Bytes :=
  encode (.list [.data (authSignature P o a).bytes, .data (P.toPublic o.m_alias).bytes,
    .data o.m_nonce.bytes, ofNat version.toNat]) ++ padding

/-- The acceptor when it knows the originator. -/
def answering (version : BitVec 64) : RLPXHandshake :=
  { acceptor a with
    m_remote := P.toPublic o.m_alias
    m_remoteNonce := o.m_nonce
    m_remoteVersion := version
    m_remoteEphemeral := P.toPublic o.ephemeral }

section Messages

/-- The secret of the static keys, whichever side computes it. -/
theorem recover_authSignature :
    P.recover (authSignature P o a) (P.agree a.m_alias (P.toPublic o.m_alias) ^^^ o.m_nonce) =
      P.toPublic o.ephemeral := by
  rw [P.agree_comm a.m_alias o.m_alias, authSignature, P.recover_sign]

theorem authPlain_originator : (originator P o a).authPlain P =
    (authSignature P o a).bytes ++ (P.sha3 (P.toPublic o.ephemeral).bytes).bytes ++
      (P.toPublic o.m_alias).bytes ++ o.m_nonce.bytes ++ [0] := rfl

theorem length_authPlain (h : RLPXHandshake) : (h.authPlain P).length = 194 := by
  simp [authPlain]

theorem length_ackPlain (h : RLPXHandshake) : (h.ackPlain P).length = 97 := by
  simp [ackPlain]

/-- The signature, the key and the nonce of a message of fixed size. -/
theorem authPlain_parts :
    cropped ((originator P o a).authPlain P) 0 65 = (authSignature P o a).bytes ∧
    cropped ((originator P o a).authPlain P) (65 + 32) 64 = (P.toPublic o.m_alias).bytes ∧
      cropped ((originator P o a).authPlain P) (65 + 32 + 64) 32 = o.m_nonce.bytes := by
  refine ⟨?_, ?_, ?_⟩
  · apply cropped_part (a := []) (c := (P.sha3 (P.toPublic o.ephemeral).bytes).bytes ++
      ((P.toPublic o.m_alias).bytes ++ (o.m_nonce.bytes ++ [0])))
    · simp [authPlain_originator]
    · rfl
    · simp
  · apply cropped_part (a := (authSignature P o a).bytes ++
      (P.sha3 (P.toPublic o.ephemeral).bytes).bytes)
      (c := o.m_nonce.bytes ++ [0])
    · simp [authPlain_originator]
    · simp
    · simp
  · apply cropped_part (authPlain_originator P o a)
    · simp
    · simp

theorem ackPlain_parts (h : RLPXHandshake) :
    cropped (h.ackPlain P) 0 64 = (P.toPublic h.m_ecdhe.ephemeral).bytes ∧
      cropped (h.ackPlain P) 64 32 = h.m_nonce.bytes := by
  constructor
  · apply cropped_part (a := []) (c := h.m_nonce.bytes ++ [0])
    · simp [ackPlain]
    · rfl
    · simp
  · apply cropped_part (c := [0]) rfl
    · simp
    · simp

theorem authItems_authPlainEIP8 (version : BitVec 64) (padding : Bytes) :
    authItems (authPlainEIP8 P o a version padding) =
      some (authSignature P o a, P.toPublic o.m_alias, o.m_nonce, version) := by
  have hversion : toUint 64 (ofNat version.toNat) = some version := toUint_ofNat (by decide) version
  rw [authItems, authPlainEIP8, readFirst_encode]
  simp [get?, hversion]

theorem ackItems_ackPlainEIP8 (h : RLPXHandshake) :
    ackItems (h.ackPlainEIP8 P) = some (P.toPublic h.m_ecdhe.ephemeral, h.m_nonce, 4) := by
  have hversion : toUint 64 (ofNat c_rlpxVersion) = some 4 := by decide
  rw [ackItems, ackPlainEIP8, readFirst_encode]
  simp [get?, hversion]

end Messages

section Sealed

variable {P} {h : RLPXHandshake} {plain : Bytes}

theorem length_sealEIP8 (hne : plain ≠ []) : (h.sealEIP8 P plain).length = plain.length + 115 := by
  rw [sealEIP8, List.length_append, length_fixedBytes, P.length_encryptECIES _ _ _ hne,
    c_eciesOverhead]
  omega

theorem take_sealEIP8 :
    (h.sealEIP8 P plain).take 2 = fixedBytes 2 (plain.length + c_eciesOverhead) := by
  apply List.take_left'
  exact length_fixedBytes 2 _

/-- The size in front is that of what follows it. -/
theorem size_sealEIP8 (hne : plain ≠ []) (hsize : plain.length + c_eciesOverhead < 2 ^ 16) :
    ofBigEndian ((h.sealEIP8 P plain).take 2) + 2 = (h.sealEIP8 P plain).length := by
  have hlt : plain.length + c_eciesOverhead < 256 ^ 2 := lt_of_lt_of_eq hsize (by norm_num)
  rw [take_sealEIP8, ofBigEndian_fixedBytes, length_sealEIP8 hne, Nat.mod_eq_of_lt hlt,
    c_eciesOverhead]

theorem decrypt_sealEIP8 {k : Secret} (hremote : h.m_remote = P.toPublic k) (hne : plain ≠ []) :
    P.decryptECIES k (cropped (h.sealEIP8 P plain) 0 2) (croppedFrom (h.sealEIP8 P plain) 2) =
      some plain := by
  have hlen := length_fixedBytes 2 (plain.length + c_eciesOverhead)
  have hbegin : cropped (h.sealEIP8 P plain) 0 2 = fixedBytes 2 (plain.length + c_eciesOverhead) :=
    cropped_part (a := []) rfl rfl hlen
  have hrest : croppedFrom (h.sealEIP8 P plain) 2 =
      P.encryptECIES h.seed h.m_remote (fixedBytes 2 (plain.length + c_eciesOverhead)) plain := by
    rw [croppedFrom_eq, sealEIP8, List.drop_left' hlen]
  rw [hbegin, hrest, hremote, P.decrypt_encrypt _ _ _ hne]

end Sealed

section Ack

variable (h : RLPXHandshake)

theorem length_encode_data {b : Bytes} (h2 : 2 ≤ b.length) :
    (encode (.data b)).length = (header 0x80 b.length).length + b.length := by
  match b with
  | _ :: _ :: _ => simp [encode]

theorem length_ackPlainEIP8 : (h.ackPlainEIP8 P).length = 202 + h.rand % 100 := by
  have hkey : (encode (.data (P.toPublic h.m_ecdhe.ephemeral).bytes)).length = 66 := by
    rw [length_encode_data (by simp), FixedHash.size]
    decide
  have hnonce : (encode (.data h.m_nonce.bytes)).length = 33 := by
    rw [length_encode_data (by simp), FixedHash.size]
    decide
  have hversion : (encode (ofNat c_rlpxVersion)).length = 1 := by decide
  have hheader : (header 0xc0 100).length = 2 := by decide
  have hitems : (encodeAll [.data (P.toPublic h.m_ecdhe.ephemeral).bytes, .data h.m_nonce.bytes,
      ofNat c_rlpxVersion]).length = 100 := by
    simp only [encodeAll, List.length_append, List.length_nil, hkey, hnonce, hversion]
  rw [ackPlainEIP8, encode, List.length_append, List.length_append, hitems, hheader,
    List.length_replicate]
  omega

theorem ackPlainEIP8_ne_nil : h.ackPlainEIP8 P ≠ [] := by
  apply List.ne_nil_of_length_pos
  rw [length_ackPlainEIP8]
  omega

/-- The size of an answer begins with a byte with which no encryption begins. -/
theorem ackEIP8_not_ack (k : Secret) :
    P.decryptECIES k [] ((h.sealEIP8 P (h.ackPlainEIP8 P)).take 210) = none := by
  have hhead : ((h.sealEIP8 P (h.ackPlainEIP8 P)).take 210).headD 0 = 1 := by
    have hlen := length_ackPlainEIP8 P h
    have hdigit : (h.ackPlainEIP8 P).length + 113 = 256 + (59 + h.rand % 100) := by omega
    rw [sealEIP8, c_eciesOverhead, hdigit, fixedBytes_succ]
    simp only [List.cons_append, List.take_succ_cons, List.headD_cons]
    have hdiv : (256 + (59 + h.rand % 100)) / 256 ^ 1 = 1 := by omega
    rw [hdiv]
    rfl
  rw [CryptoPrimitives.decryptECIES, hhead]
  simp

end Ack

section Stages

/-- The originator while its message is being written. -/
def authWriting (auth authCipher : Bytes) : RLPXHandshake :=
  { originator P o a with
    m_nextState := .ackAuth
    m_auth := auth
    m_authCipher := authCipher
    pending := .writing }

/-- The originator while it reads the answer. -/
def ackReading (auth authCipher : Bytes) : RLPXHandshake :=
  { authWriting P o a auth authCipher with
    m_nextState := .writeHello
    pending := .reading .ack 210 }

/-- The originator when it sends its hello. -/
def originatorDone (auth authCipher ack ackCipher : Bytes) (io : RLPXFrameCoder) : RLPXHandshake :=
  { ackReading P o a auth authCipher with
    m_ack := ack
    m_ackCipher := ackCipher
    m_remoteEphemeral := P.toPublic a.ephemeral
    m_remoteNonce := a.m_nonce
    m_remoteVersion := 4
    m_nextState := .readHello
    m_io := some io
    m_ecdhe := ⟨o.ephemeral, P.toPublic a.ephemeral⟩
    pending := .hello }

/-- The acceptor while it reads the message. -/
def authReading : RLPXHandshake :=
  { acceptor a with
    m_nextState := .ackAuth
    pending := .reading .auth 307 }

/-- The acceptor while its answer is being written. -/
def ackWriting (version : BitVec 64) (auth authCipher ack ackCipher : Bytes) : RLPXHandshake :=
  { answering P o a version with
    m_nextState := .writeHello
    m_auth := auth
    m_authCipher := authCipher
    m_ack := ack
    m_ackCipher := ackCipher
    pending := .writing }

/-- The acceptor when it sends its hello. -/
def acceptorDone (version : BitVec 64) (auth authCipher ack ackCipher : Bytes)
    (io : RLPXFrameCoder) :
    RLPXHandshake :=
  { ackWriting P o a version auth authCipher ack ackCipher with
    m_nextState := .readHello
    m_io := some io
    m_ecdhe := ⟨a.ephemeral, P.toPublic o.ephemeral⟩
    pending := .hello }

/-- The coder that the originator sets up. -/
def OriginatorCoder (authCipher ackCipher : Bytes) (io : RLPXFrameCoder) : Prop :=
  RLPXFrameCoder.setup P.toPrimitives true (P.toPublic a.ephemeral) a.m_nonce (.fresh o.ephemeral)
    o.m_nonce
    ackCipher authCipher = some (io, ⟨o.ephemeral, P.toPublic a.ephemeral⟩)

/-- The coder that the acceptor sets up. -/
def AcceptorCoder (authCipher ackCipher : Bytes) (io : RLPXFrameCoder) : Prop :=
  RLPXFrameCoder.setup P.toPrimitives false (P.toPublic o.ephemeral) o.m_nonce (.fresh a.ephemeral)
    a.m_nonce
    ackCipher authCipher = some (io, ⟨a.ephemeral, P.toPublic o.ephemeral⟩)

variable {P o a}

theorem step_reading {h h' : RLPXHandshake} {r : Reading} {n : ℕ} {data out : Bytes}
    (hpending : h.pending = .reading r n) (hlen : data.length = n)
    (hreceived : h.received P data r = (h', out))
    (rest : Bytes) : h.step P (data ++ rest) = (h', rest, out) := by
  have hle : ¬(data ++ rest).length < n := by
    rw [List.length_append]
    omega
  rw [step, hpending]
  simp only [if_neg hle, List.take_left' hlen, List.drop_left' hlen, hreceived]

theorem step_waiting {h : RLPXHandshake} {r : Reading} {n : ℕ} (hpending : h.pending = .reading r n)
    {wire : Bytes} (hlt : wire.length < n) : h.step P wire = (h, wire, []) := by
  rw [step, hpending]
  simp only [if_pos hlt]

/-- The answer has been read. -/
theorem transition_originator {auth authCipher ack ackCipher : Bytes} {io : RLPXFrameCoder}
    (hio : OriginatorCoder P o a authCipher ackCipher io) :
    transition P { ackReading P o a auth authCipher with
      m_ack := ack
      m_ackCipher := ackCipher
      m_remoteEphemeral := P.toPublic a.ephemeral
      m_remoteNonce := a.m_nonce
      m_remoteVersion := 4 } = (originatorDone P o a auth authCipher ack ackCipher io, []) := by
  rw [OriginatorCoder] at hio
  simp only [transition, ackReading, authWriting, originator, hio]
  rfl

/-- The answer has been written. -/
theorem transition_acceptor {version : BitVec 64} {auth authCipher ack ackCipher : Bytes}
    {io : RLPXFrameCoder} (hio : AcceptorCoder P o a authCipher ackCipher io) :
    transition P (ackWriting P o a version auth authCipher ack ackCipher) =
      (acceptorDone P o a version auth authCipher ack ackCipher io, []) := by
  rw [AcceptorCoder] at hio
  simp only [transition, ackWriting, answering, acceptor, hio]
  rfl

end Stages

section Plain

variable {P o a}

variable (P o a) in
/-- The message of the originator. -/
def auth : Bytes := P.encryptECIES o.seed (P.toPublic a.m_alias) [] ((originator P o a).authPlain P)

variable (P o a) in
/-- The answer of the acceptor. -/
def ack : Bytes := P.encryptECIES a.seed (P.toPublic o.m_alias) [] ((acceptor a).ackPlain P)

theorem authPlain_ne_nil (h : RLPXHandshake) : h.authPlain P ≠ [] :=
  List.ne_nil_of_length_pos (by rw [length_authPlain]; omega)

theorem ackPlain_ne_nil (h : RLPXHandshake) : h.ackPlain P ≠ [] :=
  List.ne_nil_of_length_pos (by rw [length_ackPlain]; omega)

theorem length_auth : (auth P o a).length = 307 := by
  rw [auth, P.length_encryptECIES _ _ _ (authPlain_ne_nil _), length_authPlain, c_eciesOverhead]

theorem length_ack : (ack P o a).length = 210 := by
  rw [ack, P.length_encryptECIES _ _ _ (ackPlain_ne_nil _), length_ackPlain, c_eciesOverhead]

theorem received_auth : (authReading a).received P (auth P o a) .auth =
    (ackWriting P o a 4 ((originator P o a).authPlain P) (auth P o a) ((acceptor a).ackPlain P)
    (ack P o a),
      ack P o a) := by
  have hdecrypt : P.decryptECIES a.m_alias [] (auth P o a) =
    some ((originator P o a).authPlain P) :=
    P.decrypt_encrypt _ _ _ (authPlain_ne_nil _)
  obtain ⟨hsig, hpubk, hnonce⟩ := authPlain_parts P o a
  simp only [received, authReading, acceptor, hdecrypt, hsig, hpubk, hnonce, FixedHash.ofRef_self,
    setAuthValues, recover_authSignature, transition]
  rfl

theorem received_ack {authText authCipher : Bytes} {io : RLPXFrameCoder}
    (hio : OriginatorCoder P o a authCipher (ack P o a) io) :
    (ackReading P o a authText authCipher).received P (ack P o a) .ack =
      (originatorDone P o a authText authCipher ((acceptor a).ackPlain P) (ack P o a) io, []) := by
  have hdecrypt : P.decryptECIES o.m_alias [] (ack P o a) = some ((acceptor a).ackPlain P) :=
    P.decrypt_encrypt _ _ _ (ackPlain_ne_nil _)
  obtain ⟨hkey, hnonce⟩ := ackPlain_parts P (acceptor a)
  rw [← transition_originator hio]
  simp only [received, ackReading, authWriting, originator, hdecrypt, hkey, hnonce,
    FixedHash.ofRef_self]
  rfl

end Plain

section EIP8

variable {P o a} {version : BitVec 64} {padding : Bytes}

variable (P o a version padding) in
/-- A message of an originator that uses the other format. -/
def authEIP8 : Bytes := (originator P o a).sealEIP8 P (authPlainEIP8 P o a version padding)

variable (P o a) in
/-- The answer of the acceptor to it. -/
def ackEIP8 : Bytes := (answering P o a 0).sealEIP8 P ((acceptor a).ackPlainEIP8 P)

/-- The first bytes of a message, which the acceptor could not decrypt. -/
def authReadingEIP8 (a : Identity) (authCipher : Bytes) : RLPXHandshake :=
  { authReading a with
    m_authCipher := authCipher.take 307
    pending := .reading .authEIP8 (authCipher.length - 307) }

/-- The first bytes of an answer, which the originator could not decrypt. -/
def ackReadingEIP8 (P : CryptoPrimitives) (o a : Identity) (authText authCipher ackCipher : Bytes) :
    RLPXHandshake :=
  { ackReading P o a authText authCipher with
    m_ackCipher := ackCipher.take 210
    pending := .reading .ackEIP8 (ackCipher.length - 210) }

theorem authPlainEIP8_ne_nil : authPlainEIP8 P o a version padding ≠ [] := by
  rw [authPlainEIP8]
  exact List.append_ne_nil_of_left_ne_nil (encode_ne_nil _) _

theorem length_ackEIP8 : (ackEIP8 P o a).length = 317 + a.rand % 100 := by
  have hrand : (acceptor a).rand = a.rand := rfl
  rw [ackEIP8, length_sealEIP8 (ackPlainEIP8_ne_nil P _), length_ackPlainEIP8, hrand]
  omega

theorem received_auth_first (hlen : 307 ≤ (authEIP8 P o a version padding).length)
    (hsize : (authEIP8 P o a version padding).length < 2 ^ 16 + 2)
    (hfirst : P.decryptECIES a.m_alias [] ((authEIP8 P o a version padding).take 307) = none) :
    (authReading a).received P ((authEIP8 P o a version padding).take 307) .auth =
      (authReadingEIP8 a (authEIP8 P o a version padding), []) := by
  have hfits : (authPlainEIP8 P o a version padding).length + c_eciesOverhead < 2 ^ 16 := by
    rw [authEIP8, length_sealEIP8 authPlainEIP8_ne_nil] at hsize
    rw [c_eciesOverhead]
    omega
  have hsizeEq := size_sealEIP8 (P := P) (h := originator P o a) authPlainEIP8_ne_nil hfits
  rw [← authEIP8] at hsizeEq
  have htake : ((authEIP8 P o a version padding).take 307).take 2 =
      (authEIP8 P o a version padding).take 2 := by
    rw [List.take_take]
    rfl
  have hwhole : ((authEIP8 P o a version padding).take 307).take
    (authEIP8 P o a version padding).length =
      (authEIP8 P o a version padding).take 307 := by
    rw [List.take_take, Nat.min_eq_right hlen]
  simp only [received, authReading, acceptor, hfirst, readAuthEIP8, htake, hsizeEq, hwhole]
  rfl

theorem received_authEIP8 :
    (authReadingEIP8 a (authEIP8 P o a version padding)).received P
        ((authEIP8 P o a version padding).drop 307) .authEIP8 =
      (ackWriting P o a version (authPlainEIP8 P o a version padding)
      (authEIP8 P o a version padding)
        ((acceptor a).ackPlainEIP8 P) (ackEIP8 P o a), ackEIP8 P o a) := by
  have hdecrypt : P.decryptECIES a.m_alias (cropped (authEIP8 P o a version padding) 0 2)
      (croppedFrom (authEIP8 P o a version padding) 2) =
      some (authPlainEIP8 P o a version padding) :=
    decrypt_sealEIP8 rfl authPlainEIP8_ne_nil
  simp only [received, authReadingEIP8, authReading, acceptor, List.take_append_drop, hdecrypt,
    authItems_authPlainEIP8, setAuthValues, recover_authSignature, transition]
  rfl

theorem received_ack_first (authText authCipher : Bytes) :
    (ackReading P o a authText authCipher).received P ((ackEIP8 P o a).take 210) .ack =
      (ackReadingEIP8 P o a authText authCipher (ackEIP8 P o a), []) := by
  have hlen : (ackEIP8 P o a).length = 317 + a.rand % 100 := length_ackEIP8
  have hfirst : P.decryptECIES o.m_alias [] ((ackEIP8 P o a).take 210) = none := by
    rw [ackEIP8]
    exact ackEIP8_not_ack P (answering P o a 0) o.m_alias
  have hfits : ((acceptor a).ackPlainEIP8 P).length + c_eciesOverhead < 2 ^ 16 := by
    rw [length_ackPlainEIP8, c_eciesOverhead]
    omega
  have hsizeEq := size_sealEIP8 (P := P) (h := answering P o a 0)
    (ackPlainEIP8_ne_nil P (acceptor a)) hfits
  rw [← ackEIP8] at hsizeEq
  have htake : ((ackEIP8 P o a).take 210).take 2 = (ackEIP8 P o a).take 2 := by
    rw [List.take_take]
    rfl
  have hwhole : ((ackEIP8 P o a).take 210).take (ackEIP8 P o a).length =
    (ackEIP8 P o a).take 210 := by
    rw [List.take_take, Nat.min_eq_right (by omega)]
  simp only [received, ackReading, authWriting, originator, hfirst, readAckEIP8, htake, hsizeEq,
    hwhole]
  rfl

theorem received_ackEIP8 {authText authCipher : Bytes} {io : RLPXFrameCoder}
    (hio : OriginatorCoder P o a authCipher (ackEIP8 P o a) io) :
    (ackReadingEIP8 P o a authText authCipher (ackEIP8 P o a)).received P ((ackEIP8 P o a).drop 210)
        .ackEIP8 =
      (originatorDone P o a authText authCipher ((acceptor a).ackPlainEIP8 P) (ackEIP8 P o a) io,
      []) := by
  have hdecrypt : P.decryptECIES o.m_alias (cropped (ackEIP8 P o a) 0 2)
    (croppedFrom (ackEIP8 P o a) 2) =
      some ((acceptor a).ackPlainEIP8 P) := decrypt_sealEIP8 rfl (ackPlainEIP8_ne_nil P _)
  rw [← transition_originator hio]
  simp only [received, ackReadingEIP8, ackReading, authWriting, originator, List.take_append_drop,
    hdecrypt,
    ackItems_ackPlainEIP8]
  rfl

end EIP8

section Scripts

variable (io : RLPXFrameCoder) (version : BitVec 64) (padding : Bytes)

def originatorScript : Script RLPXHandshake where
  stage
    | 0 => originator P o a
    | 1 => authWriting P o a ((originator P o a).authPlain P) (auth P o a)
    | 2 => ackReading P o a ((originator P o a).authPlain P) (auth P o a)
    | _ => originatorDone P o a ((originator P o a).authPlain P) (auth P o a)
      ((acceptor a).ackPlain P)
        (ack P o a) io
  last := 3
  took i := if i < 3 then 0 else 210
  wrote i := if i < 1 then 0 else 307

def acceptorScript : Script RLPXHandshake where
  stage
    | 0 => acceptor a
    | 1 => authReading a
    | 2 => ackWriting P o a 4 ((originator P o a).authPlain P) (auth P o a)
      ((acceptor a).ackPlain P)
        (ack P o a)
    | _ => acceptorDone P o a 4 ((originator P o a).authPlain P) (auth P o a)
      ((acceptor a).ackPlain P)
        (ack P o a) io
  last := 3
  took i := if i < 2 then 0 else 307
  wrote i := if i < 2 then 0 else 210

/-- The originator has begun to write a message of the other format. -/
def originatorScriptEIP8 : Script RLPXHandshake where
  stage
    | 0 => authWriting P o a (authPlainEIP8 P o a version padding) (authEIP8 P o a version padding)
    | 1 => ackReading P o a (authPlainEIP8 P o a version padding) (authEIP8 P o a version padding)
    | 2 => ackReadingEIP8 P o a (authPlainEIP8 P o a version padding)
      (authEIP8 P o a version padding)
        (ackEIP8 P o a)
    | _ => originatorDone P o a (authPlainEIP8 P o a version padding)
      (authEIP8 P o a version padding)
        ((acceptor a).ackPlainEIP8 P) (ackEIP8 P o a) io
  last := 3
  took i := if i < 2 then 0 else if i < 3 then 210 else (ackEIP8 P o a).length
  wrote _ := (authEIP8 P o a version padding).length

def acceptorScriptEIP8 : Script RLPXHandshake where
  stage
    | 0 => acceptor a
    | 1 => authReading a
    | 2 => authReadingEIP8 a (authEIP8 P o a version padding)
    | 3 => ackWriting P o a version (authPlainEIP8 P o a version padding)
      (authEIP8 P o a version padding)
        ((acceptor a).ackPlainEIP8 P) (ackEIP8 P o a)
    | _ => acceptorDone P o a version (authPlainEIP8 P o a version padding)
        (authEIP8 P o a version padding) ((acceptor a).ackPlainEIP8 P) (ackEIP8 P o a) io
  last := 4
  took i := if i < 2 then 0 else if i < 3 then 307 else (authEIP8 P o a version padding).length
  wrote i := if i < 3 then 0 else (ackEIP8 P o a).length

variable {P o a io version padding}

theorem piece_all {l : Bytes} {n : ℕ} (h : l.length = n) : piece l 0 n = l := by
  rw [piece, List.drop_zero, Nat.sub_zero, ← h, List.take_length]

theorem piece_rest {l : Bytes} (n : ℕ) : piece l n l.length = l.drop n := by
  rw [piece]
  apply List.take_of_length_le
  rw [List.length_drop]

theorem step_originator (rest : Bytes) : (originator P o a).step P rest =
    (authWriting P o a ((originator P o a).authPlain P) (auth P o a), rest, auth P o a) := rfl

theorem step_authWriting (authText authCipher rest : Bytes) :
    (authWriting P o a authText authCipher).step P rest =
      (ackReading P o a authText authCipher, rest, []) := rfl

theorem step_acceptor (rest : Bytes) : (acceptor a).step P rest = (authReading a, rest, []) := rfl

theorem step_ackWriting {authText authCipher ackText ackCipher : Bytes}
    (hio : AcceptorCoder P o a authCipher ackCipher io) (rest : Bytes) :
    (ackWriting P o a version authText authCipher ackText ackCipher).step P rest =
      (acceptorDone P o a version authText authCipher ackText ackCipher io, rest, []) := by
  have hpending : (ackWriting P o a version authText authCipher ackText ackCipher).pending =
    .writing := rfl
  rw [step, hpending]
  simp only [transition_acceptor hio]

theorem originator_follows (hio : OriginatorCoder P o a (auth P o a) (ack P o a) io) :
    Follows (step P) (originatorScript P o a io) (ack P o a) (auth P o a) := by
  refine ⟨fun i j hle => ?_, fun i j hle => ?_, fun i hi rest => ?_, fun i hi w hw => ?_,
    fun w => rfl⟩
  · simp only [originatorScript]
    split_ifs <;> omega
  · simp only [originatorScript]
    split_ifs <;> omega
  · match i, hi with
    | 0, _ =>
      have hpiece : piece (auth P o a) 0 307 = auth P o a := piece_all length_auth
      show step P _ (piece _ 0 0 ++ rest) = (_, rest, piece _ 0 307)
      rw [piece_self, List.nil_append, hpiece]
      exact step_originator rest
    | 1, _ =>
      show step P _ (piece _ 0 0 ++ rest) = (_, rest, piece _ 307 307)
      rw [piece_self, List.nil_append, piece_self]
      exact step_authWriting _ _ rest
    | 2, _ =>
      have hpiece : piece (ack P o a) 0 210 = ack P o a := piece_all length_ack
      show step P _ (piece _ 0 210 ++ rest) = (_, rest, piece _ 307 307)
      rw [hpiece, piece_self]
      exact step_reading rfl length_ack (received_ack hio) rest
  · have hlt : i < 3 := hi
    obtain rfl | rfl | rfl : i = 0 ∨ i = 1 ∨ i = 2 := by omega
    · simp [originatorScript] at hw
    · simp [originatorScript] at hw
    · have hshort : w.length < 210 := by simpa [originatorScript] using hw
      exact step_waiting rfl hshort

theorem acceptor_follows (hio : AcceptorCoder P o a (auth P o a) (ack P o a) io) :
    Follows (step P) (acceptorScript P o a io) (auth P o a) (ack P o a) := by
  refine ⟨fun i j hle => ?_, fun i j hle => ?_, fun i hi rest => ?_, fun i hi w hw => ?_,
    fun w => rfl⟩
  · simp only [acceptorScript]
    split_ifs <;> omega
  · simp only [acceptorScript]
    split_ifs <;> omega
  · match i, hi with
    | 0, _ =>
      show step P _ (piece _ 0 0 ++ rest) = (_, rest, piece _ 0 0)
      rw [piece_self, List.nil_append, piece_self]
      exact step_acceptor rest
    | 1, _ =>
      have hin : piece (auth P o a) 0 307 = auth P o a := piece_all length_auth
      have hout : piece (ack P o a) 0 210 = ack P o a := piece_all length_ack
      show step P _ (piece _ 0 307 ++ rest) = (_, rest, piece _ 0 210)
      rw [hin, hout]
      exact step_reading rfl length_auth received_auth rest
    | 2, _ =>
      show step P _ (piece _ 307 307 ++ rest) = (_, rest, piece _ 210 210)
      rw [piece_self, List.nil_append, piece_self]
      exact step_ackWriting hio rest
  · have hlt : i < 3 := hi
    obtain rfl | rfl | rfl : i = 0 ∨ i = 1 ∨ i = 2 := by omega
    · simp [acceptorScript] at hw
    · have hshort : w.length < 307 := by simpa [acceptorScript] using hw
      exact step_waiting rfl hshort
    · simp [acceptorScript] at hw

theorem originator_follows_EIP8
    (hio : OriginatorCoder P o a (authEIP8 P o a version padding) (ackEIP8 P o a) io) :
    Follows (step P) (originatorScriptEIP8 P o a io version padding) (ackEIP8 P o a)
      (authEIP8 P o a version padding) := by
  have hlen : (ackEIP8 P o a).length = 317 + a.rand % 100 := length_ackEIP8
  refine ⟨fun i j hle => ?_, fun i j hle => ?_, fun i hi rest => ?_, fun i hi w hw => ?_,
    fun w => rfl⟩
  · simp only [originatorScriptEIP8]
    split_ifs <;> omega
  · exact le_rfl
  · match i, hi with
    | 0, _ =>
      show step P _ (piece _ 0 0 ++ rest) =
        (_, rest, piece _ (authEIP8 P o a version padding).length
          (authEIP8 P o a version padding).length)
      rw [piece_self, List.nil_append, piece_self]
      exact step_authWriting _ _ rest
    | 1, _ =>
      have hin : piece (ackEIP8 P o a) 0 210 = (ackEIP8 P o a).take 210 := rfl
      have htake : ((ackEIP8 P o a).take 210).length = 210 := by
        rw [List.length_take]
        omega
      show step P _ (piece _ 0 210 ++ rest) =
        (_, rest, piece _ (authEIP8 P o a version padding).length
          (authEIP8 P o a version padding).length)
      rw [hin, piece_self]
      exact step_reading rfl htake (received_ack_first _ _) rest
    | 2, _ =>
      show step P _ (piece _ 210 (ackEIP8 P o a).length ++ rest) =
        (_, rest, piece _ (authEIP8 P o a version padding).length
          (authEIP8 P o a version padding).length)
      rw [piece_rest, piece_self]
      exact step_reading rfl List.length_drop (received_ackEIP8 hio) rest
  · have hlt : i < 3 := hi
    obtain rfl | rfl | rfl : i = 0 ∨ i = 1 ∨ i = 2 := by omega
    · simp [originatorScriptEIP8] at hw
    · have hshort : w.length < 210 := by simpa [originatorScriptEIP8] using hw
      exact step_waiting rfl hshort
    · have hshort : w.length < (ackEIP8 P o a).length - 210 := by simpa [originatorScriptEIP8]
        using hw
      exact step_waiting rfl hshort

theorem acceptor_follows_EIP8 (hlen : 307 ≤ (authEIP8 P o a version padding).length)
    (hsize : (authEIP8 P o a version padding).length < 2 ^ 16 + 2)
    (hfirst : P.decryptECIES a.m_alias [] ((authEIP8 P o a version padding).take 307) = none)
    (hio : AcceptorCoder P o a (authEIP8 P o a version padding) (ackEIP8 P o a) io) :
    Follows (step P) (acceptorScriptEIP8 P o a io version padding) (authEIP8 P o a version padding)
      (ackEIP8 P o a) := by
  refine ⟨fun i j hle => ?_, fun i j hle => ?_, fun i hi rest => ?_, fun i hi w hw => ?_,
    fun w => rfl⟩
  · simp only [acceptorScriptEIP8]
    split_ifs <;> omega
  · simp only [acceptorScriptEIP8]
    split_ifs <;> omega
  · match i, hi with
    | 0, _ =>
      show step P _ (piece _ 0 0 ++ rest) = (_, rest, piece _ 0 0)
      rw [piece_self, List.nil_append, piece_self]
      exact step_acceptor rest
    | 1, _ =>
      have hin : piece (authEIP8 P o a version padding) 0 307 =
          (authEIP8 P o a version padding).take 307 := rfl
      have htake : ((authEIP8 P o a version padding).take 307).length = 307 := by
        rw [List.length_take, Nat.min_eq_left hlen]
      show step P _ (piece _ 0 307 ++ rest) = (_, rest, piece _ 0 0)
      rw [hin, piece_self]
      exact step_reading rfl htake (received_auth_first hlen hsize hfirst) rest
    | 2, _ =>
      have hout : piece (ackEIP8 P o a) 0 (ackEIP8 P o a).length = ackEIP8 P o a := piece_all rfl
      show step P _ (piece _ 307 (authEIP8 P o a version padding).length ++ rest) =
        (_, rest, piece _ 0 (ackEIP8 P o a).length)
      rw [piece_rest, hout]
      exact step_reading rfl List.length_drop received_authEIP8 rest
    | 3, _ =>
      show step P _ (piece _ (authEIP8 P o a version padding).length
        (authEIP8 P o a version padding).length ++
        rest) = (_, rest, piece _ (ackEIP8 P o a).length (ackEIP8 P o a).length)
      rw [piece_self, List.nil_append, piece_self]
      exact step_ackWriting hio rest
  · have hlt : i < 4 := hi
    obtain rfl | rfl | rfl | rfl : i = 0 ∨ i = 1 ∨ i = 2 ∨ i = 3 := by omega
    · simp [acceptorScriptEIP8] at hw
    · have hshort : w.length < 307 := by simpa [acceptorScriptEIP8] using hw
      exact step_waiting rfl hshort
    · have hshort : w.length < (authEIP8 P o a version padding).length - 307 := by
        simpa [acceptorScriptEIP8] using hw
      exact step_waiting rfl hshort
    · simp [acceptorScriptEIP8] at hw

/-- The acceptor goes on once the message is written, and the originator once the acceptor is
done. -/
theorem scripts_live (io' : RLPXFrameCoder) :
    Live (originatorScript P o a io) (acceptorScript P o a io') := by
  intro i hi j hj hrest _ _
  have hj3 : j ≤ 3 := hj
  simp only [Script.Ready, originatorScript, acceptorScript] at hrest ⊢
  by_cases hfirst : i < 1
  · left
    rw [if_pos (by omega)]
    omega
  · by_cases hdone : j < 3
    · right
      rw [if_neg hfirst]
      split_ifs <;> omega
    · left
      rw [if_neg (show ¬ j < 2 by omega)]
      split_ifs <;> omega

/-- The message is written from the start, so the acceptor goes on until it is done. -/
theorem scripts_live_EIP8 (io' : RLPXFrameCoder)
    (hlen : 307 ≤ (authEIP8 P o a version padding).length) :
    Live (originatorScriptEIP8 P o a io version padding)
      (acceptorScriptEIP8 P o a io' version padding) := by
  have hack : (ackEIP8 P o a).length = 317 + a.rand % 100 := length_ackEIP8
  intro i hi j hj hrest _ _
  have hj4 : j ≤ 4 := hj
  simp only [Script.Ready, originatorScriptEIP8, acceptorScriptEIP8] at hrest ⊢
  by_cases hdone : j < 4
  · right
    split_ifs <;> omega
  · left
    rw [if_neg (show ¬ j < 3 by omega)]
    split_ifs <;> omega

end Scripts

section Agreement

/-- Two sides that have connected. -/
def connected : Duplex RLPXHandshake UInt8 where
  left := originator P o a
  right := acceptor a
  toLeft := []
  toRight := []

/-- The originator writes a message of the other format. -/
def connectedEIP8 (version : BitVec 64) (padding : Bytes) : Duplex RLPXHandshake UInt8 where
  left := authWriting P o a (authPlainEIP8 P o a version padding) (authEIP8 P o a version padding)
  right := acceptor a
  toLeft := []
  toRight := authEIP8 P o a version padding

/-- Both sides have come through `WriteHello` with the keys, the nonce and the messages of
the handshake, and each reads what the other one writes. -/
structure Agreed (w : Duplex RLPXHandshake UInt8) : Prop where
  hello : w.left.pending = .hello ∧ w.right.pending = .hello
  remote : w.left.m_remote = P.toPublic a.m_alias ∧ w.right.m_remote = P.toPublic o.m_alias
  remoteEphemeral : w.left.m_remoteEphemeral = P.toPublic a.ephemeral ∧
    w.right.m_remoteEphemeral = P.toPublic o.ephemeral
  remoteNonce : w.left.m_remoteNonce = a.m_nonce ∧ w.right.m_remoteNonce = o.m_nonce
  authCipher : w.left.m_authCipher = w.right.m_authCipher
  ackCipher : w.left.m_ackCipher = w.right.m_ackCipher
  coders : ∃ l r, w.left.m_io = some l ∧ w.right.m_io = some r ∧ l.egress = r.ingress ∧
    r.egress = l.ingress

variable {P o a}

/-- Each side sets up a coder, and what one writes the other reads. -/
theorem coders_mirrored (authCipher ackCipher : Bytes) :
    ∃ l r, OriginatorCoder P o a authCipher ackCipher l ∧
    AcceptorCoder P o a authCipher ackCipher r ∧ l.egress = r.ingress ∧ r.egress = l.ingress :=
  RLPXFrameCoder.setup_mirrored P.toPrimitives o.ephemeral a.ephemeral o.m_nonce a.m_nonce ackCipher
    authCipher

theorem connected_agrees {turn : ℕ → Bool} (hfair : Fair turn) :
    ∃ n, ∀ m, n ≤ m → Agreed P o a (after (Duplex.step (step P)) turn (connected P o a) m) := by
  obtain ⟨l, r, hl, hr, hlr, hrl⟩ := coders_mirrored (P := P) (o := o) (a := a) (auth P o a)
    (ack P o a)
  obtain ⟨n, hn⟩ := scripts_end (originator_follows hl) (acceptor_follows hr) (scripts_live r) rfl
    rfl hfair
  have hstart : connected P o a = .stages (originatorScript P o a l) (acceptorScript P o a r)
    (auth P o a)
      (ack P o a) 0 0 := rfl
  refine ⟨n, fun m hle => ?_⟩
  rw [hstart, hn m hle]
  exact ⟨⟨rfl, rfl⟩, ⟨rfl, rfl⟩, ⟨rfl, rfl⟩, ⟨rfl, rfl⟩, rfl, rfl, l, r, rfl, rfl, hlr, hrl⟩

theorem connectedEIP8_agrees {turn : ℕ → Bool} (hfair : Fair turn) {version : BitVec 64}
    {padding : Bytes}
    (hlen : 307 ≤ (authEIP8 P o a version padding).length)
    (hsize : (authEIP8 P o a version padding).length < 2 ^ 16 + 2)
    (hfirst : P.decryptECIES a.m_alias [] ((authEIP8 P o a version padding).take 307) = none) :
    ∃ n, ∀ m, n ≤ m →
      Agreed P o a (after (Duplex.step (step P)) turn (connectedEIP8 P o a version padding) m) := by
  obtain ⟨l, r, hl, hr, hlr, hrl⟩ := coders_mirrored (P := P) (o := o) (a := a)
    (authEIP8 P o a version padding) (ackEIP8 P o a)
  obtain ⟨n, hn⟩ := scripts_end (originator_follows_EIP8 hl)
    (acceptor_follows_EIP8 hlen hsize hfirst hr)
    (scripts_live_EIP8 r hlen) rfl rfl hfair
  have hall : piece (authEIP8 P o a version padding) 0 (authEIP8 P o a version padding).length =
      authEIP8 P o a version padding := piece_all rfl
  have hstart : connectedEIP8 P o a version padding =
      .stages (originatorScriptEIP8 P o a l version padding)
        (acceptorScriptEIP8 P o a r version padding)
        (authEIP8 P o a version padding) (ackEIP8 P o a) 0 0 := by
    show _ = Duplex.mk _ _ (piece _ 0 0) (piece _ 0 (authEIP8 P o a version padding).length)
    rw [hall, piece_self]
    rfl
  refine ⟨n, fun m hle => ?_⟩
  rw [hstart, hn m hle]
  exact ⟨⟨rfl, rfl⟩, ⟨rfl, rfl⟩, ⟨rfl, rfl⟩, ⟨rfl, rfl⟩, rfl, rfl, l, r, rfl, rfl, hlr, hrl⟩

end Agreement

/-- Whoever takes turns first, in the end both sides agree, after a message of fixed size and
after one of the other format that is long enough and of which the acceptor cannot decrypt
the first bytes. -/
theorem handshake_agrees {turn : ℕ → Bool} (hfair : Fair turn) :
    (∃ n, ∀ m, n ≤ m → Agreed P o a (after (Duplex.step (step P)) turn (connected P o a) m)) ∧
    ∀ version padding, 307 ≤ (authEIP8 P o a version padding).length →
      (authEIP8 P o a version padding).length < 2 ^ 16 + 2 →
      P.decryptECIES a.m_alias [] ((authEIP8 P o a version padding).take 307) = none →
      ∃ n, ∀ m, n ≤ m →
        Agreed P o a (after (Duplex.step (step P)) turn (connectedEIP8 P o a version padding) m) :=
  ⟨connected_agrees hfair, fun _ _ hlen hsize hfirst =>
    connectedEIP8_agrees hfair hlen hsize hfirst⟩

section Example

/-- Primitives to evaluate a handshake with: a signature is the secret. -/
def xorCrypto : CryptoPrimitives where
  toPrimitives := xorPrimitives
  sign k _ := ⟨k.bytes ++ List.replicate 33 0, by simp⟩
  recover s _ := xorPrimitives.toPublic (.ofRef 32 (s.bytes.take 32))
  sha256 := xorPrimitives.sha3
  hmac key b := xorPrimitives.sha3 (key.bytes ++ b)
  ctr _ _ i := UInt8.ofNat i
  recover_sign k _ := by simp

theorem length_repeated (b : UInt8) : (List.replicate 32 b).length = 32 := List.length_replicate

/-- A side with small keys. -/
def identityOf (b : UInt8) : Identity where
  m_alias := ⟨List.replicate 32 b, length_repeated b⟩
  ephemeral := ⟨List.replicate 32 (b + 1), List.length_replicate⟩
  m_nonce := ⟨List.replicate 32 (b + 2), List.length_replicate⟩
  seed := ⟨⟨List.replicate 32 (b + 3), List.length_replicate⟩, .zero 16⟩
  rand := 0

def alternately (n : ℕ) : Bool := n % 2 = 0

theorem handshake_agrees_alternately :
    (∃ n, ∀ m, n ≤ m → Agreed xorCrypto (identityOf 1) (identityOf 11)
    (after (Duplex.step (step xorCrypto))
      alternately (connected xorCrypto (identityOf 1) (identityOf 11)) m)) ∧
    ∃ n, ∀ m, n ≤ m → Agreed xorCrypto (identityOf 1) (identityOf 11)
      (after (Duplex.step (step xorCrypto))
      alternately (connectedEIP8 xorCrypto (identityOf 1) (identityOf 11) 4 (List.replicate 100 0))
        m) := by
  have hfair : Fair alternately := by
    intro isLeft n
    cases isLeft with
    | true => exact ⟨2 * n, by omega, decide_eq_true (by omega)⟩
    | false => exact ⟨2 * n + 1, by omega, decide_eq_false (by omega)⟩
  obtain ⟨hplain, heip8⟩ := handshake_agrees xorCrypto (identityOf 1) (identityOf 11) hfair
  refine ⟨hplain, heip8 4 (List.replicate 100 0) ?_ ?_ ?_⟩
  · decide +kernel
  · decide +kernel
  · decide +kernel

end Example

end RLPXHandshake

end P2P
end XChain
