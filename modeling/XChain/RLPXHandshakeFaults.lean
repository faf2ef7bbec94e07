import XChain.Faults
import XChain.RLPXHandshakeRuns

/-!
# What stops the reads of a handshake

The reads once more, with what can go wrong in them. Bytes are taken from a buffer only if they
are there, an agreement on a key that is no point of the curve fails an assertion, and a list
of the wrong shape throws. Nothing catches either.
-/
namespace XChain

namespace P2P

namespace RLPXHandshake

section Checked

variable (P : CryptoPrimitives) (isPoint : Public → Bool)

def agreeChecked (s : Secret) (r : Public) : Except Fault Secret :=
  if isPoint r then .ok (P.agree s r) else .error .assertion

def decryptECIESChecked (k : Secret) (sharedMacData text : Bytes) :
    Except Fault (Option Bytes) := do
  if text.isEmpty then return none
  let first ← Fault.byteAt text 0
  if first < 2 ∨ 4 < first then return none
  if text.length < 1 + 64 + 16 + 1 + 32 then return none
  let announced ← Fault.slice text 1 64
  let z ← agreeChecked P isPoint k (.ofRef 64 announced)
  let key := P.kdf z [] 64
  let eKey := FixedHash.ofRef 16 (cropped key 0 16)
  let mKey := P.sha256 (cropped key 16 16)
  let cipherLen := text.length - 1 - 64 - 16 - 32
  let cipherWithIV ← Fault.slice text (1 + 64) (16 + cipherLen)
  let iv := FixedHash.ofRef 16 (cropped cipherWithIV 0 16)
  let cipherNoIV := cropped cipherWithIV 16 cipherLen
  let msgMac ← Fault.slice text (1 + 64 + 16 + cipherLen) 32
  if (P.hmac mKey (cipherWithIV ++ sharedMacData)).bytes ≠ msgMac then return none
  return some (mask (P.ctr eKey iv) 0 cipherNoIV)

variable (h : RLPXHandshake)

/-- The key on which the next state agrees, if it does on any. -/
def agreedKey : Option Public :=
  match h.m_nextState with
  | .new => if h.m_originated then some h.m_remote else none
  | .ackAuth | .ackAuthEIP8 => if h.m_originated then none else some h.m_remote
  | .writeHello => some h.m_remoteEphemeral
  | .error | .readHello => none

/-- A second agreement with an ephemeral key throws. -/
def transitionChecked : Except Fault (RLPXHandshake × Bytes) :=
  if (h.transition P).1.pending = .thrown then .error .exception
  else if h.agreedKey.all isPoint then .ok (h.transition P)
  else .error .assertion

/-- A read that ends with an error. -/
def failed : RLPXHandshake × Bytes := ({ h with pending := .closed }, [])

def setAuthValuesChecked (sig : XChain.Signature) (remotePubk : Public)
    (remoteNonce : FixedHash 32) (remoteVersion : BitVec 64) : Except Fault RLPXHandshake := do
  let _ ← agreeChecked P isPoint h.m_alias remotePubk
  return h.setAuthValues P sig remotePubk remoteNonce remoteVersion

section Formats

variable {R : Type} (k : Secret) (first : ℕ)

/-- Reads a message of fixed size from the bytes that the peer sends before it closes. -/
def readPlain (wire : Bytes) (failed : R) (good : Bytes → Bytes → Except Fault R)
    (bad : Bytes → Except Fault R) : Except Fault R := do
  if wire.length < first then return failed
  let cipher := wire.take first
  match ← decryptECIESChecked P isPoint k [] cipher with
  | some m => good cipher m
  | none => bad cipher

/-- Reads the rest of a message behind its size. -/
def readSealed (cipher wire : Bytes) (failed : R) (good : Bytes → Bytes → Except Fault R)
    (bad : Bytes → Except Fault R) : Except Fault R := do
  if cipher.length ≠ first then throw .assertion
  let high ← Fault.byteAt cipher 0
  let low ← Fault.byteAt cipher 1
  let size := 256 * high.toNat + low.toNat
  let n := size + 2 - first
  if wire.length < n then return failed
  let cipher := cipher.take (size + 2) ++ wire.take n
  match ← decryptECIESChecked P isPoint k (cropped cipher 0 2) (croppedFrom cipher 2) with
  | some m => good cipher m
  | none => bad cipher

end Formats

def readAuthEIP8Checked (wire : Bytes) : Except Fault (RLPXHandshake × Bytes) :=
  readSealed P isPoint h.m_alias 307 h.m_authCipher wire h.failed
    (fun m_authCipher m_auth =>
      match authItems m_auth with
      | none => throw .exception
      | some (sig, pubk, nonce, version) => do
        let h ← setAuthValuesChecked P isPoint
          { h with m_authCipher := m_authCipher, m_auth := m_auth } sig pubk nonce version
        transitionChecked P isPoint { h with m_nextState := .ackAuthEIP8 })
    fun m_authCipher =>
      transitionChecked P isPoint { h with m_authCipher := m_authCipher, m_nextState := .error }

def readAuthChecked (wire : Bytes) : Except Fault (RLPXHandshake × Bytes) :=
  readPlain P isPoint h.m_alias 307 wire h.failed
    (fun m_authCipher m_auth => do
      let sig := FixedHash.ofRef 65 (cropped m_auth 0 65)
      let pubk := FixedHash.ofRef 64 (cropped m_auth (65 + 32) 64)
      let nonce := FixedHash.ofRef 32 (cropped m_auth (65 + 32 + 64) 32)
      let h ← setAuthValuesChecked P isPoint
        { h with m_authCipher := m_authCipher, m_auth := m_auth } sig pubk nonce 4
      transitionChecked P isPoint h)
    fun m_authCipher =>
      readAuthEIP8Checked P isPoint { h with m_authCipher := m_authCipher } (wire.drop 307)

def readAckEIP8Checked (wire : Bytes) : Except Fault (RLPXHandshake × Bytes) :=
  readSealed P isPoint h.m_alias 210 h.m_ackCipher wire h.failed
    (fun m_ackCipher m_ack =>
      match ackItems m_ack with
      | none => throw .exception
      | some (ephemeral, nonce, version) =>
        transitionChecked P isPoint { h with
          m_ackCipher := m_ackCipher
          m_ack := m_ack
          m_remoteEphemeral := ephemeral
          m_remoteNonce := nonce
          m_remoteVersion := version })
    fun m_ackCipher =>
      transitionChecked P isPoint { h with m_ackCipher := m_ackCipher, m_nextState := .error }

def readAckChecked (wire : Bytes) : Except Fault (RLPXHandshake × Bytes) :=
  readPlain P isPoint h.m_alias 210 wire h.failed
    (fun m_ackCipher m_ack =>
      transitionChecked P isPoint { h with
        m_ackCipher := m_ackCipher
        m_ack := m_ack
        m_remoteEphemeral := .ofRef 64 (cropped m_ack 0 64)
        m_remoteNonce := .ofRef 32 (cropped m_ack 64 32)
        m_remoteVersion := 4 })
    fun m_ackCipher =>
      readAckEIP8Checked P isPoint { h with m_ackCipher := m_ackCipher } (wire.drop 210)

/-- The read of the first message from the other side. -/
def readFirstChecked (wire : Bytes) : Except Fault (RLPXHandshake × Bytes) :=
  if h.m_originated then readAckChecked P isPoint h wire else readAuthChecked P isPoint h wire

end Checked

section Messages

variable (P : CryptoPrimitives) (isPoint : Public → Bool) (k : Secret)

/-- The key in front of a text that is long enough to be decrypted. -/
def announced (text : Bytes) : Option Public :=
  if text.length < 1 + 64 + 16 + 1 + 32 then none
  else if text.headD 0 < 2 ∨ 4 < text.headD 0 then none
  else some (.ofRef 64 ((text.drop 1).take 64))

/-- A message that was decrypted, in the format of fixed size or as a list. -/
inductive Message where
  | plain (m : Bytes)
  | eip8 (m : Bytes)

/-- The size in front of the list format. -/
def eip8Size (wire : Bytes) : ℕ := Rlp.ofBigEndian (wire.take 2)

def eip8Text (wire : Bytes) : Bytes := (wire.take (eip8Size wire + 2)).drop 2

/-- The texts that are tried: the first bytes, and if these cannot be decrypted as many as the
size says. -/
def texts (first : ℕ) (wire : Bytes) : List Bytes :=
  if wire.length < first then []
  else if P.decryptECIES k [] (wire.take first) = none ∧ eip8Size wire + 2 ≤ wire.length then
    [wire.take first, eip8Text wire]
  else [wire.take first]

/-- The message that was sent, if there is one. -/
def message (first : ℕ) (wire : Bytes) : Option Message :=
  if wire.length < first then none
  else match P.decryptECIES k [] (wire.take first) with
    | some m => some (.plain m)
    | none =>
      if wire.length < eip8Size wire + 2 then none
      else (P.decryptECIES k (wire.take 2) (eip8Text wire)).map .eip8

/-- Signature, key, nonce and version in a message. -/
def authValues : Message → Option (XChain.Signature × Public × FixedHash 32 × BitVec 64)
  | .plain m => some (.ofRef 65 (m.take 65), .ofRef 64 ((m.drop 97).take 64),
      .ofRef 32 ((m.drop 161).take 32), 4)
  | .eip8 m => authItems m

/-- Ephemeral key, nonce and version in a message. -/
def ackValues : Message → Option (Public × FixedHash 32 × BitVec 64)
  | .plain m => some (.ofRef 64 (m.take 64), .ofRef 32 ((m.drop 64).take 32), 4)
  | .eip8 m => ackItems m

/-- The values of the other side are those of its message, and the answer is written. -/
structure AuthTaken (x : XChain.Signature × Public × FixedHash 32 × BitVec 64)
    (h' : RLPXHandshake) : Prop where
  remote : h'.m_remote = x.2.1
  nonce : h'.m_remoteNonce = x.2.2.1
  version : h'.m_remoteVersion = x.2.2.2
  ephemeral : h'.m_remoteEphemeral = P.recover x.1 (P.agree k x.2.1 ^^^ x.2.2.1)
  next : h'.m_nextState = .writeHello ∧ h'.pending = .writing

/-- The values of the other side are those of its message, and the hello comes next. -/
structure AckTaken (remote : Public) (x : Public × FixedHash 32 × BitVec 64)
    (h' : RLPXHandshake) : Prop where
  ephemeral : h'.m_remoteEphemeral = x.1
  nonce : h'.m_remoteNonce = x.2.1
  version : h'.m_remoteVersion = x.2.2
  remote : h'.m_remote = remote
  next : h'.m_nextState = .readHello ∧ h'.pending = .hello

variable (h : RLPXHandshake)

/-- The handshake has failed or has gone on with what the message says. -/
def Proceeds (wire : Bytes) (r : RLPXHandshake × Bytes) : Prop :=
  r.1.pending = .closed ∨
    if h.m_originated then ∃ m x, message P h.m_alias 210 wire = some m ∧ ackValues m = some x ∧
      AckTaken h.m_remote x r.1
    else ∃ m x, message P h.m_alias 307 wire = some m ∧ authValues m = some x ∧
      AuthTaken P h.m_alias x r.1

/-- Every text that is tried announces a point, if it announces a key. -/
def PointTexts (first : ℕ) (wire : Bytes) : Prop :=
  ∀ text ∈ texts P k first wire, ∀ pub, announced text = some pub → isPoint pub = true

/-- The texts announce points, and a message that was decrypted has the right shape and its key
is a point. -/
def Harmless (wire : Bytes) : Prop :=
  if h.m_originated then PointTexts P isPoint h.m_alias 210 wire ∧
    ∀ m, message P h.m_alias 210 wire = some m → ∃ x, ackValues m = some x ∧ isPoint x.1 = true
  else PointTexts P isPoint h.m_alias 307 wire ∧
    ∀ m, message P h.m_alias 307 wire = some m → ∃ x, authValues m = some x ∧ isPoint x.2.1 = true

/-- The state in which the first message is read. -/
structure Awaits : Prop where
  state : h.m_nextState = if h.m_originated then .writeHello else .ackAuth
  fresh : h.m_ecdhe.remoteEphemeral.isSet = false

end Messages

section Reads

variable {P : CryptoPrimitives} {isPoint : Public → Bool} {h : RLPXHandshake} {wire : Bytes}

/-- Decryption stays inside of its text, and stops only where the key that is announced is no
point. -/
theorem decryptECIESChecked_eq (k : Secret) (sharedMacData text : Bytes) :
    decryptECIESChecked P isPoint k sharedMacData text
      = if (announced text).all isPoint then .ok (P.decryptECIES k sharedMacData text)
        else .error .assertion := by
  rw [decryptECIESChecked, CryptoPrimitives.decryptECIES, announced]
  cases hempty : text.isEmpty with
  | true =>
    have hnil : text = [] := List.isEmpty_iff.mp hempty
    simp [hnil]
  | false =>
    have hpos : 0 < text.length := List.length_pos_iff.mpr (List.isEmpty_eq_false_iff.mp hempty)
    have hhead : text.headD 0 = text[0] := by
      rw [List.headD_eq_head?_getD, List.head?_eq_getElem?, List.getElem?_eq_getElem hpos,
        Option.getD_some]
    simp only [Bool.false_eq_true, if_false, Fault.byteAt_eq hpos, Fault.ok_bind, hhead,
      Bool.false_or, Bool.or_eq_true, decide_eq_true_eq]
    by_cases hbyte : text[0] < 2 ∨ (4 : UInt8) < text[0]
    · simp [hbyte]
    · by_cases hshort : text.length < 1 + 64 + 16 + 1 + 32
      · simp only [if_neg hbyte, if_pos hshort]
        simp
      · have hpart : cropped text 1 64 = (text.drop 1).take 64 := by
          rw [cropped, if_pos (by omega)]
        simp only [if_neg hbyte, if_neg hshort, Fault.slice_eq (show 1 + 64 ≤ text.length by omega),
          Fault.slice_eq (show 1 + 64 + (16 + (text.length - 1 - 64 - 16 - 32)) ≤ text.length by
            omega),
          Fault.slice_eq (show 1 + 64 + 16 + (text.length - 1 - 64 - 16 - 32) + 32 ≤ text.length by
            omega), Fault.ok_bind, agreeChecked, hpart, Option.all_some]
        by_cases hpoint : isPoint (.ofRef 64 ((text.drop 1).take 64)) = true
        · simp only [if_pos hpoint, Fault.ok_bind]
          split <;> rfl
        · simp only [if_neg hpoint, Fault.error_bind]

theorem transitionChecked_error (hstate : h.m_nextState = .error) :
    transitionChecked P isPoint h = .ok h.failed := by
  simp [transitionChecked, transition, agreedKey, failed, hstate]

theorem ofBigEndian_two {b : Bytes} (hb : 2 ≤ b.length) :
    Rlp.ofBigEndian (b.take 2) = 256 * b[0].toNat + b[1].toNat := by
  match b, hb with
  | x :: y :: b, _ =>
    simp [Rlp.ofBigEndian, Nat.ofDigits_cons]
    omega

theorem take_read (first size : ℕ) :
    (wire.take first).take size ++ (wire.drop first).take (size - first) = wire.take size := by
  by_cases hle : size ≤ first
  · have hnone : size - first = 0 := by omega
    rw [hnone, List.take_zero, List.append_nil, List.take_take, Nat.min_eq_left hle]
  · have hsum : size = first + (size - first) := by omega
    have hall : (wire.take first).take size = wire.take first := by
      rw [List.take_take, Nat.min_eq_right (by omega)]
    rw [hall, ← List.take_add, ← hsum]

section Formats

variable {R : Type} {W : R → Prop} {k : Secret} {first : ℕ} {failed failed' : R}
  {good good' : Bytes → Bytes → Except Fault R} {second bad : Bytes → Except Fault R}

theorem decrypt_settles {β : Type} {S : β → Prop} (sharedMacData text : Bytes)
    (f : Option Bytes → Except Fault β) :
    Fault.Settles S (decryptECIESChecked P isPoint k sharedMacData text >>= f) ↔
      (∀ pub, announced text = some pub → isPoint pub = true) ∧
        Fault.Settles S (f (P.decryptECIES k sharedMacData text)) := by
  rw [decryptECIESChecked_eq]
  cases announced text with
  | none => simp
  | some pub =>
    cases hpub : isPoint pub with
    | false => simp [hpub]
    | true => simp [hpub]

/-- The second read, after the first bytes were kept. -/
theorem readSealed_settles (hfirst : 2 ≤ first) (hlen : first ≤ wire.length) (hW : W failed)
    (hbad : ∀ c, Fault.Settles W (bad c)) :
    Fault.Settles W (readSealed P isPoint k first (wire.take first) (wire.drop first) failed good
      bad) ↔ (eip8Size wire + 2 ≤ wire.length →
        (∀ pub, announced (eip8Text wire) = some pub → isPoint pub = true) ∧
          ∀ m, P.decryptECIES k (wire.take 2) (eip8Text wire) = some m →
            Fault.Settles W (good (wire.take (eip8Size wire + 2)) m)) := by
  have hcipher : (wire.take first).length = first := by
    rw [List.length_take, Nat.min_eq_left hlen]
  have hhigh := Fault.byteAt_eq (b := wire.take first) (i := 0) (by omega)
  have hlow := Fault.byteAt_eq (b := wire.take first) (i := 1) (by omega)
  have hsize : 256 * (wire.take first)[0].toNat + (wire.take first)[1].toNat = eip8Size wire := by
    rw [eip8Size, ofBigEndian_two (by omega)]
    simp
  rw [readSealed]
  simp only [hcipher, hhigh, hlow, hsize, Fault.ok_bind, take_read, ne_eq, not_true_eq_false,
    if_false, List.length_drop]
  by_cases hshort : wire.length < eip8Size wire + 2
  · have hnone : ¬eip8Size wire + 2 ≤ wire.length := by omega
    rw [if_pos (by omega)]
    simp [hW, hnone]
  · have hhead : cropped (wire.take (eip8Size wire + 2)) 0 2 = wire.take 2 := by
      rw [cropped_zero, List.take_take, Nat.min_eq_left (by omega)]
      rw [List.length_take]
      omega
    have htext : croppedFrom (wire.take (eip8Size wire + 2)) 2 = eip8Text wire := by
      rw [croppedFrom_eq, eip8Text]
    have hall : eip8Size wire + 2 ≤ wire.length := by omega
    rw [if_neg (by omega), hhead, htext, decrypt_settles]
    cases P.decryptECIES k (wire.take 2) (eip8Text wire) with
    | none => simp [hbad, hall]
    | some m => simp [hall]

/-- Both reads: what is decrypted is gone on with, and all else fails. -/
theorem read_settles (hfirst : 2 ≤ first) (hW : W failed) (hW' : W failed')
    (hbad : ∀ c, Fault.Settles W (bad c))
    (hsecond : second (wire.take first) =
      readSealed P isPoint k first (wire.take first) (wire.drop first) failed' good' bad) :
    Fault.Settles W (readPlain P isPoint k first wire failed good second) ↔
    PointTexts P isPoint k first wire ∧ ∀ m, message P k first wire = some m →
      match m with
      | .plain m => Fault.Settles W (good (wire.take first) m)
      | .eip8 m => Fault.Settles W (good' (wire.take (eip8Size wire + 2)) m) := by
  rw [readPlain, PointTexts, texts, message]
  by_cases hshort : wire.length < first
  · simp [hshort, hW]
  · rw [if_neg hshort, if_neg hshort, if_neg hshort, decrypt_settles]
    cases P.decryptECIES k [] (wire.take first) with
    | some m => simp
    | none =>
      simp only [hsecond, readSealed_settles hfirst (not_lt.mp hshort) hW' hbad]
      by_cases hrest : wire.length < eip8Size wire + 2
      · have hnone : ¬eip8Size wire + 2 ≤ wire.length := by omega
        simp [hrest, hnone]
      · have hall : eip8Size wire + 2 ≤ wire.length := by omega
        cases P.decryptECIES k (wire.take 2) (eip8Text wire) with
        | none => simp [hrest, hall]
        | some m => simp [hrest, hall, and_assoc]

theorem length_decryptECIES {sharedMacData text m : Bytes}
    (hm : P.decryptECIES k sharedMacData text = some m) : m.length = text.length - 113 := by
  rw [CryptoPrimitives.decryptECIES] at hm
  split_ifs at hm with hbyte hshort
  obtain ⟨-, hm⟩ := Option.ite_none_left_eq_some.mp hm
  obtain rfl := Option.some.inj hm
  have hbody : (cropped text (1 + 64) (16 + (text.length - 1 - 64 - 16 - 32))).length
      = 16 + (text.length - 1 - 64 - 16 - 32) := by
    rw [cropped, if_pos (by omega), List.length_take, List.length_drop]
    omega
  rw [length_mask, cropped, if_pos (by omega), List.length_take, List.length_drop, hbody]
  omega

end Formats

section Transitions

variable {W : RLPXHandshake × Bytes → Prop}

/-- The acceptor answers a key that is a point. -/
theorem auth_settles (isPoint : Public → Bool) (hor : h.m_originated = false)
    (hstate : h.m_nextState = .ackAuth ∨ h.m_nextState = .ackAuthEIP8)
    (x : XChain.Signature × Public × FixedHash 32 × BitVec 64)
    (hW : ∀ r : RLPXHandshake × Bytes, AuthTaken P h.m_alias x r.1 → W r) :
    Fault.Settles W (setAuthValuesChecked P isPoint h x.1 x.2.1 x.2.2.1 x.2.2.2 >>=
      transitionChecked P isPoint) ↔ isPoint x.2.1 = true := by
  cases hpoint : isPoint x.2.1 with
  | false => simp [setAuthValuesChecked, agreeChecked, hpoint]
  | true =>
    obtain hs | hs := hstate
    · simp [setAuthValuesChecked, agreeChecked, hpoint, transitionChecked, agreedKey, transition,
        setAuthValues, hs, hor, writeAck]
      apply hW
      constructor <;> simp
    · simp [setAuthValuesChecked, agreeChecked, hpoint, transitionChecked, agreedKey, transition,
        setAuthValues, hs, hor, writeAckEIP8]
      apply hW
      constructor <;> simp

/-- The originator goes on to the hello with a key that is a point. -/
theorem ack_settles (hstate : h.m_nextState = .writeHello)
    (hfresh : h.m_ecdhe.remoteEphemeral.isSet = false)
    (hW : ∀ r : RLPXHandshake × Bytes, AckTaken h.m_remote
      (h.m_remoteEphemeral, h.m_remoteNonce, h.m_remoteVersion) r.1 → W r) :
    Fault.Settles W (transitionChecked P isPoint h) ↔ isPoint h.m_remoteEphemeral = true := by
  have hsetup : ∃ io, RLPXFrameCoder.setup P.toPrimitives h.m_originated h.m_remoteEphemeral
      h.m_remoteNonce h.m_ecdhe h.m_nonce h.m_ackCipher h.m_authCipher = some io := by
    simp [RLPXFrameCoder.setup, ECDHE.agree, hfresh]
  obtain ⟨⟨io, ecdhe⟩, hio⟩ := hsetup
  cases hpoint : isPoint h.m_remoteEphemeral with
  | false => simp [transitionChecked, agreedKey, transition, hstate, hio, hpoint]
  | true =>
    simp [transitionChecked, agreedKey, transition, hstate, hio, hpoint]
    apply hW
    constructor <;> simp

end Transitions

theorem cropped_eq {b : Bytes} {start count : ℕ} (hb : start + count ≤ b.length) :
    cropped b start count = (b.drop start).take count := by
  rw [cropped, if_pos hb]

theorem message_plain {k : Secret} {first : ℕ} {m : Bytes}
    (hm : message P k first wire = some (.plain m)) : m.length = first - 113 := by
  have hlen : ¬wire.length < first := by
    intro hshort
    rw [message, if_pos hshort] at hm
    cases hm
  rw [message, if_neg hlen] at hm
  have hdecrypt : P.decryptECIES k [] (wire.take first) = some m := by
    cases hd : P.decryptECIES k [] (wire.take first) with
    | none =>
      simp only [hd] at hm
      split_ifs at hm
      simp at hm
    | some m' => simpa [hd] using hm
  rw [length_decryptECIES hdecrypt, List.length_take, Nat.min_eq_left (by omega)]

theorem failed_proceeds (g : RLPXHandshake) : h.Proceeds P wire g.failed := Or.inl rfl

theorem error_proceeds (g : RLPXHandshake) (hstate : g.m_nextState = .error) :
    Fault.Settles (h.Proceeds P wire) (transitionChecked P isPoint g) := by
  rw [transitionChecked_error hstate, Fault.settles_ok]
  exact failed_proceeds g

/-- The state that follows is set after the values, or before them. -/
theorem setAuth_state (state : HandshakeState) (sig : XChain.Signature) (pubk : Public)
    (nonce : FixedHash 32) (version : BitVec 64) :
    (setAuthValuesChecked P isPoint h sig pubk nonce version >>= fun h =>
      transitionChecked P isPoint { h with m_nextState := state }) =
    (setAuthValuesChecked P isPoint { h with m_nextState := state } sig pubk nonce version >>=
      transitionChecked P isPoint) := by
  rw [setAuthValuesChecked, setAuthValuesChecked, agreeChecked]
  split <;> rfl

theorem readAuth_settles (hor : h.m_originated = false) (hstate : h.m_nextState = .ackAuth) :
    Fault.Settles (h.Proceeds P wire) (readAuthChecked P isPoint h wire) ↔
      h.Harmless P isPoint wire := by
  have htaken : ∀ m x, message P h.m_alias 307 wire = some m → authValues m = some x →
      ∀ r : RLPXHandshake × Bytes, AuthTaken P h.m_alias x r.1 → h.Proceeds P wire r := by
    intro m x hm hx r hr
    right
    rw [if_neg (by simp [hor])]
    exact ⟨m, x, hm, hx, hr⟩
  rw [readAuthChecked, read_settles (by omega) (failed_proceeds h) (failed_proceeds _)
    (fun c => error_proceeds _ rfl) rfl, Harmless, if_neg (by simp [hor])]
  apply and_congr_right
  intro _
  apply forall₂_congr
  intro m hm
  cases m with
  | plain m =>
    have hlen : m.length = 194 := message_plain hm
    simp only [cropped_eq (show 0 + 65 ≤ m.length by omega),
      cropped_eq (show 65 + 32 + 64 ≤ m.length by omega),
      cropped_eq (show 65 + 32 + 64 + 32 ≤ m.length by omega)]
    have hsettles := auth_settles isPoint (h := { h with
      m_authCipher := wire.take 307, m_auth := m }) hor (Or.inl hstate) _ (htaken _ _ hm rfl)
    apply hsettles.trans
    simp [authValues]
  | eip8 m =>
    cases hx : authItems m with
    | none => simp [authValues, hx]
    | some x =>
      have hsettles := auth_settles isPoint (h := { h with
        m_authCipher := wire.take (eip8Size wire + 2), m_auth := m, m_nextState := .ackAuthEIP8 })
        hor (Or.inr rfl) x (htaken _ _ hm hx)
      obtain ⟨sig, pubk, nonce, version⟩ := x
      simp only [hx]
      rw [setAuth_state]
      apply hsettles.trans
      simp [authValues, hx]

theorem readAck_settles (hor : h.m_originated = true) (hstate : h.m_nextState = .writeHello)
    (hfresh : h.m_ecdhe.remoteEphemeral.isSet = false) :
    Fault.Settles (h.Proceeds P wire) (readAckChecked P isPoint h wire) ↔
      h.Harmless P isPoint wire := by
  have htaken : ∀ m x, message P h.m_alias 210 wire = some m → ackValues m = some x →
      ∀ r : RLPXHandshake × Bytes, AckTaken h.m_remote x r.1 → h.Proceeds P wire r := by
    intro m x hm hx r hr
    right
    rw [if_pos hor]
    exact ⟨m, x, hm, hx, hr⟩
  rw [readAckChecked, read_settles (by omega) (failed_proceeds h) (failed_proceeds _)
    (fun c => error_proceeds _ rfl) rfl, Harmless, if_pos hor]
  apply and_congr_right
  intro _
  apply forall₂_congr
  intro m hm
  cases m with
  | plain m =>
    have hlen : m.length = 97 := message_plain hm
    simp only [cropped_eq (show 0 + 64 ≤ m.length by omega),
      cropped_eq (show 64 + 32 ≤ m.length by omega)]
    refine Iff.trans (ack_settles ?_ ?_ ?_) ?_
    · exact hstate
    · exact hfresh
    · exact htaken _ _ hm rfl
    · simp [ackValues]
  | eip8 m =>
    cases hx : ackItems m with
    | none => simp [ackValues, hx]
    | some x =>
      obtain ⟨ephemeral, nonce, version⟩ := x
      simp only [hx]
      refine Iff.trans (ack_settles ?_ ?_ ?_) ?_
      · exact hstate
      · exact hfresh
      · exact htaken _ _ hm hx
      · simp [ackValues, hx]

/-- From a new handshake on, the first message is awaited. -/
theorem awaits_acceptor (hor : h.m_originated = false) (hstate : h.m_nextState = .new)
    (hfresh : h.m_ecdhe.remoteEphemeral.isSet = false) :
    (h.transition P).1.Awaits ∧ (h.transition P).1.pending = .reading .auth 307 := by
  simp only [transition, hstate, hor]
  exact ⟨⟨by simp [readAuth], hfresh⟩, rfl⟩

theorem awaits_originator (hor : h.m_originated = true) (hstate : h.m_nextState = .new)
    (hfresh : h.m_ecdhe.remoteEphemeral.isSet = false) :
    ((h.transition P).1.transition P).1.Awaits ∧
      ((h.transition P).1.transition P).1.pending = .reading .ack 210 := by
  simp only [transition, hstate, hor, writeAuth]
  exact ⟨⟨by simp [readAck], hfresh⟩, rfl⟩

end Reads

section Example

/-- The field of the curve. -/
def fieldPrime : ℕ := 2 ^ 256 - 2 ^ 32 - 977

/-- The coordinates are those of a point of the curve. -/
def onCurve (pub : Public) : Bool :=
  let x := Rlp.ofBigEndian (pub.bytes.take 32)
  let y := Rlp.ofBigEndian (pub.bytes.drop 32)
  x < fieldPrime && y < fieldPrime && y * y % fieldPrime = (x * x * x + 7) % fieldPrime

/-- An acceptor that waits for the first message. -/
def waiting : RLPXHandshake := authReading (identityOf 11)

theorem waiting_awaits : waiting.Awaits := ⟨rfl, rfl⟩

/-- The first bytes of a stranger that announce a key which is no point. -/
def strange : Bytes := 4 :: List.replicate 306 0

end Example

end RLPXHandshake

end P2P
end XChain
