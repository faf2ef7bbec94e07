import XChain.Json
import XChain.Text

/-!
# Key files

A secret under a password. A key is derived from the password; a half of it encrypts the secret
and the other half is hashed with the result, so that a wrong password is noticed before
anything is decrypted. Older files hash other parts and are read under a flag of compatibility.
-/
namespace XChain

namespace FixedHash

variable {n : ℕ}

theorem length_take_append_zeros (n : ℕ) (b : Bytes) :
    (b.take n ++ List.replicate (n - b.length) 0).length = n := by
  simp
  omega

/-- The front of the bytes, with zeros behind them. -/
def alignLeft (n : ℕ) (b : Bytes) : FixedHash n :=
  ⟨b.take n ++ List.replicate (n - b.length) 0, length_take_append_zeros n b⟩

theorem length_zeros_append_drop (n : ℕ) (b : Bytes) :
    (List.replicate (n - b.length) 0 ++ b.drop (b.length - n)).length = n := by
  simp
  omega

/-- The end of the bytes, with zeros in front of them. -/
def alignRight (n : ℕ) (b : Bytes) : FixedHash n :=
  ⟨List.replicate (n - b.length) 0 ++ b.drop (b.length - n), length_zeros_append_drop n b⟩

/-- Reads hexadecimal digits. They throw where they are none, and stand for zero if they are not
as many as there should be. -/
def ofHex? (n : ℕ) (s : Text) : Option (FixedHash n) := (Text.fromHex? s).map (ofRef n)

@[simp] theorem ofHex?_toHex (a : FixedHash n) : ofHex? n (Text.toHex a.bytes) = some a := by
  simp [ofHex?]

end FixedHash

namespace KeyFile

inductive KDF where
  | PBKDF2_SHA256
  | Scrypt
  deriving DecidableEq

/-- What is called: key derivation, which may throw, a hash, a cipher, and a reader and a writer
of json. -/
structure Crypto where
  pbkdf2 : Text → Bytes → BitVec 32 → BitVec 32 → Option Bytes
  scrypt : Text → Bytes → BitVec 64 → BitVec 32 → BitVec 32 → BitVec 32 → Option Bytes
  sha3 : Bytes → FixedHash 32
  encryptSymNoAuth : FixedHash 16 → FixedHash 16 → Bytes → Bytes
  decryptSymNoAuth : FixedHash 16 → FixedHash 16 → Bytes → Bytes
  read_string : Text → Option Json
  write_string : Json → Bool → Text

variable (C : Crypto)

/-- The names of what is supported. -/
def pbkdf2Name : Text := ['p', 'b', 'k', 'd', 'f', '2']

def scryptName : Text := ['s', 'c', 'r', 'y', 'p', 't']

def prfName : Text := ['h', 'm', 'a', 'c', '-', 's', 'h', 'a', '2', '5', '6']

def cipherName : Text := ['a', 'e', 's', '-', '1', '2', '8', '-', 'c', 't', 'r']

theorem scryptName_ne : scryptName ≠ pbkdf2Name := by decide

def asBytes (s : Text) : Bytes := s.map fun c => UInt8.ofNat c.toNat

/-- The last bytes of a key. One that is shorter has none. -/
def lastSixteen (key : Bytes) : Bytes :=
  if 16 ≤ key.length then key.drop (key.length - 16) else []

section Encrypt

/-- A new key, with what is needed to derive it again. -/
def deriveNewKey (pass : Text) (kdf : KDF) (salt : FixedHash 32) : Option (Bytes × JsonObj) :=
  let dklen : BitVec 32 := 32
  let iterations : BitVec 32 := 1 <<< 18
  match kdf with
  | .Scrypt =>
    let p : BitVec 32 := 1
    let r : BitVec 32 := 8
    let params := (((((JsonObj.nil.set "n" (.int (iterations.setWidth 64))).set "r"
      (.int (r.signExtend 64))).set "p" (.int (p.signExtend 64))).set "dklen"
      (.int (dklen.signExtend 64))).set "salt" (.str (Text.toHex salt.bytes)))
    let ret := (JsonObj.nil.set "kdf" (.str scryptName)).set "kdfparams" (.obj params)
    (C.scrypt pass salt.bytes (iterations.setWidth 64) r p dklen).map (·, ret)
  | .PBKDF2_SHA256 =>
    let params := ((((JsonObj.nil.set "prf" (.str prfName)).set "c"
      (.int (iterations.signExtend 64))).set "salt" (.str (Text.toHex salt.bytes))).set "dklen"
      (.int (dklen.signExtend 64)))
    let ret := (JsonObj.nil.set "kdf" (.str pbkdf2Name)).set "kdfparams" (.obj params)
    (C.pbkdf2 pass salt.bytes iterations dklen).map (·, ret)

/-- The object of an encrypted secret. The salt and the start of the cipher are random. -/
def encryptObj (v : Bytes) (pass : Text) (kdf : KDF) (salt : FixedHash 32) (iv : FixedHash 16) :
    Option JsonObj := do
  let (derivedKey, ret) ← deriveNewKey C pass kdf salt
  if derivedKey.isEmpty then none
  else
    let ret := ret.set "cipher" (.str cipherName)
    let key := FixedHash.alignLeft 16 derivedKey
    let params := JsonObj.nil.set "iv" (.str (Text.toHex iv.bytes))
    let ret := ret.set "cipherparams" (.obj params)
    let cipherText := C.encryptSymNoAuth key iv v
    if cipherText.isEmpty then none
    else
      let ret := ret.set "ciphertext" (.str (Text.toHex cipherText))
      let mac := C.sha3 (cropped derivedKey 16 16 ++ cipherText)
      some (ret.set "mac" (.str (Text.toHex mac.bytes)))

def encrypt (v : Bytes) (pass : Text) (kdf : KDF) (salt : FixedHash 32) (iv : FixedHash 16) :
    Option Text :=
  (encryptObj C v pass kdf salt iv).map fun o => C.write_string (.obj o) true

end Encrypt

section Decrypt

variable (o : JsonObj)

/-- The key of a password. Nothing is thrown for a function that is not known, but there is no
key then. -/
def deriveKey (pass : Text) : Option (Option Bytes) := do
  let kdf ← (o.get "kdf").getStr
  if kdf = pbkdf2Name then
    let params ← (o.get "kdfparams").getObj
    let prf ← (params.get "prf").getStr
    if prf ≠ prfName then some none
    else
      let iterations ← (params.get "c").getInt
      let salt ← (params.get "salt").getStr
      let dklen ← (params.get "dklen").getInt
      (C.pbkdf2 pass (Text.fromHex salt) iterations dklen).map some
  else if kdf = scryptName then
    let p ← (o.get "kdfparams").getObj
    let salt ← (p.get "salt").getStr
    let n ← (p.get "n").getInt
    let r ← (p.get "r").getInt
    let q ← (p.get "p").getInt
    let dklen ← (p.get "dklen").getInt
    (C.scrypt pass (Text.fromHex salt) (n.signExtend 64) r q dklen).map some
  else some none

/-- Whether the file is of the old format. -/
def compat : Option Bool :=
  if o.count "compat" then (o.get "compat").getStr.map fun s => decide (s = ['2']) else some false

/-- Whether the mac, if there is one, is the one that it should be. -/
def checkMac (derivedKey cipherText : Bytes) : Option Bool :=
  if o.count "mac" then do
    let mac ← (o.get "mac").getStr >>= FixedHash.ofHex? 32
    let old ← compat o
    let macExp := C.sha3 ((if old then lastSixteen derivedKey else cropped derivedKey 16 16)
      ++ cipherText)
    some (mac = macExp)
  else if o.count "sillymac" then do
    let mac ← (o.get "sillymac").getStr >>= FixedHash.ofHex? 32
    let json ← (o.get "sillymacjson").getStr
    let macExp := C.sha3 (asBytes json ++ lastSixteen derivedKey ++ cipherText)
    some (mac = macExp)
  else some true

def openCipher (derivedKey cipherText : Bytes) : Option Bytes := do
  let cipher ← (o.get "cipher").getStr
  if cipher = cipherName then
    let params ← (o.get "cipherparams").getObj
    let iv ← (params.get "iv").getStr >>= FixedHash.ofHex? 16
    let old ← compat o
    if old then
      let key := FixedHash.alignRight 16 (C.sha3 (lastSixteen derivedKey)).bytes
      some (C.decryptSymNoAuth key iv cipherText)
    else some (C.decryptSymNoAuth (.alignLeft 16 derivedKey) iv cipherText)
  else some []

/-- A key that is too short is only used for the old format. -/
def tooShort (derivedKey : Bytes) : Option Bool :=
  if derivedKey.length < 32 then (compat o).map (!·) else some false

/-- What is decrypted: no bytes if something is wrong, or nothing at all if something throws. -/
def decryptObj (pass : Text) : Option Bytes := do
  match ← deriveKey C o pass with
  | none => some []
  | some derivedKey =>
    let short ← tooShort o derivedKey
    if short then some []
    else
      let cipherText ← (o.get "ciphertext").getStr.map Text.fromHex
      let good ← checkMac C o derivedKey cipherText
      if good then openCipher C o derivedKey cipherText else some []

def decrypt (v pass : Text) : Option Bytes :=
  (C.read_string v >>= Json.getObj) >>= fun o => decryptObj C o pass

end Decrypt

/-- Derived keys have the size that is asked for, and decrypting undoes encrypting. -/
structure Crypto.Lawful (C : Crypto) : Prop where
  pbkdf2_length : ∀ pass salt c n key, C.pbkdf2 pass salt c n = some key → key.length = n.toNat
  scrypt_length : ∀ pass salt n r p dklen key, C.scrypt pass salt n r p dklen = some key →
    key.length = dklen.toNat
  decrypt_encrypt : ∀ key iv v, C.decryptSymNoAuth key iv (C.encryptSymNoAuth key iv v) = v

section RoundTrip

variable {C : Crypto} {o : JsonObj} {v key : Bytes} {pass : Text} {kdf : KDF} {salt : FixedHash 32}
  {iv : FixedHash 16}

/-- A new key has 32 bytes and is derived again from what is kept with it, whatever else the
object holds. -/
theorem deriveKey_new (hC : C.Lawful) {ret : JsonObj}
    (h : deriveNewKey C pass kdf salt = some (key, ret)) (hkdf : o.get "kdf" = ret.get "kdf")
    (hparams : o.get "kdfparams" = ret.get "kdfparams") :
    key.length = 32 ∧ deriveKey C o pass = some (some key) := by
  cases kdf with
  | PBKDF2_SHA256 =>
    simp only [deriveNewKey, Option.map_eq_some_iff, Prod.mk.injEq] at h
    obtain ⟨k, hk, rfl, rfl⟩ := h
    simp only [JsonObj.get_set] at hkdf hparams
    refine ⟨hC.pbkdf2_length _ _ _ _ _ hk, ?_⟩
    simpa [deriveKey, hkdf, hparams] using hk
  | Scrypt =>
    simp only [deriveNewKey, Option.map_eq_some_iff, Prod.mk.injEq] at h
    obtain ⟨k, hk, rfl, rfl⟩ := h
    simp only [JsonObj.get_set] at hkdf hparams
    refine ⟨hC.scrypt_length _ _ _ _ _ _ _ hk, ?_⟩
    simpa [deriveKey, hkdf, hparams, scryptName_ne] using hk

/-- An object of a new key has no other entries. -/
theorem count_deriveNewKey {ret : JsonObj} (h : deriveNewKey C pass kdf salt = some (key, ret))
    {k : String} (hkdf : k ≠ "kdf") (hparams : k ≠ "kdfparams") : ret.count k = false := by
  cases kdf with
  | PBKDF2_SHA256 =>
    simp only [deriveNewKey, Option.map_eq_some_iff, Prod.mk.injEq] at h
    obtain ⟨k, -, -, rfl⟩ := h
    simp [hkdf, hparams]
  | Scrypt =>
    simp only [deriveNewKey, Option.map_eq_some_iff, Prod.mk.injEq] at h
    obtain ⟨k, -, -, rfl⟩ := h
    simp [hkdf, hparams]

/-- A secret is decrypted with the password that it was encrypted with. -/
theorem decryptObj_encryptObj (hC : C.Lawful) (h : encryptObj C v pass kdf salt iv = some o) :
    decryptObj C o pass = some v := by
  simp only [encryptObj, Option.bind_eq_bind, Option.bind_eq_some_iff] at h
  obtain ⟨⟨key, ret⟩, hnew, h⟩ := h
  split_ifs at h with hkey hcipher
  set cipherText := C.encryptSymNoAuth (.alignLeft 16 key) iv v with hct
  obtain ⟨hlen, hderive⟩ := deriveKey_new (o := o) hC hnew (by simp [← Option.some.inj h])
    (by simp [← Option.some.inj h])
  have hcompat : compat o = some false := by
    have hcount := count_deriveNewKey hnew (k := "compat") (by decide) (by decide)
    simp [compat, ← Option.some.inj h, hcount]
  have hshort : tooShort o key = some false := by simp [tooShort, hlen]
  have htext : (o.get "ciphertext").getStr = some (Text.toHex cipherText) := by
    simp [← Option.some.inj h]
  have hmac : checkMac C o key cipherText = some true := by
    have hcount : o.count "mac" = true := by simp [← Option.some.inj h]
    have hget : o.get "mac" =
        .str (Text.toHex (C.sha3 (cropped key 16 16 ++ cipherText)).bytes) := by
      simp [← Option.some.inj h]
    simp [checkMac, hcount, hget, hcompat]
  have hopen : openCipher C o key cipherText = some v := by
    have hname : o.get "cipher" = .str cipherName := by simp [← Option.some.inj h]
    have hparams : o.get "cipherparams" =
        .obj (JsonObj.nil.set "iv" (.str (Text.toHex iv.bytes))) := by
      simp [← Option.some.inj h]
    simp [openCipher, hname, hparams, hcompat, hct, hC.decrypt_encrypt]
  simp [decryptObj, hderive, hshort, htext, hmac, hopen]

/-- The same of the texts, where the reader gives back what was written. -/
theorem decrypt_encrypt (hC : C.Lawful) {text : Text}
    (henc : encrypt C v pass kdf salt iv = some text)
    (hread : ∀ o, encryptObj C v pass kdf salt iv = some o → C.read_string text = some (.obj o)) :
    decrypt C text pass = some v := by
  obtain ⟨o, ho, rfl⟩ := Option.map_eq_some_iff.mp henc
  simpa [decrypt, hread o ho] using decryptObj_encryptObj hC ho

end RoundTrip

section Mismatch

/-- The entry of a file that holds its mac, and what the mac should be. -/
inductive Carries (C : Crypto) (o : JsonObj) (key cipherText : Bytes) (old : Bool) :
    Json → FixedHash 32 → Prop where
  | mac (h : o.count "mac") : Carries C o key cipherText old (o.get "mac")
      (C.sha3 ((if old then lastSixteen key else cropped key 16 16) ++ cipherText))
  | sillymac (json : Text) (hmac : o.count "mac" = false) (h : o.count "sillymac")
      (hjson : (o.get "sillymacjson").getStr = some json) :
      Carries C o key cipherText old (o.get "sillymac")
        (C.sha3 (asBytes json ++ lastSixteen key ++ cipherText))

/-- An entry is not the mac that it should be. -/
def Mismatch (entry : Json) (expected : FixedHash 32) : Prop :=
  entry.getStr >>= FixedHash.ofHex? 32 ≠ some expected

/-- An entry is a text of hexadecimal digits. -/
def Readable (entry : Json) : Prop := (entry.getStr >>= Text.fromHex?).isSome

instance (entry : Json) : Decidable (Readable entry) :=
  inferInstanceAs (Decidable (_ = true))

/-- The size of a key that a file asks for. -/
def dklen (o : JsonObj) : Option (BitVec 32) :=
  (o.get "kdfparams").getObj >>= fun params => (params.get "dklen").getInt

/-- A file of the plain format asks for a key that is too short. -/
def AsksShort (o : JsonObj) : Prop :=
  (∃ n, dklen o = some n ∧ n.toNat < 32) ∧ compat o = some false

variable {C : Crypto} {o : JsonObj} {key cipherText : Bytes} {pass : Text} {old : Bool}
  {entry : Json} {expected : FixedHash 32}

theorem length_deriveKey (hC : C.Lawful) (h : deriveKey C o pass = some (some key)) :
    ∃ n, dklen o = some n ∧ key.length = n.toNat := by
  simp only [deriveKey, Option.bind_eq_bind, Option.bind_eq_some_iff] at h
  obtain ⟨kdf, -, h⟩ := h
  split_ifs at h with hpbkdf2 hscrypt
  · simp only [Option.bind_eq_some_iff] at h
    obtain ⟨params, hparams, prf, -, h⟩ := h
    split_ifs at h
    · simp at h
    · simp only [Option.bind_eq_some_iff, Option.map_eq_some_iff, Option.some.injEq] at h
      obtain ⟨c, -, salt, -, n, hn, k, hk, rfl⟩ := h
      exact ⟨n, by simp [dklen, hparams, hn], hC.pbkdf2_length _ _ _ _ _ hk⟩
  · simp only [Option.bind_eq_some_iff, Option.map_eq_some_iff, Option.some.injEq] at h
    obtain ⟨params, hparams, salt, -, n, -, r, -, p, -, q, hq, k, hk, rfl⟩ := h
    exact ⟨q, by simp [dklen, hparams, hq], hC.scrypt_length _ _ _ _ _ _ _ hk⟩
  · simp at h

/-- The cipher has no part in what the mac should be. -/
theorem Carries.with_cipher (dec : FixedHash 16 → FixedHash 16 → Bytes → Bytes)
    (h : Carries C o key cipherText old entry expected) :
    Carries { C with decryptSymNoAuth := dec } o key cipherText old entry expected := by
  cases h with
  | mac h => exact .mac h
  | sillymac json hno h hjson => exact .sillymac json hno h hjson

/-- A mac is compared if it can be read, in either format. -/
theorem checkMac_of_carries (hold : compat o = some old)
    (h : Carries C o key cipherText old entry expected) : checkMac C o key cipherText =
      (entry.getStr >>= FixedHash.ofHex? 32).map fun mac => decide (mac = expected) := by
  cases h with
  | mac h =>
    cases hmac : (o.get "mac").getStr >>= FixedHash.ofHex? 32 <;> simp [checkMac, h, hold, hmac]
  | sillymac json hno h hjson =>
    cases hmac : (o.get "sillymac").getStr >>= FixedHash.ofHex? 32 <;>
      simp [checkMac, hno, h, hjson, hmac]

/-- What becomes of a mac that does not match: it is refused if it can be read, and throws
otherwise. -/
theorem checkMac_of_mismatch (hold : compat o = some old)
    (h : Carries C o key cipherText old entry expected) (hne : Mismatch entry expected) :
    checkMac C o key cipherText = if Readable entry then some false else none := by
  rw [checkMac_of_carries hold h]
  cases hs : entry.getStr with
  | none => simp [Readable, hs]
  | some s =>
    cases hb : Text.fromHex? s with
    | none => simp [Readable, hs, FixedHash.ofHex?, hb]
    | some b =>
      have hexpected : FixedHash.ofRef 32 b ≠ expected := by
        simpa [Mismatch, hs, FixedHash.ofHex?, hb] using hne
      simp [Readable, hs, FixedHash.ofHex?, hb, hexpected]

/-- A file whose mac does not match is never opened. It is refused if its mac can be read or its
key is too short, and throws otherwise. -/
theorem decryptObj_of_mismatch {s : Text} (hkey : deriveKey C o pass = some (some key))
    (hsize : ∃ n, dklen o = some n ∧ key.length = n.toNat)
    (hs : (o.get "ciphertext").getStr = some s) (hold : compat o = some old)
    (h : Carries C o key (Text.fromHex s) old entry expected) (hne : Mismatch entry expected) :
    decryptObj C o pass = some [] ↔ Readable entry ∨ AsksShort o := by
  obtain ⟨n, hn, hlen⟩ := hsize
  have hmac := checkMac_of_mismatch hold h hne
  have hasks : AsksShort o ↔ key.length < 32 ∧ old = false := by
    simp [AsksShort, hn, hlen, hold]
  rw [hasks]
  by_cases hshort : key.length < 32
  · cases old <;> by_cases hr : Readable entry <;>
      simp [decryptObj, hkey, tooShort, hshort, hold, hs, hmac, hr]
  · by_cases hr : Readable entry <;> simp [decryptObj, hkey, tooShort, hshort, hs, hmac, hr]

section Examples

/-- What is derived from the passwords a and b, with a salt of zeros. -/
def keyOfA : Bytes :=
  [185, 89, 184, 10, 190, 253, 179, 123, 12, 44, 91, 83, 19, 101, 121, 229,
    164, 161, 144, 42, 184, 110, 74, 74, 24, 247, 213, 132, 220, 253, 243, 215]

def keyOfB : Bytes :=
  [115, 118, 193, 164, 87, 209, 241, 129, 89, 61, 167, 217, 71, 19, 171, 11,
    152, 248, 129, 221, 206, 245, 12, 140, 107, 204, 96, 1, 143, 95, 126, 206]

/-- The macs of the single encrypted byte under these keys. -/
def macOfA : FixedHash 32 :=
  ⟨[78, 55, 109, 52, 99, 109, 13, 189, 32, 58, 204, 122, 146, 116, 4, 61,
    192, 181, 17, 90, 2, 108, 112, 162, 147, 193, 207, 2, 199, 254, 198, 12], rfl⟩

def macOfB : FixedHash 32 :=
  ⟨[0, 55, 33, 170, 185, 134, 24, 198, 235, 177, 211, 240, 157, 8, 232, 158,
    172, 160, 209, 92, 104, 6, 34, 199, 83, 110, 153, 128, 165, 4, 205, 105], rfl⟩

/-- The functions on these values, with one text and its object. -/
def twoPasswords (text : Text) (o : JsonObj) : Crypto where
  pbkdf2 pass salt c n :=
    if salt = List.replicate 32 0 ∧ c = 1 <<< 18 ∧ n = 32 then
      if pass = ['a'] then some keyOfA else if pass = ['b'] then some keyOfB else none
    else none
  scrypt _ _ _ _ _ _ := none
  sha3 b := if b = keyOfA.drop 16 ++ [38] then macOfA
    else if b = keyOfB.drop 16 ++ [38] then macOfB else .zero 32
  encryptSymNoAuth key iv v :=
    if key = .alignLeft 16 keyOfA ∧ iv = .zero 16 then mask (fun _ => 39) 0 v else v
  decryptSymNoAuth key iv v :=
    if key = .alignLeft 16 keyOfA ∧ iv = .zero 16 then mask (fun _ => 39) 0 v else v
  read_string t := if t = text then some (.obj o) else none
  write_string _ _ := text

theorem twoPasswords_lawful (text : Text) (o : JsonObj) : (twoPasswords text o).Lawful where
  pbkdf2_length pass salt c n key h := by
    simp only [twoPasswords] at h
    split_ifs at h with hargs ha hb
    · rw [← Option.some.inj h, hargs.2.2]
      rfl
    · rw [← Option.some.inj h, hargs.2.2]
      rfl
  scrypt_length pass salt n r p dklen key h := by simp [twoPasswords] at h
  decrypt_encrypt key iv v := by
    simp only [twoPasswords]
    split_ifs <;> simp

theorem read_string_twoPasswords (text : Text) (o : JsonObj) :
    (twoPasswords text o).read_string text = some (.obj o) := by
  simp [twoPasswords]

/-- The byte 1 under the password a, with another mac. -/
def fileOfA (mac : Text) : JsonObj :=
  let params := ((((JsonObj.nil.set "prf" (.str prfName)).set "c" (.int (1 <<< 18))).set "salt"
    (.str (Text.toHex (List.replicate 32 0)))).set "dklen" (.int 32))
  (((((((JsonObj.nil.set "kdf" (.str pbkdf2Name)).set "kdfparams" (.obj params)).set "cipher"
    (.str cipherName)).set "cipherparams"
      (.obj (JsonObj.nil.set "iv" (.str (Text.toHex (List.replicate 16 0))))))).set "ciphertext"
        (.str (Text.toHex [38]))).set "mac" (.str mac))

/-- What is written of it. -/
def textOfA (mac : String) : Text :=
  ("\x7b\n    \"cipher\" : \"aes-128-ctr\",\n    \"cipherparams\" : \x7b\n        \"iv\" : \"" ++
    "00000000000000000000000000000000\"\n    \x7d,\n    \"ciphertext\" : \"26\",\n" ++
    "    \"kdf\" : \"pbkdf2\",\n    \"kdfparams\" : \x7b\n        \"c\" : 262144,\n" ++
    "        \"dklen\" : 32,\n        \"prf\" : \"hmac-sha256\",\n        \"salt\" : \"" ++
    "0000000000000000000000000000000000000000000000000000000000000000\"\n    \x7d,\n" ++
    "    \"mac\" : \"" ++ mac ++ "\"\n\x7d").toList

variable (mac : Text) (text : Text)

theorem encryptObj_ofA : encryptObj (twoPasswords text (fileOfA mac)) [1] ['a'] .PBKDF2_SHA256
    (.zero 32) (.zero 16) = some (fileOfA (Text.toHex macOfA.bytes)) := by
  have hne : keyOfA ≠ [] := by decide
  have hcropped : cropped keyOfA 16 16 = keyOfA.drop 16 := by decide
  have hxor : (1 : UInt8) ^^^ 39 = 38 := by decide
  simp [encryptObj, deriveNewKey, twoPasswords, fileOfA, FixedHash.zero, mask, hne, hcropped, hxor]

theorem encrypt_ofA : encrypt (twoPasswords text (fileOfA mac)) [1] ['a'] .PBKDF2_SHA256
    (.zero 32) (.zero 16) = some text := by
  rw [encrypt, encryptObj_ofA]
  rfl

theorem deriveKey_ofA : deriveKey (twoPasswords text (fileOfA mac)) (fileOfA mac) ['a'] =
    some (some keyOfA) := by
  simp [deriveKey, fileOfA, twoPasswords]

theorem deriveKey_ofB : deriveKey (twoPasswords text (fileOfA mac)) (fileOfA mac) ['b'] =
    some (some keyOfB) := by
  simp [deriveKey, fileOfA, twoPasswords]

theorem ciphertext_ofA : ((fileOfA mac).get "ciphertext").getStr = some (Text.toHex [38]) := by
  simp [fileOfA]

theorem compat_ofA : compat (fileOfA mac) = some false := by
  simp [compat, fileOfA]

end Examples

/-- What is written is read back with the same password. A file with a mac that does not match is
refused, whatever the cipher does, if its mac can be read or if it is refused for its key. -/
theorem decrypt_encrypt_refuse_iff (C : Crypto) (hC : C.Lawful) :
    (∀ (secret : Bytes) (pass : Text) (kdf : KDF) (salt : FixedHash 32) (iv : FixedHash 16)
      (v : Text), encrypt C secret pass kdf salt iv = some v →
      (∀ o, encryptObj C secret pass kdf salt iv = some o → C.read_string v = some (.obj o)) →
      decrypt C v pass = some secret) ∧
    ∀ (v pass : Text) (o : JsonObj) (key : Bytes) (s : Text) (old : Bool) (entry : Json)
      (expected : FixedHash 32), C.read_string v = some (.obj o) →
      deriveKey C o pass = some (some key) → (o.get "ciphertext").getStr = some s →
      compat o = some old → Carries C o key (Text.fromHex s) old entry expected →
      Mismatch entry expected →
      ((∀ dec, decrypt { C with decryptSymNoAuth := dec } v pass = some []) ↔
        Readable entry ∨ AsksShort o) := by
  constructor
  · intro secret pass kdf salt iv v henc hread
    exact decrypt_encrypt hC henc hread
  · intro v pass o key s old entry expected hread hkey hs hold h hne
    have hsize := length_deriveKey hC hkey
    have hdec (dec) : decrypt { C with decryptSymNoAuth := dec } v pass = some [] ↔
        Readable entry ∨ AsksShort o := by
      simp only [decrypt, hread, Option.bind_eq_bind, Option.bind_some, Json.getObj_obj]
      exact decryptObj_of_mismatch hkey hsize hs hold (h.with_cipher dec) hne
    constructor
    · intro hall
      exact (hdec C.decryptSymNoAuth).mp (hall C.decryptSymNoAuth)
    · intro hright dec
      exact (hdec dec).mpr hright

theorem decrypt_encrypt_refuse_passwords :
    let text := textOfA "4e376d34636d0dbd203acc7a9274043dc0b5115a026c70a293c1cf02c7fec60c"
    let C := twoPasswords text (fileOfA (Text.toHex macOfA.bytes))
    decrypt C text ['a'] = some [1] ∧
      ∀ dec, decrypt { C with decryptSymNoAuth := dec } text ['b'] = some [] := by
  intro text C
  have hright := decrypt_encrypt_refuse_iff C (twoPasswords_lawful _ _)
  have hobj := encryptObj_ofA (Text.toHex macOfA.bytes) text
  have hread : C.read_string text = some (.obj (fileOfA (Text.toHex macOfA.bytes))) :=
    read_string_twoPasswords text _
  constructor
  · apply hright.1 [1] ['a'] .PBKDF2_SHA256 (.zero 32) (.zero 16) text (encrypt_ofA _ _)
    intro o ho
    rw [hread, ← Option.some.inj (hobj.symm.trans ho)]
  · apply (hright.2 text ['b'] _ keyOfB _ false _ _ hread (deriveKey_ofB _ text) (ciphertext_ofA _)
      (compat_ofA _) (.mac (by simp [fileOfA])) ?_).mpr
    · simp [Readable, fileOfA]
    · have hsha : C.sha3 (cropped keyOfB 16 16 ++ [38]) = macOfB := by decide
      have hne : macOfA ≠ macOfB := by decide
      simpa [Mismatch, fileOfA, hsha] using hne

/-- A mac that is no hexadecimal text, with the right password. Reading it throws. -/
theorem decrypt_throws_zz :
    let C := twoPasswords (textOfA "zz") (fileOfA ['z', 'z'])
    ∃ (o : JsonObj) (key : Bytes) (entry : Json) (expected : FixedHash 32), C.Lawful ∧
      C.read_string (textOfA "zz") = some (.obj o) ∧ deriveKey C o ['a'] = some (some key) ∧
      (o.get "ciphertext").getStr = some (Text.toHex [38]) ∧ compat o = some false ∧
      Carries C o key (Text.fromHex (Text.toHex [38])) false entry expected ∧
      Mismatch entry expected ∧ decrypt C (textOfA "zz") ['a'] = none := by
  intro C
  have hread : C.read_string (textOfA "zz") = some (.obj (fileOfA ['z', 'z'])) :=
    read_string_twoPasswords _ _
  have hkey := deriveKey_ofA ['z', 'z'] (textOfA "zz")
  have hhex : Text.fromHex? ['z', 'z'] = none := by decide
  refine ⟨fileOfA ['z', 'z'], keyOfA, _, _, twoPasswords_lawful _ _, hread, hkey,
    ciphertext_ofA _, compat_ofA _, .mac (by simp [fileOfA]), ?_, ?_⟩
  · simp [Mismatch, fileOfA, FixedHash.ofHex?, hhex]
  · have hmac : (fileOfA ['z', 'z']).get "mac" = .str ['z', 'z'] := by simp [fileOfA]
    have hcount : (fileOfA ['z', 'z']).count "mac" = true := by simp [fileOfA]
    have hlen : ¬keyOfA.length < 32 := by decide
    simp [decrypt, hread, decryptObj, C, hkey, tooShort, hlen, ciphertext_ofA, checkMac, hcount,
      hmac, FixedHash.ofHex?, hhex]

end Mismatch

end KeyFile
end XChain
