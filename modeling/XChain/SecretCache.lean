import XChain.GuardedRuns
import XChain.KeyFileUpgrade
import XChain.KeyManager

/-!
# The cache of a secret store

Keys are kept encrypted, and their secrets in a cache once they have been decrypted. A secret in
the cache should be that of the key with its uuid. A key file that is read over another one, and
a key that is encrypted anew by its address, leave the cache alone.
-/
namespace XChain

namespace SecretCache

open KeyFile

/-- The random values that encrypting draws. -/
structure Draw where
  salt : FixedHash 32
  iv : FixedHash 16

/-- Reads a uuid. It is zero if it cannot be read. -/
def fromUUID (uuid : Text) : Uuid :=
  (FixedHash.ofHex? 16 (uuid.filter (· ≠ '-'))).getD (.zero 16)

/-- The address of a file, zero if it has none or one that is no hexadecimal text. -/
def addressOf (o : JsonObj) : Option Address :=
  if o.count "address" then
    (o.get "address").getStr.map fun s =>
      ((FixedHash.ofHex? 20 s).map fun a => BitVec.ofNat 160 (Rlp.ofBigEndian a.bytes)).getD 0
  else some 0

variable (C : Crypto) (toAddress : FixedHash 32 → Address) (s : SecretStore Text)

/-- The key in the text of a file, with its uuid. -/
def keyOf (content : Text) : Option (Uuid × EncryptedKey Text) := do
  let o ← upgraded C content
  let uuid ← (o.get "id").getStr.map fromUUID
  let address ← addressOf o
  some (uuid, ⟨C.write_string (o.get "crypto") false, address⟩)

/-- Stores the key of a file. The cache is left alone. -/
def readKeyContent (content : Text) : SecretStore Text :=
  match keyOf C content with
  | some (uuid, k) => { s with m_keys := s.m_keys.insert uuid k }
  | none => s

/-- What is returned, if nothing throws, and the store after the call. -/
def secret (uuid : Uuid) (pass : Text) (useCache : Bool) : Option Bytes × SecretStore Text :=
  match useCache, s.m_cached.lookup uuid with
  | true, some key => (some key, s)
  | _, _ =>
    match s.m_keys.lookup uuid with
    | none => (some [], s)
    | some k =>
      match decrypt C k.encryptedKey pass with
      | none => (none, s)
      | some key =>
        (some key, if key.isEmpty then s else { s with m_cached := s.m_cached.insert uuid key })

/-- The table of the keys has no order, so that the key that is found is given. -/
def key (found : Uuid) (a : Address) : Option (EncryptedKey Text) :=
  (s.m_keys.lookup found).filter fun k => k.address = a

/-- The secret of an address, which is not cached. -/
def secretAt (found : Uuid) (a : Address) (pass : Text) : Option Bytes :=
  match key s found a with
  | some k => decrypt C k.encryptedKey pass
  | none => some []

/-- Stores a secret under the uuid that was drawn, unless encrypting throws. -/
def importSecret (secret : Bytes) (pass : Text) (r : Uuid) (d : Draw) : SecretStore Text :=
  match encrypt C secret pass .Scrypt d.salt d.iv with
  | none => s
  | some e =>
    { m_cached := s.m_cached.insert r secret
      m_keys := s.m_keys.insert r ⟨e, toAddress (FixedHash.ofRef 32 secret)⟩ }

/-- The content of a key, which is made if there was none. -/
def setEncrypted (uuid : Uuid) (e : Text) : SecretStore Text :=
  let address := ((s.m_keys.lookup uuid).map EncryptedKey.address).getD 0
  { s with m_keys := s.m_keys.insert uuid ⟨e, address⟩ }

/-- Encrypts a secret under a new password and drops it from the cache. -/
def recode (uuid : Uuid) (newPass pass : Text) (kdf : KDF) (d : Draw) : SecretStore Text :=
  match secret C s uuid pass true with
  | (none, s) => s
  | (some key, s) =>
    if key.isEmpty then s
    else
      let s := { s with m_cached := s.m_cached.erase uuid }
      match encrypt C key newPass kdf d.salt d.iv with
      | none => s
      | some e => setEncrypted s uuid e

/-- Encrypts the secret of an address under a new password. The cache is left alone. -/
def recodeAt (found : Uuid) (a : Address) (newPass pass : Text) (kdf : KDF) (d : Draw) :
    SecretStore Text :=
  match key s found a, secretAt C s found a pass with
  | some _, some key =>
    if key.isEmpty then s
    else
      match encrypt C key newPass kdf d.salt d.iv with
      | none => s
      | some e => setEncrypted s found e
  | _, _ => s

/-- The key stays if its file cannot be removed. -/
def kill (uuid : Uuid) (removed : Bool) : SecretStore Text :=
  { m_cached := s.m_cached.erase uuid
    m_keys := if removed then s.m_keys.erase uuid else s.m_keys }

def clearCache : SecretStore Text := { s with m_cached := ∅ }

/-- An address for a key that has none. -/
def noteAddress (uuid : Uuid) (a : Address) : SecretStore Text :=
  match s.m_keys.lookup uuid with
  | some k =>
    if k.address = 0 then { s with m_keys := s.m_keys.insert uuid { k with address := a } } else s
  | none => s

/-- Files of keys are read by their contents, whoever calls for it. -/
inductive Op where
  | importSecret (secret : Bytes) (pass : Text) (r : Uuid) (d : Draw)
  | readKeyContent (content : Text)
  | recode (uuid : Uuid) (newPass pass : Text) (kdf : KDF) (d : Draw)
  | recodeAt (found : Uuid) (a : Address) (newPass pass : Text) (kdf : KDF) (d : Draw)
  | kill (uuid : Uuid) (removed : Bool)
  | secret (uuid : Uuid) (pass : Text) (useCache : Bool)
  | secretAt (found : Uuid) (a : Address) (pass : Text)
  | clearCache
  | noteAddress (uuid : Uuid) (a : Address)

def step (s : SecretStore Text) : Op → SecretStore Text
  | .importSecret secret pass r d => importSecret C toAddress s secret pass r d
  | .readKeyContent content => readKeyContent C s content
  | .recode uuid newPass pass kdf d => recode C s uuid newPass pass kdf d
  | .recodeAt found a newPass pass kdf d => recodeAt C s found a newPass pass kdf d
  | .kill uuid removed => kill s uuid removed
  | .secret uuid pass useCache => (secret C s uuid pass useCache).2
  | .secretAt _ _ _ => s
  | .clearCache => clearCache s
  | .noteAddress uuid a => noteAddress s uuid a

/-- A key opens to a secret under some password. -/
def Opens (k : EncryptedKey Text) (x : Bytes) : Prop :=
  ∃ pass, decrypt C k.encryptedKey pass = some x

/-- A secret in the cache is one that the key with its uuid opens to. -/
def Right : Prop :=
  ∀ u x, s.m_cached.lookup u = some x → ∃ k, s.m_keys.lookup u = some k ∧ Opens C k x

/-- The reader gives back what the writer wrote of an encrypted secret. -/
def Rereads : Prop :=
  ∀ v pass kdf salt iv o, encryptObj C v pass kdf salt iv = some o →
    C.read_string (C.write_string (.obj o) true) = some (.obj o)

theorem Rereads.decrypt_encrypt {C : Crypto} (h : Rereads C) (hC : C.Lawful) {v : Bytes}
    {pass text : Text} {kdf : KDF} {salt : FixedHash 32} {iv : FixedHash 16}
    (henc : encrypt C v pass kdf salt iv = some text) : decrypt C text pass = some v := by
  apply KeyFile.decrypt_encrypt hC henc
  intro o ho
  obtain ⟨o', ho', rfl⟩ := Option.map_eq_some_iff.mp henc
  obtain rfl := Option.some.inj (ho.symm.trans ho')
  exact h v pass kdf salt iv o ho

/-- A file that is read opens to the secret in the cache, and so does the key that is found for an
address under the password that is given for it. -/
def Keeps (s : SecretStore Text) : Op → Prop
  | .readKeyContent content => ∀ u k, keyOf C content = some (u, k) →
      ∀ x, s.m_cached.lookup u = some x → Opens C k x
  | .recodeAt found a _ pass _ _ => ∀ x, s.m_cached.lookup found = some x →
      ∀ y, secretAt C s found a pass = some y → y ≠ [] → y = x
  | _ => True

section Steps

variable {C toAddress s}

/-- A change at one uuid, whose secret in the cache is still right. -/
theorem Right.change (h : Right C s) {t : SecretStore Text} (u : Uuid)
    (hkeys : ∀ v, v ≠ u → t.m_keys.lookup v = s.m_keys.lookup v)
    (hcached : ∀ v, v ≠ u → ∀ x, t.m_cached.lookup v = some x → s.m_cached.lookup v = some x)
    (hu : ∀ x, t.m_cached.lookup u = some x → ∃ k, t.m_keys.lookup u = some k ∧ Opens C k x) :
    Right C t := by
  intro v x hx
  by_cases hv : v = u
  · subst hv
    exact hu x hx
  · rw [hkeys v hv]
    exact h v x (hcached v hv x hx)

/-- Another key at a uuid that opens to what is cached. -/
theorem Right.insert (h : Right C s) (u : Uuid) (k : EncryptedKey Text)
    (hk : ∀ x, s.m_cached.lookup u = some x → Opens C k x) :
    Right C { s with m_keys := s.m_keys.insert u k } := by
  apply h.change u
  · intro v hv
    exact AList.lookup_insert_ne hv
  · intro v hv x hx
    exact hx
  · intro x hx
    exact ⟨k, AList.lookup_insert _, hk x hx⟩

/-- Whatever becomes of a key whose secret is dropped from the cache. -/
theorem Right.dropped (h : Right C s) (u : Uuid) {keys : AList fun _ : Uuid => EncryptedKey Text}
    (hkeys : ∀ v, v ≠ u → keys.lookup v = s.m_keys.lookup v) :
    Right C { m_keys := keys, m_cached := s.m_cached.erase u } := by
  apply h.change u hkeys
  · intro v hv x hx
    rwa [AList.lookup_erase_ne hv] at hx
  · intro x hx
    rw [AList.lookup_erase] at hx
    cases hx

/-- A query answers from the cache, has no answer, or decrypts the key and caches the answer. -/
theorem secret_cases (u : Uuid) (pass : Text) (useCache : Bool) :
    (∃ x, s.m_cached.lookup u = some x ∧ secret C s u pass useCache = (some x, s)) ∨
    (secret C s u pass useCache = (some [], s) ∨ secret C s u pass useCache = (none, s)) ∨
    ∃ k x, s.m_keys.lookup u = some k ∧ decrypt C k.encryptedKey pass = some x ∧
      secret C s u pass useCache = (some x, { s with m_cached := s.m_cached.insert u x }) := by
  unfold secret
  split
  · next x hx => exact Or.inl ⟨x, hx, rfl⟩
  · cases hk : s.m_keys.lookup u with
    | none => exact Or.inr (Or.inl (Or.inl rfl))
    | some k =>
      cases hx : decrypt C k.encryptedKey pass with
      | none => exact Or.inr (Or.inl (Or.inr (by simp [hx])))
      | some x =>
        by_cases hempty : x = []
        · exact Or.inr (Or.inl (Or.inl (by simp [hx, hempty])))
        · exact Or.inr (Or.inr ⟨k, x, rfl, hx, by simp [hx, hempty]⟩)

/-- The secret in a file is what the store decrypts once the file has been read. -/
theorem secret_readKeyContent {content : Text} {u : Uuid} {k : EncryptedKey Text}
    (h : keyOf C content = some (u, k)) (pass : Text) :
    (secret C (readKeyContent C s content) u pass false).1.getD [] = secretOf C content pass := by
  have hlook : (readKeyContent C s content).m_keys.lookup u = some k := by
    rw [readKeyContent, h]
    exact AList.lookup_insert _
  simp only [keyOf, Option.bind_eq_bind, Option.bind_eq_some_iff] at h
  obtain ⟨o, ho, uuid, -, address, -, hk⟩ := h
  obtain ⟨rfl, rfl⟩ := Prod.mk.inj (Option.some.inj hk)
  simp only [secret, hlook, secretOf, ho, Option.bind_eq_bind, Option.bind_some]
  cases decrypt C (C.write_string (o.get "crypto") false) pass <;> rfl

/-- What a query returns is what the stored key opens to, and so is what it caches. -/
theorem Right.secret (h : Right C s) (u : Uuid) (pass : Text) (useCache : Bool) :
    Right C (secret C s u pass useCache).2 ∧
      ∀ x, (secret C s u pass useCache).1 = some x → x ≠ [] →
        ∃ k, s.m_keys.lookup u = some k ∧ Opens C k x := by
  rcases secret_cases u pass useCache with ⟨x, hx, hr⟩ | (hr | hr) | ⟨k, x, hk, hopen, hr⟩
  · rw [hr]
    refine ⟨h, fun y hy _ => ?_⟩
    obtain rfl := Option.some.inj hy
    exact h u x hx
  · rw [hr]
    exact ⟨h, fun y hy hne => absurd (Option.some.inj hy).symm hne⟩
  · rw [hr]
    exact ⟨h, fun y hy _ => by cases hy⟩
  · rw [hr]
    constructor
    · apply h.change u
      · intro v hv
        rfl
      · intro v hv y hy
        rwa [AList.lookup_insert_ne hv] at hy
      · intro y hy
        rw [AList.lookup_insert] at hy
        obtain rfl := Option.some.inj hy
        exact ⟨k, hk, pass, hopen⟩
    · intro y hy _
      obtain rfl := Option.some.inj hy
      exact ⟨k, hk, pass, hopen⟩

theorem Right.importSecret (hC : C.Lawful) (hread : Rereads C) (h : Right C s) (x : Bytes)
    (pass : Text) (r : Uuid) (d : Draw) : Right C (importSecret C toAddress s x pass r d) := by
  unfold SecretCache.importSecret
  cases he : encrypt C x pass .Scrypt d.salt d.iv with
  | none => exact h
  | some e =>
    apply h.change r
    · intro v hv
      exact AList.lookup_insert_ne hv
    · intro v hv y hy
      rwa [AList.lookup_insert_ne hv] at hy
    · intro y hy
      rw [AList.lookup_insert] at hy
      obtain rfl := Option.some.inj hy
      exact ⟨_, AList.lookup_insert _, pass, hread.decrypt_encrypt hC he⟩

theorem Right.recode (h : Right C s) (u : Uuid) (newPass pass : Text) (kdf : KDF) (d : Draw) :
    Right C (recode C s u newPass pass kdf d) := by
  have hsecret := (h.secret u pass true).1
  unfold SecretCache.recode
  split
  · next t ht => rwa [ht] at hsecret
  · next key t ht =>
    rw [ht] at hsecret
    split_ifs with hempty
    · exact hsecret
    · cases encrypt C key newPass kdf d.salt d.iv with
      | none => exact hsecret.dropped u fun _ _ => rfl
      | some e => exact hsecret.dropped u fun _ hv => AList.lookup_insert_ne hv

theorem Right.recodeAt (hC : C.Lawful) (hread : Rereads C) (h : Right C s) {found : Uuid}
    {a : Address} {newPass pass : Text} {kdf : KDF} {d : Draw}
    (hkeeps : Keeps C s (.recodeAt found a newPass pass kdf d)) :
    Right C (recodeAt C s found a newPass pass kdf d) := by
  unfold SecretCache.recodeAt
  split
  · next k key hk hkey =>
    split_ifs with hempty
    · exact h
    · cases he : encrypt C key newPass kdf d.salt d.iv with
      | none => exact h
      | some e =>
        apply h.insert found
        intro x hx
        have hsame : key = x := hkeeps x hx key hkey (by simpa using hempty)
        exact hsame ▸ ⟨newPass, hread.decrypt_encrypt hC he⟩
  · exact h

theorem Right.readKeyContent (h : Right C s) {content : Text}
    (hkeeps : Keeps C s (.readKeyContent content)) : Right C (readKeyContent C s content) := by
  unfold SecretCache.readKeyContent
  cases hk : keyOf C content with
  | none => exact h
  | some p => exact h.insert p.1 p.2 (hkeeps p.1 p.2 hk)

theorem Right.kill (h : Right C s) (u : Uuid) (removed : Bool) : Right C (kill s u removed) := by
  cases removed with
  | false => exact h.dropped u fun _ _ => rfl
  | true => exact h.dropped u fun _ hv => AList.lookup_erase_ne hv

theorem Right.noteAddress (h : Right C s) (u : Uuid) (a : Address) :
    Right C (noteAddress s u a) := by
  unfold SecretCache.noteAddress
  cases hk : s.m_keys.lookup u with
  | none => exact h
  | some k =>
    simp only
    split_ifs
    · apply h.insert u
      intro x hx
      obtain ⟨k', hk', hopens⟩ := h u x hx
      obtain rfl := Option.some.inj (hk'.symm.trans hk)
      exact hopens
    · exact h

theorem Right.step (hC : C.Lawful) (hread : Rereads C) (h : Right C s) (op : Op)
    (hkeeps : Keeps C s op) : Right C (step C toAddress s op) := by
  cases op with
  | importSecret x pass r d => exact h.importSecret hC hread x pass r d
  | readKeyContent content => exact h.readKeyContent hkeeps
  | recode u newPass pass kdf d => exact h.recode u newPass pass kdf d
  | recodeAt found a newPass pass kdf d => exact h.recodeAt hC hread hkeeps
  | kill u removed => exact h.kill u removed
  | secret u pass useCache => exact (h.secret u pass useCache).1
  | secretAt found a pass => exact h
  | clearCache =>
    intro u x hx
    simp [SecretCache.step, clearCache] at hx
  | noteAddress u a => exact h.noteAddress u a

end Steps

section Examples

/-- What is derived from the password a, with a salt of zeros. -/
def keyOfA : Bytes :=
  [194, 132, 53, 1, 226, 243, 46, 13, 46, 166, 185, 156, 43, 70, 71, 245,
    233, 145, 79, 255, 72, 30, 219, 230, 102, 253, 63, 32, 178, 230, 15, 174]

/-- The mac of the byte 1, encrypted under this key. -/
def macOfA : FixedHash 32 :=
  ⟨[196, 37, 170, 220, 66, 91, 177, 18, 214, 102, 104, 139, 15, 145, 193, 65,
    202, 18, 221, 151, 96, 157, 94, 40, 111, 124, 57, 118, 245, 21, 156, 164], rfl⟩

/-- The parts of a file that are the same for all that is encrypted under this key. -/
def front : Text := '\x7b' :: '\n' ::
  ("    \"cipher\" : \"aes-128-ctr\",\n    \"cipherparams\" : \x7b\n        \"iv\" : \"").toList

def middle : Text := ("\"\n    \x7d,\n    \"ciphertext\" : \"").toList

def back : Text := ("\",\n    \"kdf\" : \"scrypt\",\n    \"kdfparams\" : \x7b\n" ++
  "        \"dklen\" : 32,\n        \"n\" : 262144,\n        \"p\" : 1,\n        \"r\" : 8,\n" ++
  "        \"salt\" : \"" ++ "0000000000000000000000000000000000000000000000000000000000000000" ++
  "\"\n    \x7d,\n    \"mac\" : \"").toList

def close : Text := ("\"\n\x7d").toList

def textOf (iv cipherText mac : Text) : Text :=
  front ++ (iv ++ (middle ++ (cipherText ++ (back ++ (mac ++ close)))))

def fileOf (iv cipherText mac : Text) : JsonObj :=
  let params := (((((JsonObj.nil.set "n" (.int (1 <<< 18))).set "r" (.int 8)).set "p"
    (.int 1)).set "dklen" (.int 32)).set "salt" (.str (Text.toHex (List.replicate 32 0))))
  (((((JsonObj.nil.set "kdf" (.str scryptName)).set "kdfparams" (.obj params)).set "cipher"
    (.str cipherName)).set "cipherparams" (.obj (JsonObj.nil.set "iv" (.str iv)))).set "ciphertext"
      (.str cipherText)).set "mac" (.str mac)

/-- Cuts such a text into its parts. -/
def cut (t : Text) : Option Json :=
  let iv := (t.drop front.length).take 32
  let t' := t.drop (front.length + 32 + middle.length)
  let cipherText := t'.take (t'.length - (back.length + 64 + close.length))
  let mac := (t'.drop (cipherText.length + back.length)).take 64
  if textOf iv cipherText mac = t then some (.obj (fileOf iv cipherText mac)) else none

theorem cut_textOf {iv cipherText mac : Text} (hiv : iv.length = 32) (hmac : mac.length = 64) :
    cut (textOf iv cipherText mac) = some (.obj (fileOf iv cipherText mac)) := by
  have hfront : ((textOf iv cipherText mac).drop front.length).take 32 = iv := by
    rw [textOf, List.drop_left, ← hiv, List.take_left]
  have hrest : (textOf iv cipherText mac).drop (front.length + 32 + middle.length) =
      cipherText ++ (back ++ (mac ++ close)) := by
    rw [textOf, ← hiv, ← List.drop_drop, ← List.drop_drop, List.drop_left, List.drop_left,
      List.drop_left]
  have hlength : (cipherText ++ (back ++ (mac ++ close))).length -
      (back.length + 64 + close.length) = cipherText.length := by
    simp only [List.length_append, hmac]
    omega
  have hmac' : ((cipherText ++ (back ++ (mac ++ close))).drop
      (cipherText.length + back.length)).take 64 = mac := by
    rw [← List.drop_drop, List.drop_left, List.drop_left, ← hmac, List.take_left]
  simp only [cut, hfront, hrest, hlength, List.take_left, hmac', if_true]

def emptyText : Text := ['\x7b', '\x7d']

/-- The uuid of the bytes 17, and a file with it that holds no secret. -/
def seventeen : Uuid := ⟨List.replicate 16 17, rfl⟩

def idText : Text := '1' :: '1' :: '1' :: '1' :: '1' :: '1' :: '1' :: '1' :: '-' :: '1' :: '1' ::
  '1' :: '1' :: '-' :: '1' :: '1' :: '1' :: '1' :: '-' :: '1' :: '1' :: '1' :: '1' :: '-' ::
  List.replicate 12 '1'

def hollow : JsonObj :=
  ((JsonObj.nil.set "crypto" (.obj .nil)).set "id" (.str idText)).set "version" (.int 3)

def hollowText : Text := '\x7b' :: Char.ofNat 34 ::
  ("crypto\":\x7b\x7d,\"id\":\"11111111-1111-1111-1111-111111111111\",\"version\":3\x7d").toList

def entryText (o : JsonObj) (k : String) : Text := (o.get k).getStr.getD []

/-- The functions on these values. -/
def passwordA : Crypto where
  pbkdf2 _ _ _ _ := none
  scrypt pass salt n r p dklen :=
    if pass = ['a'] ∧ salt = List.replicate 32 0 ∧ n = 1 <<< 18 ∧ r = 8 ∧ p = 1 ∧ dklen = 32 then
      some keyOfA
    else none
  sha3 b := if b = keyOfA.drop 16 ++ [34] then macOfA else .zero 32
  encryptSymNoAuth key iv v :=
    if key = .alignLeft 16 keyOfA ∧ iv = .zero 16 then mask (fun _ => 35) 0 v else v
  decryptSymNoAuth key iv v :=
    if key = .alignLeft 16 keyOfA ∧ iv = .zero 16 then mask (fun _ => 35) 0 v else v
  read_string t :=
    if t = emptyText then some (.obj .nil) else if t = hollowText then some (.obj hollow) else cut t
  write_string
    | .obj o, true => textOf (entryText (((o.get "cipherparams").getObj).getD .nil) "iv")
      (entryText o "ciphertext") (entryText o "mac")
    | _, _ => emptyText

theorem passwordA_lawful : passwordA.Lawful where
  pbkdf2_length pass salt c n key h := by simp [passwordA] at h
  scrypt_length pass salt n r p dklen key h := by
    simp only [passwordA] at h
    split_ifs at h with hargs
    rw [← Option.some.inj h, hargs.2.2.2.2.2]
    rfl
  decrypt_encrypt key iv v := by
    simp only [passwordA]
    split_ifs <;> simp

theorem textOf_ne (iv cipherText mac : Text) :
    textOf iv cipherText mac ≠ emptyText ∧ textOf iv cipherText mac ≠ hollowText := by
  simp [textOf, front, emptyText, hollowText]

theorem read_write_fileOf {iv cipherText mac : Text} (hiv : iv.length = 32)
    (hmac : mac.length = 64) :
    passwordA.read_string (passwordA.write_string (.obj (fileOf iv cipherText mac)) true) =
      some (.obj (fileOf iv cipherText mac)) := by
  have hwrite : passwordA.write_string (.obj (fileOf iv cipherText mac)) true =
      textOf iv cipherText mac := by
    simp [passwordA, fileOf, entryText]
  obtain ⟨hempty, hhollow⟩ := textOf_ne iv cipherText mac
  rw [hwrite]
  simp [passwordA, hempty, hhollow, cut_textOf hiv hmac]

theorem passwordA_rereads : Rereads passwordA := by
  intro v pass kdf salt iv o h
  simp only [encryptObj, Option.bind_eq_bind, Option.bind_eq_some_iff] at h
  obtain ⟨⟨key, ret⟩, hnew, h⟩ := h
  cases kdf with
  | PBKDF2_SHA256 => simp [deriveNewKey, passwordA] at hnew
  | Scrypt =>
    simp only [deriveNewKey, Option.map_eq_some_iff, Prod.mk.injEq] at hnew
    obtain ⟨k, hk, rfl, rfl⟩ := hnew
    split_ifs at h with hkey hcipher
    simp only [passwordA] at hk
    split_ifs at hk with hargs
    rw [hargs.2.1] at h
    obtain rfl := Option.some.inj h
    exact read_write_fileOf (by simp [Text.length_toHex, iv.size])
      (by simp [Text.length_toHex, FixedHash.size])

theorem encrypt_one : ∃ e, encrypt passwordA [1] ['a'] .Scrypt (.zero 32) (.zero 16) = some e := by
  have hne : keyOfA ≠ [] := by decide
  simp [encrypt, encryptObj, deriveNewKey, passwordA, FixedHash.zero, mask, hne]

theorem keyOf_hollow : keyOf passwordA hollowText = some (seventeen, ⟨emptyText, 0⟩) := by
  have hread : passwordA.read_string hollowText = some (.obj hollow) := by
    simp [passwordA, hollowText, emptyText]
  have hupgraded : upgraded passwordA hollowText = some hollow :=
    upgraded_newest hread (by simp [fileVersion, hollow]) (by simp [hollow])
  have huuid : fromUUID idText = seventeen := by decide
  have hwrite (j : Json) : passwordA.write_string j false = emptyText := by
    cases j <;> rfl
  simp [keyOf, hupgraded, hollow, huuid, addressOf, hwrite]

theorem decrypt_emptyText (pass : Text) : decrypt passwordA emptyText pass = none := by
  simp [decrypt, passwordA, decryptObj, deriveKey, Json.getStr]

end Examples

end SecretCache
end XChain
