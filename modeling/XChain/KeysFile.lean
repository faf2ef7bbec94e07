import XChain.Assoc
import XChain.KeyManager
import XChain.RlpFields

/-!
# The keys file

What a key manager keeps beside its store: the accounts with what is known about them, hints for
passwords and a password. They are written as one encrypted item under a key that is derived from
the master password. Reading goes straight into the tables of the manager, so that a file that
breaks off has changed them up to there.
-/
namespace XChain

namespace Rlp

/-- An address as an item: all of its bytes. -/
def ofAddress (a : Address) : Item := .data (fixedBytes 20 a.toNat)

def toAddress (x : Item) : Option Address :=
  (toHash 20 x).map fun h => BitVec.ofNat 160 (ofBigEndian h.bytes)

@[simp] theorem toAddress_ofAddress (a : Address) : toAddress (ofAddress a) = some a := by
  have hlen : (fixedBytes 20 a.toNat).length = 20 := by simp [fixedBytes]
  have hread : toHash 20 (.data (fixedBytes 20 a.toNat)) = some ⟨fixedBytes 20 a.toNat, hlen⟩ :=
    toHash_bytes ⟨fixedBytes 20 a.toNat, hlen⟩
  have hnat : a.toNat % 256 ^ 20 = a.toNat := Nat.mod_eq_of_lt a.isLt
  rw [toAddress, ofAddress, hread, Option.map_some, ofBigEndian_fixedBytes, hnat,
    BitVec.ofNat_toNat, BitVec.setWidth_eq]

/-- The items of a list. A string, or an item that is not there, has none. -/
def items : Option Item → List Item
  | some (.list l) => l
  | _ => []

/-- The text at a place of a list, empty if there is none. -/
def textAt (x : Item) (i : ℕ) : Bytes := ((get? x i).map toBytes).getD []

end Rlp

namespace KeysFile

/-- What is called: two keys derived from a password and a salt, and a cipher. -/
structure Crypto where
  deriveKey : Bytes → Bytes → FixedHash 16
  deriveHash : Bytes → Bytes → FixedHash 32
  encryptSymNoAuth : FixedHash 16 → FixedHash 16 → Bytes → Bytes
  decryptSymNoAuth : FixedHash 16 → FixedHash 16 → Bytes → Bytes

structure KeyInfo where
  passHash : FixedHash 32
  accountName : Bytes
  passwordHint : Bytes

/-- The tables. Of the store, the uuids of its keys with their addresses are used. -/
structure KeyManager where
  m_uuidLookup : AList fun _ : Uuid => Address
  m_addrLookup : AList fun _ : Address => Uuid
  m_keyInfo : AList fun _ : Address => KeyInfo
  m_passwordHint : AList fun _ : FixedHash 32 => Bytes
  m_cachedPasswords : AList fun _ : FixedHash 32 => Bytes
  m_defaultPasswordDeprecated : Bytes
  m_keysFileKey : FixedHash 16
  m_master : FixedHash 32
  m_store : AList fun _ : Uuid => Address

namespace KeyManager

variable (C : Crypto) (m : KeyManager)

def hashPassword (pass : Bytes) : FixedHash 32 := C.deriveHash pass m.m_defaultPasswordDeprecated

def cachePassword (pass : Bytes) : KeyManager :=
  { m with m_cachedPasswords := m.m_cachedPasswords.insert (m.hashPassword C pass) pass }

/-- Leads from a uuid to an address and back. -/
def link (uuid : Uuid) (a : Address) : KeyManager :=
  { m with
    m_addrLookup := m.m_addrLookup.insert a uuid
    m_uuidLookup := m.m_uuidLookup.insert uuid a }

def setInfo (a : Address) (info : KeyInfo) : KeyManager :=
  { m with m_keyInfo := m.m_keyInfo.insert a info }

/-- An address for a key of the store that has none. -/
def noteAddress (uuid : Uuid) (a : Address) : KeyManager :=
  let store := if m.m_store.lookup uuid = some 0 then m.m_store.insert uuid a else m.m_store
  { m with m_store := store }

/-- The passwords that are kept once a file has been read. -/
def remember (pass : Bytes) : KeyManager :=
  let m := m.cachePassword C m.m_defaultPasswordDeprecated
  let m := m.cachePassword C m.m_keysFileKey.bytes
  let m := { m with m_master := m.hashPassword C pass }
  m.cachePassword C pass

/-- Whether there is a key with the uuid. -/
def stored (uuid : Uuid) : Bool := (m.m_store.lookup uuid).isSome

end KeyManager

section Load

variable (C : Crypto)

/-- What a file says about an account. A file may have no hints for accounts. -/
def readInfo (i : Item) : Option KeyInfo :=
  (Rlp.get? i 2 >>= Rlp.toHash 32).map fun passHash =>
    ⟨passHash, Rlp.textAt i 3, if Rlp.itemCount i > 4 then Rlp.textAt i 4 else []⟩

/-- The manager after an account is read, and whether reading it threw. An account whose key is
missing is left out. -/
def loadAccount (m : KeyManager) (i : Item) : KeyManager × Bool :=
  match Rlp.get? i 1 >>= Rlp.toHash 16, Rlp.get? i 0 >>= Rlp.toAddress with
  | some uuid, some addr =>
    if uuid.isSet then
      if m.stored uuid then
        let m := m.link uuid addr
        match readInfo i with
        | some info => ((m.setInfo addr info).noteAddress uuid addr, false)
        | none => (m, true)
      else (m, false)
    else
      match readInfo i with
      | some info => (m.setInfo addr info, false)
      | none => (m, true)
  | _, _ => (m, true)

def loadAccounts (m : KeyManager) : List Item → KeyManager × Bool
  | [] => (m, false)
  | i :: is =>
    let r := loadAccount m i
    if r.2 then r else loadAccounts r.1 is

def loadHints (m : KeyManager) : List Item → KeyManager × Bool
  | [] => (m, false)
  | i :: is =>
    match Rlp.get? i 0 >>= Rlp.toHash 32 with
    | some h => loadHints { m with m_passwordHint := m.m_passwordHint.insert h (Rlp.textAt i 1) } is
    | none => (m, true)

def loadTables (m : KeyManager) (s : Item) : KeyManager × Bool :=
  let r := loadAccounts m (Rlp.items (Rlp.get? s 1))
  if r.2 then r
  else
    let r := loadHints r.1 (Rlp.items (Rlp.get? s 2))
    if r.2 then r
    else ({ r.1 with m_defaultPasswordDeprecated := Rlp.textAt s 3 }, false)

/-- Files of other versions are not read, but they are no failure either. -/
def loadItem (m : KeyManager) (x : Option Item) : KeyManager × Bool :=
  match x with
  | none => (m, true)
  | some s =>
    match Rlp.get? s 0 >>= Rlp.toUint 32 with
    | none => (m, true)
    | some version => if version = 1 then loadTables m s else (m, false)

/-- The manager after the call, and what is returned. -/
def load (m : KeyManager) (salt encKeys pass : Bytes) : KeyManager × Bool :=
  if encKeys.isEmpty then (m, false)
  else
    let key := C.deriveKey pass salt
    let s := Rlp.decode (C.decryptSymNoAuth key (.zero 16) encKeys)
    let r := loadItem { m with m_keysFileKey := key } s
    if r.2 then (r.1, false) else (r.1.remember C pass, true)

end Load

section Reading

/-- What a file says, up to where it breaks off. -/
structure Reading where
  links : List (Uuid × Address) := []
  infos : List (Address × KeyInfo) := []
  hints : List (FixedHash 32 × Bytes) := []
  password : Option Bytes := none
  broken : Bool := false

/-- What is read after something else. -/
def Reading.append (r r' : Reading) : Reading where
  links := r.links ++ r'.links
  infos := r.infos ++ r'.infos
  hints := r.hints ++ r'.hints
  password := r'.password.or r.password
  broken := r'.broken

variable (stored : Uuid → Bool)

def readAccount (i : Item) : Reading :=
  match Rlp.get? i 1 >>= Rlp.toHash 16, Rlp.get? i 0 >>= Rlp.toAddress with
  | some uuid, some addr =>
    if uuid.isSet && !stored uuid then {}
    else
      let links := if uuid.isSet then [(uuid, addr)] else []
      match readInfo i with
      | some info => { links := links, infos := [(addr, info)] }
      | none => { links := links, broken := true }
  | _, _ => { broken := true }

def readAccounts : List Item → Reading
  | [] => {}
  | i :: is =>
    let r := readAccount stored i
    if r.broken then r else r.append (readAccounts is)

def readHints : List Item → Reading
  | [] => {}
  | i :: is =>
    match Rlp.get? i 0 >>= Rlp.toHash 32 with
    | some h => Reading.append { hints := [(h, Rlp.textAt i 1)] } (readHints is)
    | none => { broken := true }

def readTables (s : Item) : Reading :=
  let r := readAccounts stored (Rlp.items (Rlp.get? s 1))
  if r.broken then r
  else
    let r := r.append (readHints (Rlp.items (Rlp.get? s 2)))
    if r.broken then r else r.append { password := some (Rlp.textAt s 3) }

def readItem (x : Option Item) : Reading :=
  match x with
  | none => { broken := true }
  | some s =>
    match Rlp.get? s 0 >>= Rlp.toUint 32 with
    | none => { broken := true }
    | some version => if version = 1 then readTables stored s else {}

def readFile (C : Crypto) (salt encKeys pass : Bytes) : Reading :=
  readItem stored (Rlp.decode (C.decryptSymNoAuth (C.deriveKey pass salt) (.zero 16) encKeys))

end Reading

section Refinement

variable {C : Crypto} {m : KeyManager}

/-- The manager with all that has been read, and another store. -/
def KeyManager.reads (m : KeyManager) (r : Reading) (store : AList fun _ : Uuid => Address) :
    KeyManager :=
  { m with
    m_uuidLookup := insertAll r.links m.m_uuidLookup
    m_addrLookup := insertAll (r.links.map Prod.swap) m.m_addrLookup
    m_keyInfo := insertAll r.infos m.m_keyInfo
    m_passwordHint := insertAll r.hints m.m_passwordHint
    m_defaultPasswordDeprecated := r.password.getD m.m_defaultPasswordDeprecated
    m_store := store }

/-- A step of the loading reads what the file says there. The keys of the store stay. -/
def Reads (m : KeyManager) (r : Reading) (res : KeyManager × Bool) : Prop :=
  ∃ store : AList fun _ : Uuid => Address,
    (∀ u, (store.lookup u).isSome = m.stored u) ∧ res = (m.reads r store, r.broken)

theorem stored_noteAddress (uuid : Uuid) (a : Address) (u : Uuid) :
    (m.noteAddress uuid a).stored u = m.stored u := by
  simp only [KeyManager.noteAddress, KeyManager.stored]
  split_ifs with h
  · by_cases hu : u = uuid
    · rw [hu, AList.lookup_insert, h]
      rfl
    · rw [AList.lookup_insert_ne hu]
  · rfl

theorem reads_reads (r r' : Reading) (store store' : AList fun _ : Uuid => Address) :
    (m.reads r store).reads r' store' = m.reads (r.append r') store' := by
  cases hpassword : r'.password <;>
    simp [KeyManager.reads, Reading.append, insertAll_append, hpassword]

theorem Reads.broken {r : Reading} {res : KeyManager × Bool} (h : Reads m r res) :
    res.2 = r.broken := by
  obtain ⟨store, -, rfl⟩ := h
  rfl

/-- A part that is read whole, and what is read behind it. -/
theorem Reads.append {r r' : Reading} {res res' : KeyManager × Bool} (h : Reads m r res)
    (hnext : res.1.stored = m.stored → Reads res.1 r' res') : Reads m (r.append r') res' := by
  obtain ⟨store, hstore, rfl⟩ := h
  obtain ⟨store', hstore', rfl⟩ := hnext (funext hstore)
  refine ⟨store', fun u => (hstore' u).trans (hstore u), ?_⟩
  rw [reads_reads]
  rfl

theorem loadAccount_reads (i : Item) : Reads m (readAccount m.stored i) (loadAccount m i) := by
  unfold loadAccount readAccount
  cases Rlp.get? i 1 >>= Rlp.toHash 16 with
  | none => exact ⟨m.m_store, fun _ => rfl, rfl⟩
  | some uuid =>
    cases Rlp.get? i 0 >>= Rlp.toAddress with
    | none => exact ⟨m.m_store, fun _ => rfl, rfl⟩
    | some addr =>
      by_cases hset : uuid.isSet
      · by_cases hstored : m.stored uuid
        · cases readInfo i with
          | none =>
            refine ⟨m.m_store, fun _ => rfl, ?_⟩
            simp [hset, hstored, KeyManager.reads, KeyManager.link]
          | some info =>
            refine ⟨(m.noteAddress uuid addr).m_store, stored_noteAddress uuid addr, ?_⟩
            simp only [hset, hstored, KeyManager.reads, if_true]
            rfl
        · exact ⟨m.m_store, fun _ => rfl, by simp [hset, hstored, KeyManager.reads]⟩
      · cases readInfo i with
        | none => exact ⟨m.m_store, fun _ => rfl, by simp [hset, KeyManager.reads]⟩
        | some info =>
          exact ⟨m.m_store, fun _ => rfl, by simp [hset, KeyManager.reads, KeyManager.setInfo]⟩

/-- The accounts of a file, one after the other. -/
theorem loadAccounts_reads (is : List Item) :
    Reads m (readAccounts m.stored is) (loadAccounts m is) := by
  induction is generalizing m with
  | nil => exact ⟨m.m_store, fun _ => rfl, rfl⟩
  | cons i is ih =>
    have hi := loadAccount_reads (m := m) i
    simp only [loadAccounts, readAccounts, hi.broken]
    split_ifs with hb
    · exact hi
    · apply hi.append
      intro hstored
      rw [← hstored]
      exact ih

theorem loadHints_reads (is : List Item) : Reads m (readHints is) (loadHints m is) := by
  induction is generalizing m with
  | nil => exact ⟨m.m_store, fun _ => rfl, rfl⟩
  | cons i is ih =>
    simp only [loadHints, readHints]
    cases Rlp.get? i 0 >>= Rlp.toHash 32 with
    | none => exact ⟨m.m_store, fun _ => rfl, rfl⟩
    | some h =>
      have hone : Reads m { hints := [(h, Rlp.textAt i 1)] }
          ({ m with m_passwordHint := m.m_passwordHint.insert h (Rlp.textAt i 1) }, false) :=
        ⟨m.m_store, fun _ => rfl, rfl⟩
      apply hone.append
      intro _
      exact ih

theorem loadTables_reads (s : Item) : Reads m (readTables m.stored s) (loadTables m s) := by
  have haccounts := loadAccounts_reads (m := m) (Rlp.items (Rlp.get? s 1))
  have hhints : Reads m ((readAccounts m.stored (Rlp.items (Rlp.get? s 1))).append
      (readHints (Rlp.items (Rlp.get? s 2))))
      (loadHints (loadAccounts m (Rlp.items (Rlp.get? s 1))).1 (Rlp.items (Rlp.get? s 2))) :=
    haccounts.append fun _ => loadHints_reads _
  simp only [loadTables, readTables, haccounts.broken, hhints.broken]
  split_ifs with hb hb'
  · exact haccounts
  · exact hhints
  · apply hhints.append
    intro _
    exact ⟨_, fun _ => rfl, rfl⟩

theorem loadItem_reads (x : Option Item) : Reads m (readItem m.stored x) (loadItem m x) := by
  unfold loadItem readItem
  cases x with
  | none => exact ⟨m.m_store, fun _ => rfl, rfl⟩
  | some s =>
    simp only
    cases Rlp.get? s 0 >>= Rlp.toUint 32 with
    | none => exact ⟨m.m_store, fun _ => rfl, rfl⟩
    | some version =>
      simp only
      split_ifs
      · exact loadTables_reads s
      · exact ⟨m.m_store, fun _ => rfl, rfl⟩

/-- Loading a file that is not empty: all that has been read is in the tables, and the passwords
are remembered if it was read to its end. -/
theorem load_reads (salt : Bytes) {encKeys : Bytes} (pass : Bytes) (hne : encKeys ≠ []) :
    let r := readFile m.stored C salt encKeys pass
    ∃ store : AList fun _ : Uuid => Address, (∀ u, (store.lookup u).isSome = m.stored u) ∧
      let m' := { m with m_keysFileKey := C.deriveKey pass salt }.reads r store
      load C m salt encKeys pass =
        if r.broken then (m', false) else (m'.remember C pass, true) := by
  intro r
  obtain ⟨store, hstore, hres⟩ := loadItem_reads
    (m := { m with m_keysFileKey := C.deriveKey pass salt })
    (Rlp.decode (C.decryptSymNoAuth (C.deriveKey pass salt) (.zero 16) encKeys))
  refine ⟨store, hstore, ?_⟩
  have hempty : encKeys.isEmpty = false := by simpa using hne
  simp only [load, hempty, Bool.false_eq_true, if_false, hres]
  rfl

end Refinement

section Failure

/-- Nothing but the store has changed. -/
structure KeyManager.Same (m m' : KeyManager) : Prop where
  uuidLookup : ∀ u, m'.m_uuidLookup.lookup u = m.m_uuidLookup.lookup u
  addrLookup : ∀ a, m'.m_addrLookup.lookup a = m.m_addrLookup.lookup a
  keyInfo : ∀ a, m'.m_keyInfo.lookup a = m.m_keyInfo.lookup a
  passwordHint : ∀ h, m'.m_passwordHint.lookup h = m.m_passwordHint.lookup h
  cachedPasswords : ∀ h, m'.m_cachedPasswords.lookup h = m.m_cachedPasswords.lookup h
  defaultPassword : m'.m_defaultPasswordDeprecated = m.m_defaultPasswordDeprecated
  keysFileKey : m'.m_keysFileKey = m.m_keysFileKey
  master : m'.m_master = m.m_master

/-- The manager has the key of the file already, and all that the file says. -/
structure KeyManager.Holds (m : KeyManager) (key : FixedHash 16) (r : Reading) : Prop where
  keysFileKey : m.m_keysFileKey = key
  uuidLookup : ∀ u a, lastOf u r.links = some a → m.m_uuidLookup.lookup u = some a
  addrLookup : ∀ a u, lastOf a (r.links.map Prod.swap) = some u → m.m_addrLookup.lookup a = some u
  keyInfo : ∀ a info, lastOf a r.infos = some info → m.m_keyInfo.lookup a = some info
  passwordHint : ∀ h hint, lastOf h r.hints = some hint → m.m_passwordHint.lookup h = some hint

variable {C : Crypto} {m : KeyManager} {stored : Uuid → Bool}

theorem password_readAccount (i : Item) : (readAccount stored i).password = none := by
  unfold readAccount
  split
  · split_ifs <;> cases readInfo i <;> rfl
  · rfl

theorem password_readAccounts (is : List Item) : (readAccounts stored is).password = none := by
  induction is with
  | nil => rfl
  | cons i is ih =>
    rw [readAccounts]
    split_ifs
    · exact password_readAccount i
    · simp [Reading.append, ih, password_readAccount]

theorem password_readHints (is : List Item) : (readHints is).password = none := by
  induction is with
  | nil => rfl
  | cons i is ih =>
    rw [readHints]
    split
    · simp [Reading.append, ih]
    · rfl

theorem password_readTables {s : Item} (h : (readTables stored s).broken) :
    (readTables stored s).password = none := by
  simp only [readTables] at h ⊢
  split_ifs at h ⊢ with hb hb'
  · exact password_readAccounts _
  · simp [Reading.append, password_readAccounts, password_readHints]
  · cases h

/-- A file that breaks off does so before its password. -/
theorem password_of_broken {x : Option Item} (h : (readItem stored x).broken) :
    (readItem stored x).password = none := by
  cases x with
  | none => rfl
  | some s =>
    simp only [readItem] at h ⊢
    cases hversion : Rlp.get? s 0 >>= Rlp.toUint 32 with
    | none => rfl
    | some version =>
      simp only [hversion] at h ⊢
      split_ifs at h ⊢
      exact password_readTables h

theorem reads_same_iff {key : FixedHash 16} {r : Reading} (hpassword : r.password = none)
    (store : AList fun _ : Uuid => Address) :
    m.Same ({ m with m_keysFileKey := key }.reads r store) ↔ m.Holds key r := by
  constructor
  · intro h
    exact ⟨h.keysFileKey.symm, fun u => insertAll_same_iff.mp h.uuidLookup u,
      fun a => insertAll_same_iff.mp h.addrLookup a, fun a => insertAll_same_iff.mp h.keyInfo a,
      fun a => insertAll_same_iff.mp h.passwordHint a⟩
  · intro h
    refine ⟨insertAll_same_iff.mpr h.uuidLookup, insertAll_same_iff.mpr h.addrLookup,
      insertAll_same_iff.mpr h.keyInfo, insertAll_same_iff.mpr h.passwordHint, fun _ => rfl, ?_,
      h.keysFileKey.symm, rfl⟩
    simp [KeyManager.reads, hpassword]

end Failure

/-- The functions on the password a, without salt, and one byte. -/
def oneByte : Crypto where
  deriveKey pass salt :=
    if pass = [97] ∧ salt = [] then
      ⟨[160, 249, 141, 54, 155, 119, 13, 32, 137, 170, 224, 20, 212, 11, 180, 81], rfl⟩
    else .zero 16
  deriveHash _ _ := .zero 32
  encryptSymNoAuth _ _ v := mask (fun _ => 1) 0 v
  decryptSymNoAuth _ _ v := mask (fun _ => 1) 0 v

/-- A manager without any keys. -/
def noKeys : KeyManager := ⟨∅, ∅, ∅, ∅, ∅, [], .zero 16, .zero 32, ∅⟩

end KeysFile
end XChain
