import XChain.KeysFile

/-!
# The keys file is read back

A manager writes its accounts with their uuids, the hints and the deprecated password, but not its
lookups. A fresh manager starts with the lookups of its store and makes the others again from the
file. A uuid leads to the last account in the file that has it.
-/
namespace XChain

namespace KeysFile

namespace KeyManager

variable (C : Crypto) (m : KeyManager)

/-- A manager with the keys that its store has read. -/
def construct (store : AList fun _ : Uuid => Address) : KeyManager :=
  (pairs store).foldl (fun m e => m.link e.1 e.2) { noKeys with m_store := store }

/-- The uuid of an account, zero if it has none. -/
def uuid (a : Address) : Uuid := (m.m_addrLookup.lookup a).getD (.zero 16)

/-- An account that is known and has a uuid. -/
def Listed (a : Address) : Prop := (m.m_keyInfo.lookup a).isSome ∧ (m.uuid a).isSet

def accountItem (e : Address × KeyInfo) : Item :=
  .list [Rlp.ofAddress e.1, .data (m.uuid e.1).bytes, .data e.2.passHash.bytes,
    .data e.2.accountName, .data e.2.passwordHint]

def hintItem (e : FixedHash 32 × Bytes) : Item := .list [.data e.1.bytes, .data e.2]

/-- What is written, before it is encrypted. -/
def keysItem : Item :=
  .list [Rlp.ofNat 1, .list ((pairs m.m_keyInfo).map m.accountItem),
    .list ((pairs m.m_passwordHint).map hintItem), .data m.m_defaultPasswordDeprecated]

/-- The file and the manager after it is written. Where the master password is not known, asking
for it throws when the file has been written. -/
def writeKey (key : FixedHash 16) : Bytes × KeyManager :=
  let encKeys := C.encryptSymNoAuth key (.zero 16) (Rlp.encode m.keysItem)
  let m := { m with m_keysFileKey := key }
  match m.m_cachedPasswords.lookup m.m_master with
  | some defaultPassword => (encKeys, m.cachePassword C defaultPassword)
  | none => (encKeys, m)

/-- Writes under a password, with a salt that was drawn. -/
def write (salt pass : Bytes) : Bytes × KeyManager :=
  let m := m.cachePassword C pass
  let m := { m with m_master := m.hashPassword C pass }
  m.writeKey C (C.deriveKey pass salt)

end KeyManager

/-- Decrypting undoes encrypting, which keeps the size. -/
structure Crypto.Lawful (C : Crypto) : Prop where
  decrypt_encrypt : ∀ key iv v, C.decryptSymNoAuth key iv (C.encryptSymNoAuth key iv v) = v
  length_encrypt : ∀ key iv v, (C.encryptSymNoAuth key iv v).length = v.length

section Write

variable {C : Crypto} {m : KeyManager} {store : AList fun _ : Uuid => Address}

theorem foldl_link (l : List (Uuid × Address)) (m : KeyManager) :
    l.foldl (fun m e => m.link e.1 e.2) m =
      { m with
        m_uuidLookup := insertAll l m.m_uuidLookup
        m_addrLookup := insertAll (l.map Prod.swap) m.m_addrLookup } := by
  induction l generalizing m with
  | nil => rfl
  | cons e l ih => exact ih _

theorem stored_construct (u : Uuid) :
    (KeyManager.construct store).stored u = (store.lookup u).isSome := by
  rw [KeyManager.construct, foldl_link]
  rfl

theorem write_file (salt pass : Bytes) : (m.write C salt pass).1 =
    C.encryptSymNoAuth (C.deriveKey pass salt) (.zero 16) (Rlp.encode m.keysItem) := by
  simp only [KeyManager.write, KeyManager.writeKey]
  split <;> rfl

theorem write_ne_nil (hC : C.Lawful) (salt pass : Bytes) : (m.write C salt pass).1 ≠ [] := by
  rw [write_file]
  intro h
  have hlen := hC.length_encrypt (C.deriveKey pass salt) (.zero 16) (Rlp.encode m.keysItem)
  rw [h] at hlen
  exact Rlp.encode_ne_nil _ (List.length_eq_zero_iff.mp hlen.symm)

/-- The link of an account that has a uuid. -/
def KeyManager.linkOf (m : KeyManager) (e : Address × KeyInfo) : Option (Uuid × Address) :=
  if (m.uuid e.1).isSet then some (m.uuid e.1, e.1) else none

/-- All that a manager writes. -/
def KeyManager.written (m : KeyManager) : Reading where
  links := (pairs m.m_keyInfo).filterMap m.linkOf
  infos := pairs m.m_keyInfo
  hints := pairs m.m_passwordHint
  password := some m.m_defaultPasswordDeprecated

theorem readInfo_accountItem (e : Address × KeyInfo) : readInfo (m.accountItem e) = some e.2 := by
  simp [readInfo, KeyManager.accountItem, Rlp.get?, Rlp.textAt, Rlp.itemCount, Rlp.toBytes]

theorem readAccount_accountItem {stored : Uuid → Bool} {e : Address × KeyInfo}
    (h : (m.uuid e.1).isSet → stored (m.uuid e.1)) :
    readAccount stored (m.accountItem e) = { links := (m.linkOf e).toList, infos := [e] } := by
  have huuid : Rlp.get? (m.accountItem e) 1 >>= Rlp.toHash 16 = some (m.uuid e.1) := by
    simp [KeyManager.accountItem, Rlp.get?]
  have haddr : Rlp.get? (m.accountItem e) 0 >>= Rlp.toAddress = some e.1 := by
    simp [KeyManager.accountItem, Rlp.get?]
  unfold readAccount
  rw [huuid, haddr]
  by_cases hset : (m.uuid e.1).isSet
  · simp [hset, h hset, readInfo_accountItem, KeyManager.linkOf]
  · simp [hset, readInfo_accountItem, KeyManager.linkOf]

theorem readAccounts_map {stored : Uuid → Bool} {l : List (Address × KeyInfo)}
    (h : ∀ e ∈ l, (m.uuid e.1).isSet → stored (m.uuid e.1)) :
    readAccounts stored (l.map m.accountItem) = { links := l.filterMap m.linkOf, infos := l } := by
  induction l with
  | nil => rfl
  | cons e l ih =>
    have hone := readAccount_accountItem (h e List.mem_cons_self)
    have hrest := ih fun e' he' => h e' (List.mem_cons_of_mem _ he')
    simp only [List.map_cons, readAccounts, hone, hrest]
    cases hlink : m.linkOf e <;> simp [Reading.append, hlink]

theorem readHints_map (l : List (FixedHash 32 × Bytes)) :
    readHints (l.map KeyManager.hintItem) = { hints := l } := by
  induction l with
  | nil => rfl
  | cons e l ih =>
    have hhash : Rlp.get? (KeyManager.hintItem e) 0 >>= Rlp.toHash 32 = some e.1 := by
      simp [KeyManager.hintItem, Rlp.get?]
    rw [List.map_cons, readHints, hhash, ih]
    simp [Reading.append, KeyManager.hintItem, Rlp.textAt, Rlp.get?, Rlp.toBytes]

/-- What is read of a file is what was written. -/
theorem readFile_write (hC : C.Lawful) (salt pass : Bytes) {stored : Uuid → Bool}
    (h : ∀ a, m.Listed a → stored (m.uuid a)) :
    readFile stored C salt (m.write C salt pass).1 pass = m.written := by
  have haccounts : readAccounts stored ((pairs m.m_keyInfo).map m.accountItem) =
      { links := (pairs m.m_keyInfo).filterMap m.linkOf, infos := pairs m.m_keyInfo } := by
    apply readAccounts_map
    rintro ⟨a, info⟩ he hset
    exact h a ⟨by rw [mem_pairs.mp he]; rfl, hset⟩
  have hversion : Rlp.toUint 32 (Rlp.ofNat 1) = some 1 := by decide
  rw [readFile, write_file, hC.decrypt_encrypt, Rlp.decode_encode]
  simp [readItem, KeyManager.keysItem, Rlp.get?, hversion, readTables, Rlp.items, haccounts,
    readHints_map, Reading.append, Rlp.textAt, Rlp.toBytes, KeyManager.written]

/-- An account is written with its uuid if it has one. -/
theorem mem_links {u : Uuid} {a : Address} :
    (u, a) ∈ m.written.links ↔ m.Listed a ∧ m.uuid a = u := by
  simp only [KeyManager.written, List.mem_filterMap, KeyManager.linkOf, KeyManager.Listed]
  constructor
  · rintro ⟨⟨b, info⟩, hmem, hlink⟩
    split_ifs at hlink with hset
    obtain ⟨rfl, rfl⟩ := Prod.mk.inj (Option.some.inj hlink)
    exact ⟨⟨by rw [mem_pairs.mp hmem]; rfl, hset⟩, rfl⟩
  · rintro ⟨⟨hinfo, hset⟩, rfl⟩
    obtain ⟨info, hinfo⟩ := Option.isSome_iff_exists.mp hinfo
    exact ⟨(a, info), mem_pairs.mpr hinfo, if_pos hset⟩

theorem mem_links_swap {u : Uuid} {a : Address} :
    (a, u) ∈ m.written.links.map Prod.swap ↔ m.Listed a ∧ m.uuid a = u := by
  rw [← mem_links, List.mem_map]
  constructor
  · rintro ⟨⟨v, b⟩, hmem, hswap⟩
    obtain ⟨rfl, rfl⟩ := Prod.mk.inj hswap
    exact hmem
  · intro hmem
    exact ⟨(u, a), hmem, rfl⟩

theorem lookup_of_listed {a : Address} (h : m.Listed a) :
    m.m_addrLookup.lookup a = some (m.uuid a) := by
  cases hlook : m.m_addrLookup.lookup a with
  | none =>
    have hset := h.2
    rw [KeyManager.uuid, hlook, Option.getD_none] at hset
    exact absurd hset (by decide)
  | some u => rw [KeyManager.uuid, hlook, Option.getD_some]

/-- A manager that has what another one had. What is not in the file is as in a fresh manager. -/
structure KeyManager.Restored (m fresh m' : KeyManager) : Prop where
  keyInfo : ∀ a, m'.m_keyInfo.lookup a = m.m_keyInfo.lookup a
  addrLookup : ∀ a, m.Listed a → m'.m_addrLookup.lookup a = m.m_addrLookup.lookup a
  uuidLookup : ∀ a, m.Listed a →
    (∀ b, m.Listed b → m.uuid b = m.uuid a → m.m_uuidLookup.lookup (m.uuid a) = some b) →
    m'.m_uuidLookup.lookup (m.uuid a) = m.m_uuidLookup.lookup (m.uuid a)
  passwordHint : ∀ h, m'.m_passwordHint.lookup h = m.m_passwordHint.lookup h
  defaultPassword : m'.m_defaultPasswordDeprecated = m.m_defaultPasswordDeprecated
  otherAddresses : ∀ a, ¬m.Listed a → m'.m_addrLookup.lookup a = fresh.m_addrLookup.lookup a
  otherUuids : ∀ u, (∀ a, m.Listed a → m.uuid a ≠ u) →
    m'.m_uuidLookup.lookup u = fresh.m_uuidLookup.lookup u

theorem restored_reads {key : FixedHash 16} (store' : AList fun _ : Uuid => Address) :
    m.Restored (.construct store)
      ({ KeyManager.construct store with m_keysFileKey := key }.reads m.written store') where
  keyInfo a := by
    have hfresh : (KeyManager.construct store).m_keyInfo = ∅ := by
      rw [KeyManager.construct, foldl_link]
      rfl
    simp [KeyManager.reads, KeyManager.written, hfresh]
  addrLookup a ha := by
    have hlast : lastOf a (m.written.links.map Prod.swap) = some (m.uuid a) := by
      apply lastOf_eq (mem_links_swap.mpr ⟨ha, rfl⟩)
      intro u hu
      exact (mem_links_swap.mp hu).2.symm
    simp only [KeyManager.reads, lookup_insertAll, hlast, Option.some_or, lookup_of_listed ha]
  uuidLookup a ha hone := by
    have hback := hone a ha rfl
    have hlast : lastOf (m.uuid a) m.written.links = some a := by
      apply lastOf_eq (mem_links.mpr ⟨ha, rfl⟩)
      intro b hb
      obtain ⟨hlisted, huuid⟩ := mem_links.mp hb
      exact Option.some.inj ((hone b hlisted huuid).symm.trans hback)
    simp only [KeyManager.reads, lookup_insertAll, hlast, Option.some_or, hback]
  passwordHint h := by
    have hfresh : (KeyManager.construct store).m_passwordHint = ∅ := by
      rw [KeyManager.construct, foldl_link]
      rfl
    simp [KeyManager.reads, KeyManager.written, hfresh]
  defaultPassword := rfl
  otherAddresses a ha := by
    have hlast : lastOf a (m.written.links.map Prod.swap) = none := by
      apply lastOf_eq_none
      intro u hu
      exact ha (mem_links_swap.mp hu).1
    simp only [KeyManager.reads, lookup_insertAll, hlast, Option.none_or]
  otherUuids u hu := by
    have hlast : lastOf u m.written.links = none := by
      apply lastOf_eq_none
      intro a ha
      obtain ⟨hlisted, huuid⟩ := mem_links.mp ha
      exact hu a hlisted huuid
    simp only [KeyManager.reads, lookup_insertAll, hlast, Option.none_or]

end Write

/-- A fresh manager after the file of another one has been read. -/
theorem load_write (C : Crypto) (hC : C.Lawful) (m : KeyManager)
    (store : AList fun _ : Uuid => Address)
    (hstored : ∀ a, m.Listed a → (store.lookup (m.uuid a)).isSome) (salt pass : Bytes) :
    let fresh := KeyManager.construct store
    ∃ store', load C fresh salt (m.write C salt pass).1 pass =
      (({ fresh with m_keysFileKey := C.deriveKey pass salt }.reads m.written store').remember C
        pass, true) := by
  intro fresh
  have hread : readFile fresh.stored C salt (m.write C salt pass).1 pass = m.written := by
    apply readFile_write hC
    intro a ha
    rw [stored_construct]
    exact hstored a ha
  have hne := write_ne_nil (m := m) hC salt pass
  obtain ⟨store', -, hload⟩ := load_reads (C := C) (m := fresh) salt pass hne
  rw [hread] at hload
  exact ⟨store', hload⟩

section Examples

/-- The key of the password a with a salt of zeros, and the bytes that it encrypts with. -/
def keyOfA : FixedHash 16 :=
  ⟨[185, 89, 184, 10, 190, 253, 179, 123, 12, 44, 91, 83, 19, 101, 121, 229], rfl⟩

def keystreamOfA : Bytes :=
  [39, 35, 183, 198, 71, 150, 21, 219, 110, 140, 25, 237, 115, 146, 73, 144, 123, 182, 110,
    144, 204, 71, 211, 97, 98, 92, 120, 99, 115, 197, 86, 182, 100, 61, 251, 186, 18, 10,
    41, 198, 147, 19, 141, 101, 113, 126, 238, 65, 65, 32, 149, 89, 64, 224, 219, 76, 72,
    253, 14, 216, 111, 211, 31, 190, 126, 141, 234, 6, 181, 129, 132, 40, 20, 161, 230, 184,
    98, 183, 18, 241, 162, 22, 206, 246, 5, 123, 59, 155, 34, 48, 110, 210, 67, 138, 62, 31,
    79, 39, 196, 218, 55, 151, 209, 0, 249, 117, 60, 153, 65, 46, 116, 139, 63, 94, 165, 7,
    243, 170, 69, 111, 252, 126, 17, 209, 62, 119, 62, 24, 30, 45, 45, 155, 27, 44, 171,
    182, 22, 76, 143, 23, 231, 141, 48, 180, 67, 148, 211, 47, 171, 71, 184, 35, 9, 24, 127,
    204, 163, 35, 243, 11, 49, 14, 183, 207, 81, 142, 36, 234, 96, 92, 162, 245, 227, 238,
    253, 254, 161, 95, 158, 82, 54, 235, 87, 57, 223, 218, 178, 243, 41, 18, 61, 181, 62,
    124, 255, 2, 85, 107, 221, 127, 111, 62, 233, 61, 247, 102, 47, 80]

/-- The hashes of the passwords that are remembered. -/
def hashOfA : FixedHash 32 :=
  ⟨[160, 249, 141, 54, 155, 119, 13, 32, 137, 170, 224, 20, 212, 11, 180, 81, 102, 104, 28,
    244, 236, 40, 4, 230, 225, 183, 188, 207, 142, 81, 153, 32], rfl⟩

def hashOfEmpty : FixedHash 32 :=
  ⟨[189, 172, 56, 162, 209, 117, 80, 184, 48, 152, 182, 20, 57, 43, 232, 23, 109, 199, 225,
    52, 97, 203, 226, 208, 5, 123, 114, 196, 176, 38, 103, 182], rfl⟩

def hashOfKey : FixedHash 32 :=
  ⟨[44, 154, 69, 66, 71, 247, 107, 71, 58, 41, 49, 8, 224, 61, 229, 87, 18, 165, 153, 12,
    117, 74, 0, 139, 67, 227, 73, 111, 253, 31, 71, 61], rfl⟩

def maskOfA (key : FixedHash 16) (v : Bytes) : Bytes :=
  if key = keyOfA then mask (fun i => keystreamOfA.getD i 0) 0 v else v

/-- The functions on these values. -/
def passwordA : Crypto where
  deriveKey pass salt := if pass = [97] ∧ salt = List.replicate 32 0 then keyOfA else .zero 16
  deriveHash pass _ :=
    if pass = [97] then hashOfA else if pass = keyOfA.bytes then hashOfKey else hashOfEmpty
  encryptSymNoAuth key _ v := maskOfA key v
  decryptSymNoAuth key _ v := maskOfA key v

theorem passwordA_lawful : passwordA.Lawful where
  decrypt_encrypt key iv v := by
    simp only [passwordA, maskOfA]
    split_ifs <;> simp
  length_encrypt key iv v := by
    simp only [passwordA, maskOfA]
    split_ifs <;> simp

def nines : Uuid := ⟨List.replicate 16 9, rfl⟩

/-- An account with a key and one without, and a hint. -/
def twoAccounts : KeyManager where
  m_uuidLookup := AList.singleton nines 1
  m_addrLookup := AList.singleton 1 nines
  m_keyInfo := insertAll [(1, ⟨.zero 32, [97], []⟩), (2, ⟨.zero 32, [98], [99]⟩)] ∅
  m_passwordHint := AList.singleton (.zero 32) [100]
  m_cachedPasswords := ∅
  m_defaultPasswordDeprecated := []
  m_keysFileKey := .zero 16
  m_master := .zero 32
  m_store := AList.singleton nines 1

/-- Two accounts with one uuid. It leads to the second. -/
def shared : KeyManager :=
  { twoAccounts with
    m_uuidLookup := AList.singleton nines 2
    m_addrLookup := insertAll [(1, nines), (2, nines)] ∅ }

theorem known_twoAccounts {a : Address} (h : (twoAccounts.m_keyInfo.lookup a).isSome) :
    a = 2 ∨ a = 1 := by
  have hkeys : twoAccounts.m_keyInfo.keys = [2, 1] := by decide
  have hmem := AList.lookup_isSome.mp h
  rw [AList.mem_keys, hkeys] at hmem
  simpa using hmem

end Examples

end KeysFile
end XChain
