import Mathlib.Data.List.AList
import XChain.FixedHash
import XChain.Common

/-!
# Keys and their accounts

A store of encrypted keys by their uuid, and a manager with two tables that lead from the
uuids to the addresses and back. An address is listed when something is known about it or
when a key is stored for it, so wallets without a key are listed as well.
-/
namespace XChain

abbrev Uuid := FixedHash 16

/-- Key derivation and encryption. A password that is wrong opens nothing. -/
structure KeyCrypto (E : Type) where
  toAddress : FixedHash 32 → Address
  sha3 : Bytes → FixedHash 32
  hashPassword : String → FixedHash 32
  encrypt : Bytes → String → Option E
  decrypt : E → String → Bytes
  opens : E → Bytes
  decrypt_eq : ∀ e p, decrypt e p = [] ∨ decrypt e p = opens e
  opens_encrypt : ∀ s p e, encrypt s p = some e → opens e = s

namespace KeyCrypto

variable {E : Type} (K : KeyCrypto E)

/-- The address of the key with the given bytes. -/
def addressOf (key : Bytes) : Address := K.toAddress (FixedHash.ofRef 32 key)

/-- Hashes on until the address begins with a zero byte. -/
def brainLoop : ℕ → FixedHash 32 → Option (FixedHash 32)
  | 0, _ => none
  | fuel + 1, ret =>
    if (K.toAddress ret).toNat / 256 ^ 19 ≠ 0 then brainLoop fuel (K.sha3 ret.bytes) else some ret

def brain (fuel : ℕ) (seed : Bytes) : Option (FixedHash 32) :=
  K.brainLoop fuel ((fun r : FixedHash 32 => K.sha3 r.bytes)^[16384] (K.sha3 seed))

end KeyCrypto

structure EncryptedKey (E : Type) where
  encryptedKey : E
  address : Address

structure SecretStore (E : Type) where
  m_keys : AList fun _ : Uuid => EncryptedKey E
  m_cached : AList fun _ : Uuid => Bytes

namespace SecretStore

variable {E : Type} (K : KeyCrypto E) (s : SecretStore E)

/-- The secret of a key, from the cache if it is there. -/
def secret (uuid : Uuid) (pass : String) (useCache : Bool) : Bytes × SecretStore E :=
  match useCache, s.m_cached.lookup uuid with
  | true, some key => (key, s)
  | _, _ =>
    match s.m_keys.lookup uuid with
    | none => ([], s)
    | some k =>
      let key := K.decrypt k.encryptedKey pass
      (key, if key.isEmpty then s else { s with m_cached := s.m_cached.insert uuid key })

/-- Stores a secret under the uuid that was drawn, unless encrypting fails. -/
def importSecret (secret : Bytes) (pass : String) (r : Uuid) : Option (SecretStore E) :=
  (K.encrypt secret pass).map fun e =>
    { m_cached := s.m_cached.insert r secret, m_keys := s.m_keys.insert r ⟨e, K.addressOf secret⟩ }

def kill (uuid : Uuid) : SecretStore E :=
  { m_cached := s.m_cached.erase uuid, m_keys := s.m_keys.erase uuid }

end SecretStore

structure KeyInfo where
  passHash : FixedHash 32 := .zero 32
  accountName : String := ""
  passwordHint : String := ""

structure KeyManager (E : Type) where
  m_uuidLookup : AList fun _ : Uuid => Address
  m_addrLookup : AList fun _ : Address => Uuid
  m_keyInfo : AList fun _ : Address => KeyInfo
  m_passwordHint : AList fun _ : FixedHash 32 => String
  m_cachedPasswords : AList fun _ : FixedHash 32 => String
  m_store : SecretStore E

namespace KeyManager

variable {E : Type} (K : KeyCrypto E) (m : KeyManager E)

def cachePassword (pass : String) : KeyManager E :=
  { m with m_cachedPasswords := m.m_cachedPasswords.insert (K.hashPassword pass) pass }

/-- The entry of an address, which is created when it is not there. -/
def infoOf (a : Address) : KeyInfo := (m.m_keyInfo.lookup a).getD {}

/-- Leads from a uuid to an address and back. -/
def link (uuid : Uuid) (a : Address) (info : KeyInfo) : KeyManager E :=
  { m with
    m_uuidLookup := m.m_uuidLookup.insert uuid a
    m_addrLookup := m.m_addrLookup.insert a uuid
    m_keyInfo := m.m_keyInfo.insert a info }

/-- Nothing but the passwords changes when the secret cannot be encrypted. -/
def importSecret (secret : FixedHash 32) (accountName pass passwordHint : String) (r : Uuid) :
    KeyManager E :=
  let addr := K.toAddress secret
  let passHash := K.hashPassword pass
  let m := m.cachePassword K pass
  let m := { m with m_passwordHint := m.m_passwordHint.insert passHash passwordHint }
  match m.m_store.importSecret K secret.bytes pass r with
  | none => m
  | some store =>
    let info := { passHash := passHash, accountName := accountName }
    link { m with m_store := store } r addr info

/-- Notes what is known about an address. No key is stored. -/
def importExistingBrain (a : Address) (accountName passwordHint : String) : KeyManager E :=
  let info := { m.infoOf a with accountName := accountName, passwordHint := passwordHint }
  { m with m_keyInfo := m.m_keyInfo.insert a info }

def importBrain (fuel : ℕ) (seed : Bytes) (accountName passwordHint : String) : KeyManager E :=
  match K.brain fuel seed with
  | none => m
  | some secret => m.importExistingBrain (K.toAddress secret) accountName passwordHint

def importExistingAt (uuid : Uuid) (accountName : String) (a : Address) (passHash : FixedHash 32)
    (passwordHint : String) : KeyManager E :=
  let hints :=
    if (m.m_passwordHint.lookup passHash).isSome then m.m_passwordHint
    else m.m_passwordHint.insert passHash passwordHint
  let info := { m.infoOf a with passHash := passHash, accountName := accountName }
  link { m with m_passwordHint := hints } uuid a info

def importExisting (uuid : Uuid) (info pass passwordHint : String) : KeyManager E :=
  let (key, store) := m.m_store.secret K uuid pass true
  let m := { m with m_store := store }
  if key.isEmpty then m
  else
    let passHash := K.hashPassword pass
    let m := if (m.m_cachedPasswords.lookup passHash).isSome then m else m.cachePassword K pass
    m.importExistingAt uuid info (K.addressOf key) passHash passwordHint

/-- The uuid is zero for an address without a key. -/
def kill (a : Address) : KeyManager E :=
  let id := (m.m_addrLookup.lookup a).getD (.zero 16)
  { m with
    m_uuidLookup := m.m_uuidLookup.erase id
    m_addrLookup := m.m_addrLookup.erase a
    m_keyInfo := m.m_keyInfo.erase a
    m_store := m.m_store.kill id }

/-- The addresses with an entry or a stored key, in order and without the zero address. -/
def accounts : List Address :=
  let addresses := m.m_keyInfo.keys ++ m.m_store.m_keys.entries.map fun e => e.2.address
  (addresses.dedup.mergeSort fun a b => decide (a ≤ b)).filter fun a => a ≠ 0

def hasAccount (a : Address) : Bool :=
  a ≠ 0 && ((m.m_keyInfo.lookup a).isSome || m.m_store.m_keys.entries.any fun e => e.2.address = a)

end KeyManager
end XChain
