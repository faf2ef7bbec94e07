import XChain.KeyManager

/-!
# Coherence of the key tables

What holds of the tables of a key manager after any imports and kills. The table of the
addresses is an inverse of that of the uuids; the other way round only as long as no second
uuid comes to an address.
-/
namespace XChain

namespace KeyManager

variable {E : Type} (K : KeyCrypto E) (m : KeyManager E)

inductive KeyOp where
  | importSecret (secret : FixedHash 32) (accountName pass passwordHint : String) (r : Uuid)
  | importExisting (uuid : Uuid) (info pass passwordHint : String)
  | importExistingAt (uuid : Uuid) (accountName : String) (a : Address) (passHash : FixedHash 32)
      (passwordHint : String)
  | importBrain (fuel : ℕ) (seed : Bytes) (accountName passwordHint : String)
  | importExistingBrain (a : Address) (accountName passwordHint : String)
  | kill (a : Address)

def step : KeyOp → KeyManager E
  | .importSecret secret accountName pass hint r => m.importSecret K secret accountName pass hint r
  | .importExisting uuid info pass hint => m.importExisting K uuid info pass hint
  | .importExistingAt uuid accountName a passHash hint =>
    m.importExistingAt uuid accountName a passHash hint
  | .importBrain fuel seed accountName hint => m.importBrain K fuel seed accountName hint
  | .importExistingBrain a accountName hint => m.importExistingBrain a accountName hint
  | .kill a => m.kill a

def run (ops : List KeyOp) : KeyManager E := ops.foldl (step K) m

/-- A uuid that is drawn is a new one, and an address that is given for a uuid is that of
the stored key. -/
def Proper : KeyOp → Prop
  | .importSecret _ _ _ _ r => r ≠ .zero 16 ∧ m.m_store.m_keys.lookup r = none
  | .importExistingAt uuid _ a _ _ =>
    ∃ k, m.m_store.m_keys.lookup uuid = some k ∧ K.addressOf (K.opens k.encryptedKey) = a
  | _ => True

def ProperRun (ops : List KeyOp) : Prop :=
  ∀ pre op post, ops = pre ++ op :: post → (m.run K pre).Proper K op

/-- The uuid that a step brings to an address. -/
def registers : KeyOp → Option (Uuid × Address)
  | .importSecret secret _ pass _ r =>
    (K.encrypt secret.bytes pass).map fun _ => (r, K.toAddress secret)
  | .importExisting uuid _ pass _ =>
    let key := (m.m_store.secret K uuid pass true).1
    if key.isEmpty then none else some (uuid, K.addressOf key)
  | .importExistingAt uuid _ a _ _ => some (uuid, a)
  | _ => none

/-- No uuid comes to the address while the tables lead from another one to it. -/
def Single (a : Address) (ops : List KeyOp) : Prop :=
  ∀ pre op post, ops = pre ++ op :: post → ∀ u, (m.run K pre).registers K op = some (u, a) →
    ∀ u', (m.run K pre).m_uuidLookup.lookup u' = some a → u' = u

def brainStep (brain : List Address) : KeyOp → List Address
  | .importBrain fuel seed _ _ =>
    match K.brain fuel seed with
    | some secret => K.toAddress secret :: brain
    | none => brain
  | .importExistingBrain a _ _ => a :: brain
  | .kill a => brain.filter (· ≠ a)
  | _ => brain

/-- The wallets without a key that were imported and not killed since. -/
def brains (ops : List KeyOp) : List Address := ops.foldl (brainStep K) []

/-- A key is stored under the address or under the uuid that belongs to it. -/
def Live (a : Address) : Prop :=
  ∃ u k, m.m_store.m_keys.lookup u = some k ∧ (k.address = a ∨ m.m_addrLookup.lookup a = some u)

/-- Tables that are empty, beside a store whose keys have been read. -/
structure Fresh : Prop where
  uuidLookup : m.m_uuidLookup = ∅
  addrLookup : m.m_addrLookup = ∅
  keyInfo : m.m_keyInfo = ∅
  cached : m.m_store.m_cached = ∅
  zero : m.m_store.m_keys.lookup (.zero 16) = none

/-- What holds of the tables in every state. -/
structure Coherent (brain : List Address) : Prop where
  inverse : ∀ a u, m.m_addrLookup.lookup a = some u → m.m_uuidLookup.lookup u = some a
  stored : ∀ u a, m.m_uuidLookup.lookup u = some a →
    ∃ k, m.m_store.m_keys.lookup u = some k ∧ K.addressOf (K.opens k.encryptedKey) = a
  cached : ∀ u key, m.m_store.m_cached.lookup u = some key →
    ∃ k, m.m_store.m_keys.lookup u = some k ∧ K.opens k.encryptedKey = key
  info : ∀ a, (m.m_keyInfo.lookup a).isSome ↔ (m.m_addrLookup.lookup a).isSome ∨ a ∈ brain
  zero : m.m_store.m_keys.lookup (.zero 16) = none

section Steps

variable {K m} {brain : List Address}

theorem Fresh.coherent (h : m.Fresh) : m.Coherent K [] where
  inverse a u hu := by simp [h.addrLookup] at hu
  stored u a ha := by simp [h.uuidLookup] at ha
  cached u key hk := by simp [h.cached] at hk
  info a := by simp [h.keyInfo, h.addrLookup]
  zero := h.zero

/-- A link to the address of a stored key. -/
theorem Coherent.link (h : m.Coherent K brain) {u : Uuid} {a : Address} {k : EncryptedKey E}
    (hk : m.m_store.m_keys.lookup u = some k) (ha : K.addressOf (K.opens k.encryptedKey) = a)
    (info : KeyInfo) : (m.link u a info).Coherent K brain where
  inverse b v hv := by
    simp only [KeyManager.link] at hv ⊢
    by_cases hb : b = a
    · subst hb
      rw [AList.lookup_insert] at hv
      obtain rfl := Option.some.inj hv
      exact AList.lookup_insert _
    · rw [AList.lookup_insert_ne hb] at hv
      have hback := h.inverse b v hv
      have hne : v ≠ u := by
        rintro rfl
        -- The key under the uuid has one address.
        obtain ⟨k', hk', hb'⟩ := h.stored v b hback
        rw [hk] at hk'
        obtain rfl := Option.some.inj hk'
        exact hb (hb'.symm.trans ha)
      rw [AList.lookup_insert_ne hne]
      exact hback
  stored v b hv := by
    simp only [KeyManager.link] at hv ⊢
    by_cases hne : v = u
    · subst hne
      rw [AList.lookup_insert] at hv
      obtain rfl := Option.some.inj hv
      exact ⟨k, hk, ha⟩
    · rw [AList.lookup_insert_ne hne] at hv
      exact h.stored v b hv
  cached := h.cached
  info b := by
    simp only [KeyManager.link]
    by_cases hb : b = a
    · subst hb
      simp
    · rw [AList.lookup_insert_ne hb, AList.lookup_insert_ne hb]
      exact h.info b
  zero := h.zero

/-- A store that keeps its keys may replace the old one. -/
theorem Coherent.withStore (h : m.Coherent K brain) {store : SecretStore E}
    (hkeys : ∀ u k, m.m_store.m_keys.lookup u = some k → store.m_keys.lookup u = some k)
    (hcached : ∀ u key, store.m_cached.lookup u = some key →
      ∃ k, store.m_keys.lookup u = some k ∧ K.opens k.encryptedKey = key)
    (hzero : store.m_keys.lookup (.zero 16) = none) :
    Coherent K { m with m_store := store } brain where
  inverse := h.inverse
  stored u a ha := by
    obtain ⟨k, hk, hadd⟩ := h.stored u a ha
    exact ⟨k, hkeys u k hk, hadd⟩
  cached := hcached
  info := h.info
  zero := hzero

/-- A secret that comes out of the store is the one that a key opens to. -/
theorem Coherent.secret (h : m.Coherent K brain) (u : Uuid) (pass : String) :
    let r := m.m_store.secret K u pass true
    r.2.m_keys = m.m_store.m_keys ∧ Coherent K { m with m_store := r.2 } brain ∧
      (r.1 = [] ∨ ∃ k, m.m_store.m_keys.lookup u = some k ∧ K.opens k.encryptedKey = r.1) := by
  intro r
  cases hc : m.m_store.m_cached.lookup u with
  | some key =>
    have hr : r = (key, m.m_store) := by simp [r, SecretStore.secret, hc]
    rw [hr]
    exact ⟨rfl, h, Or.inr (h.cached u key hc)⟩
  | none =>
    cases hk : m.m_store.m_keys.lookup u with
    | none =>
      have hr : r = ([], m.m_store) := by simp [r, SecretStore.secret, hc, hk]
      rw [hr]
      exact ⟨rfl, h, Or.inl rfl⟩
    | some k =>
      rcases K.decrypt_eq k.encryptedKey pass with hempty | hopen
      · have hr : r = ([], m.m_store) := by simp [r, SecretStore.secret, hc, hk, hempty]
        rw [hr]
        exact ⟨rfl, h, Or.inl rfl⟩
      · by_cases hnil : K.opens k.encryptedKey = []
        · have hr : r = ([], m.m_store) := by simp [r, SecretStore.secret, hc, hk, hopen, hnil]
          rw [hr]
          exact ⟨rfl, h, Or.inl rfl⟩
        · have hr : r = (K.opens k.encryptedKey,
              { m.m_store with m_cached := m.m_store.m_cached.insert u (K.opens k.encryptedKey) }) := by
            simp [r, SecretStore.secret, hc, hk, hopen, hnil]
          rw [hr]
          refine ⟨rfl, h.withStore (fun v k' hk' => hk') (fun v key hv => ?_) h.zero,
            Or.inr ⟨k, rfl, rfl⟩⟩
          by_cases hne : v = u
          · subst hne
            rw [AList.lookup_insert] at hv
            obtain rfl := Option.some.inj hv
            exact ⟨k, hk, rfl⟩
          · rw [AList.lookup_insert_ne hne] at hv
            exact h.cached v key hv

theorem Coherent.importSecret (h : m.Coherent K brain) {r : Uuid} (hr : r ≠ .zero 16)
    (hnew : m.m_store.m_keys.lookup r = none) (secret : FixedHash 32)
    (accountName pass hint : String) :
    (m.importSecret K secret accountName pass hint r).Coherent K brain := by
  simp only [KeyManager.importSecret, SecretStore.importSecret]
  cases he : K.encrypt secret.bytes pass with
  | none => exact ⟨h.inverse, h.stored, h.cached, h.info, h.zero⟩
  | some e =>
    have hopen := K.opens_encrypt _ _ _ he
    have hkey : (m.m_store.m_keys.insert r ⟨e, K.addressOf secret.bytes⟩).lookup r =
        some ⟨e, K.addressOf secret.bytes⟩ := AList.lookup_insert _
    have hwith : Coherent K { m with m_store :=
        ⟨m.m_store.m_keys.insert r ⟨e, K.addressOf secret.bytes⟩,
          m.m_store.m_cached.insert r secret.bytes⟩ } brain := by
      refine h.withStore (fun u k hk => ?_) (fun u key hu => ?_) ?_
      · have hne : u ≠ r := by
          rintro rfl
          rw [hnew] at hk
          cases hk
        rw [AList.lookup_insert_ne hne, hk]
      · by_cases hne : u = r
        · subst hne
          rw [AList.lookup_insert] at hu
          obtain rfl := Option.some.inj hu
          exact ⟨_, hkey, hopen⟩
        · rw [AList.lookup_insert_ne hne] at hu
          rw [AList.lookup_insert_ne hne]
          exact h.cached u key hu
      · rw [AList.lookup_insert_ne hr.symm]
        exact h.zero
    have haddress : K.addressOf (K.opens e) = K.toAddress secret := by
      rw [hopen, KeyCrypto.addressOf, FixedHash.ofRef_self]
    have hlink := hwith.link hkey haddress
      { passHash := K.hashPassword pass, accountName := accountName }
    exact ⟨hlink.inverse, hlink.stored, hlink.cached, hlink.info, hlink.zero⟩

theorem Coherent.importExistingAt (h : m.Coherent K brain) {u : Uuid} {a : Address}
    {k : EncryptedKey E} (hk : m.m_store.m_keys.lookup u = some k)
    (ha : K.addressOf (K.opens k.encryptedKey) = a) (accountName : String) (passHash : FixedHash 32)
    (hint : String) : (m.importExistingAt u accountName a passHash hint).Coherent K brain := by
  have hlink := h.link hk ha { m.infoOf a with passHash := passHash, accountName := accountName }
  exact ⟨hlink.inverse, hlink.stored, hlink.cached, hlink.info, hlink.zero⟩

theorem Coherent.importExisting (h : m.Coherent K brain) (u : Uuid) (info pass hint : String) :
    (m.importExisting K u info pass hint).Coherent K brain := by
  obtain ⟨hkeys, hstore, hsecret⟩ := h.secret u pass
  rw [KeyManager.importExisting]
  generalize m.m_store.secret K u pass true = r at hkeys hstore hsecret
  obtain ⟨key, store⟩ := r
  simp only at hkeys hstore hsecret ⊢
  by_cases hempty : key.isEmpty
  · rw [if_pos hempty]
    exact hstore
  · rw [if_neg hempty]
    rcases hsecret with rfl | ⟨k, hk, hopen⟩
    · exact absurd rfl hempty
    · have hk' : store.m_keys.lookup u = some k := by rw [hkeys, hk]
      have haddress : K.addressOf (K.opens k.encryptedKey) = K.addressOf key := by rw [hopen]
      split
      · exact hstore.importExistingAt hk' haddress info _ hint
      · have hcache : Coherent K (cachePassword K { m with m_store := store } pass) brain :=
          ⟨hstore.inverse, hstore.stored, hstore.cached, hstore.info, hstore.zero⟩
        exact hcache.importExistingAt hk' haddress info _ hint

theorem Coherent.importExistingBrain (h : m.Coherent K brain) (a : Address)
    (accountName hint : String) :
    (m.importExistingBrain a accountName hint).Coherent K (a :: brain) where
  inverse := h.inverse
  stored := h.stored
  cached := h.cached
  info b := by
    simp only [KeyManager.importExistingBrain]
    by_cases hb : b = a
    · subst hb
      simp
    · rw [AList.lookup_insert_ne hb, h.info b, List.mem_cons]
      simp [hb]
  zero := h.zero

/-- The uuid that is taken out of the tables belongs to no other address. -/
theorem Coherent.ne_killed (h : m.Coherent K brain) {a b : Address} {u : Uuid} (hb : b ≠ a)
    (hu : m.m_uuidLookup.lookup u = some b) : u ≠ (m.m_addrLookup.lookup a).getD (.zero 16) := by
  rintro rfl
  cases ha : m.m_addrLookup.lookup a with
  | none =>
    rw [ha] at hu
    obtain ⟨k, hk, -⟩ := h.stored _ _ hu
    rw [Option.getD_none, h.zero] at hk
    cases hk
  | some v =>
    rw [ha, Option.getD_some, h.inverse a v ha] at hu
    exact hb (Option.some.inj hu).symm

theorem Coherent.kill (h : m.Coherent K brain) (a : Address) :
    (m.kill a).Coherent K (brain.filter (· ≠ a)) where
  inverse b u hu := by
    simp only [KeyManager.kill] at hu ⊢
    by_cases hb : b = a
    · subst hb
      rw [AList.lookup_erase] at hu
      cases hu
    · rw [AList.lookup_erase_ne hb] at hu
      have hback := h.inverse b u hu
      rw [AList.lookup_erase_ne (h.ne_killed hb hback)]
      exact hback
  stored u b hu := by
    simp only [KeyManager.kill, SecretStore.kill] at hu ⊢
    by_cases hne : u = (m.m_addrLookup.lookup a).getD (.zero 16)
    · rw [hne, AList.lookup_erase] at hu
      cases hu
    · rw [AList.lookup_erase_ne hne] at hu ⊢
      exact h.stored u b hu
  cached u key hu := by
    simp only [KeyManager.kill, SecretStore.kill] at hu ⊢
    by_cases hne : u = (m.m_addrLookup.lookup a).getD (.zero 16)
    · rw [hne, AList.lookup_erase] at hu
      cases hu
    · rw [AList.lookup_erase_ne hne] at hu ⊢
      exact h.cached u key hu
  info b := by
    simp only [KeyManager.kill]
    by_cases hb : b = a
    · subst hb
      simp
    · rw [AList.lookup_erase_ne hb, AList.lookup_erase_ne hb, h.info b, List.mem_filter]
      simp [hb]
  zero := by
    simp only [KeyManager.kill, SecretStore.kill]
    by_cases hne : FixedHash.zero 16 = (m.m_addrLookup.lookup a).getD (.zero 16)
    · rw [← hne, AList.lookup_erase]
    · rw [AList.lookup_erase_ne hne]
      exact h.zero

theorem Coherent.step (h : m.Coherent K brain) (op : KeyOp) (hop : m.Proper K op) :
    (m.step K op).Coherent K (brainStep K brain op) := by
  cases op with
  | importSecret secret accountName pass hint r =>
    exact h.importSecret hop.1 hop.2 secret accountName pass hint
  | importExisting uuid info pass hint => exact h.importExisting uuid info pass hint
  | importExistingAt uuid accountName a passHash hint =>
    obtain ⟨k, hk, ha⟩ := hop
    exact h.importExistingAt hk ha accountName passHash hint
  | importBrain fuel seed accountName hint =>
    simp only [KeyManager.step, importBrain, brainStep]
    cases K.brain fuel seed with
    | none => exact h
    | some secret => exact h.importExistingBrain _ accountName hint
  | importExistingBrain a accountName hint => exact h.importExistingBrain a accountName hint
  | kill a => exact h.kill a

theorem run_snoc (m : KeyManager E) (pre : List KeyOp) (op : KeyOp) :
    m.run K (pre ++ [op]) = (m.run K pre).step K op := List.foldl_concat _ _ _ _

theorem ProperRun.of_append {pre post : List KeyOp} (h : m.ProperRun K (pre ++ post)) :
    m.ProperRun K pre := by
  rintro p op q rfl
  exact h p op (q ++ post) (by simp)

theorem Single.of_append {a : Address} {pre post : List KeyOp} (h : m.Single K a (pre ++ post)) :
    m.Single K a pre := by
  rintro p op q rfl
  exact h p op (q ++ post) (by simp)

theorem Fresh.coherent_run (hm : m.Fresh) (ops : List KeyOp) (hops : m.ProperRun K ops) :
    (m.run K ops).Coherent K (brains K ops) := by
  induction ops using List.reverseRecOn with
  | nil => exact hm.coherent
  | append_singleton pre op ih =>
    have hstep := (ih hops.of_append).step op (hops pre op [] rfl)
    rw [run_snoc]
    rwa [brains, List.foldl_concat]

theorem tables_of_registers {op : KeyOp} {u : Uuid} {a : Address}
    (hop : m.registers K op = some (u, a)) :
    (m.step K op).m_uuidLookup = m.m_uuidLookup.insert u a ∧
      (m.step K op).m_addrLookup = m.m_addrLookup.insert a u := by
  cases op with
  | importSecret secret accountName pass hint r =>
    simp only [registers, Option.map_eq_some_iff, Prod.mk.injEq] at hop
    obtain ⟨e, he, rfl, rfl⟩ := hop
    simp [KeyManager.step, KeyManager.importSecret, SecretStore.importSecret, he, KeyManager.link,
      cachePassword]
  | importExisting uuid info pass hint =>
    simp only [registers, Option.ite_none_left_eq_some, Option.some.injEq, Prod.mk.injEq] at hop
    obtain ⟨hkey, rfl, rfl⟩ := hop
    simp only [KeyManager.step, KeyManager.importExisting, if_neg hkey]
    split <;> exact ⟨rfl, rfl⟩
  | importExistingAt uuid accountName b passHash hint =>
    simp only [registers, Option.some.injEq, Prod.mk.injEq] at hop
    obtain ⟨rfl, rfl⟩ := hop
    exact ⟨rfl, rfl⟩
  | importBrain fuel seed accountName hint => cases hop
  | importExistingBrain b accountName hint => cases hop
  | kill b => cases hop

theorem tables_of_not_registers {op : KeyOp} (hop : m.registers K op = none)
    (hkill : ∀ a, op ≠ .kill a) :
    (m.step K op).m_uuidLookup = m.m_uuidLookup ∧ (m.step K op).m_addrLookup = m.m_addrLookup := by
  cases op with
  | importSecret secret accountName pass hint r =>
    simp only [registers, Option.map_eq_none_iff] at hop
    simp [KeyManager.step, KeyManager.importSecret, SecretStore.importSecret, hop, cachePassword]
  | importExisting uuid info pass hint =>
    simp only [registers, ite_eq_left_iff, reduceCtorEq, imp_false, not_not] at hop
    simp only [KeyManager.step, KeyManager.importExisting, if_pos hop, and_self]
  | importExistingAt uuid accountName b passHash hint => cases hop
  | importBrain fuel seed accountName hint =>
    simp only [KeyManager.step, importBrain]
    cases K.brain fuel seed <;> exact ⟨rfl, rfl⟩
  | importExistingBrain b accountName hint => exact ⟨rfl, rfl⟩
  | kill b => exact absurd rfl (hkill b)

/-- As long as one uuid at a time comes to an address, its uuid leads back to it. -/
theorem single_step {op : KeyOp} {a : Address}
    (hone : ∀ u, m.registers K op = some (u, a) → ∀ v, m.m_uuidLookup.lookup v = some a → v = u)
    (hback : ∀ v, m.m_uuidLookup.lookup v = some a → m.m_addrLookup.lookup a = some v) :
    ∀ v, (m.step K op).m_uuidLookup.lookup v = some a →
      (m.step K op).m_addrLookup.lookup a = some v := by
  intro v hv
  cases hreg : m.registers K op with
  | some r =>
    obtain ⟨u, b⟩ := r
    obtain ⟨huuid, haddr⟩ := tables_of_registers hreg
    rw [huuid] at hv
    rw [haddr]
    by_cases hvu : v = u
    · subst hvu
      rw [AList.lookup_insert] at hv
      obtain rfl := Option.some.inj hv
      exact AList.lookup_insert _
    · rw [AList.lookup_insert_ne hvu] at hv
      have hab : a ≠ b := by
        rintro rfl
        exact hvu (hone u hreg v hv)
      rw [AList.lookup_insert_ne hab]
      exact hback v hv
  | none =>
    by_cases hkill : ∃ b, op = .kill b
    · obtain ⟨b, rfl⟩ := hkill
      simp only [KeyManager.step, KeyManager.kill] at hv ⊢
      by_cases hvid : v = (m.m_addrLookup.lookup b).getD (.zero 16)
      · rw [hvid, AList.lookup_erase] at hv
        cases hv
      · rw [AList.lookup_erase_ne hvid] at hv
        have hlook := hback v hv
        have hab : a ≠ b := by
          rintro rfl
          rw [hlook] at hvid
          exact hvid rfl
        rw [AList.lookup_erase_ne hab]
        exact hlook
    · obtain ⟨huuid, haddr⟩ := tables_of_not_registers hreg fun b h => hkill ⟨b, h⟩
      rw [huuid] at hv
      rw [haddr]
      exact hback v hv

theorem Fresh.single_run (hm : m.Fresh) {a : Address} (ops : List KeyOp)
    (hops : m.Single K a ops) :
    ∀ v, (m.run K ops).m_uuidLookup.lookup v = some a →
      (m.run K ops).m_addrLookup.lookup a = some v := by
  induction ops using List.reverseRecOn with
  | nil =>
    intro v hv
    have hempty : m.m_uuidLookup.lookup v = some a := hv
    simp [hm.uuidLookup] at hempty
  | append_singleton pre op ih =>
    rw [run_snoc]
    exact single_step (hops pre op [] rfl) (ih hops.of_append)

theorem mem_accounts {a : Address} : a ∈ m.accounts ↔
    a ≠ 0 ∧ ((m.m_keyInfo.lookup a).isSome ∨
      ∃ u k, m.m_store.m_keys.lookup u = some k ∧ k.address = a) := by
  simp only [accounts, List.mem_filter, List.mem_mergeSort, List.mem_dedup, List.mem_append,
    List.mem_map, decide_eq_true_eq, ne_eq]
  rw [and_comm]
  refine and_congr_right fun _ => or_congr ?_ ?_
  · rw [AList.lookup_isSome]
    rfl
  · constructor
    · rintro ⟨⟨u, k⟩, hmem, hk⟩
      exact ⟨u, k, List.mem_dlookup m.m_store.m_keys.nodupKeys hmem, hk⟩
    · rintro ⟨u, k, hlook, hk⟩
      exact ⟨⟨u, k⟩, List.of_mem_dlookup hlook, hk⟩

theorem hasAccount_iff {a : Address} : m.hasAccount a = true ↔ a ∈ m.accounts := by
  rw [mem_accounts]
  simp only [hasAccount, Bool.and_eq_true, Bool.or_eq_true, List.any_eq_true, decide_eq_true_eq,
    ne_eq]
  refine and_congr_right fun _ => or_congr_right ?_
  constructor
  · rintro ⟨⟨u, k⟩, hmem, hk⟩
    exact ⟨u, k, List.mem_dlookup m.m_store.m_keys.nodupKeys hmem, hk⟩
  · rintro ⟨u, k, hlook, hk⟩
    exact ⟨⟨u, k⟩, List.of_mem_dlookup hlook, hk⟩

/-- The listed addresses are those with a key and the wallets without one. -/
theorem Coherent.mem_accounts_iff (h : m.Coherent K brain) {a : Address} :
    a ∈ m.accounts ↔ a ≠ 0 ∧ (m.Live a ∨ a ∈ brain) := by
  rw [mem_accounts, h.info]
  refine and_congr_right fun _ => ?_
  constructor
  · rintro ((hlook | hbrain) | ⟨u, k, hk, ha⟩)
    · obtain ⟨u, hu⟩ := Option.isSome_iff_exists.mp hlook
      obtain ⟨k, hk, -⟩ := h.stored u a (h.inverse a u hu)
      exact Or.inl ⟨u, k, hk, Or.inr hu⟩
    · exact Or.inr hbrain
    · exact Or.inl ⟨u, k, hk, Or.inl ha⟩
  · rintro (⟨u, k, hk, ha | hu⟩ | hbrain)
    · exact Or.inr ⟨u, k, hk, ha⟩
    · exact Or.inl (Or.inl (by rw [hu]; rfl))
    · exact Or.inl (Or.inr hbrain)

/-- What is true after an address is killed. It is still listed only if the store has a key
for it under another uuid than its own. -/
structure Killed (m : KeyManager E) (a : Address) : Prop where
  unlinked : ∀ u, m.m_addrLookup.lookup a = some u →
    (m.kill a).m_uuidLookup.lookup u = none ∧ (∀ b, (m.kill a).m_addrLookup.lookup b ≠ some u) ∧
      (m.kill a).m_store.m_keys.lookup u = none
  noUuid : (m.kill a).m_addrLookup.lookup a = none
  unlisted : (∀ u k, m.m_store.m_keys.lookup u = some k → k.address = a →
      m.m_addrLookup.lookup a = some u) →
    a ∉ (m.kill a).accounts ∧ (m.kill a).hasAccount a = false

theorem Coherent.killed (h : m.Coherent K brain) (a : Address) : m.Killed a where
  unlinked u hu := by
    have hid : (m.m_addrLookup.lookup a).getD (.zero 16) = u := by rw [hu, Option.getD_some]
    simp only [KeyManager.kill, SecretStore.kill, hid, AList.lookup_erase, true_and, and_true]
    intro b hb
    by_cases hba : b = a
    · rw [hba, AList.lookup_erase] at hb
      cases hb
    · rw [AList.lookup_erase_ne hba] at hb
      exact hba (Option.some.inj ((h.inverse b u hb).symm.trans (h.inverse a u hu)))
  noUuid := AList.lookup_erase a _
  unlisted hone := by
    have hnot : a ∉ (m.kill a).accounts := by
      rw [mem_accounts]
      rintro ⟨-, hinfo | ⟨u, k, hk, ha⟩⟩
      · rw [KeyManager.kill, AList.lookup_erase] at hinfo
        cases hinfo
      · simp only [KeyManager.kill, SecretStore.kill] at hk
        by_cases hid : u = (m.m_addrLookup.lookup a).getD (.zero 16)
        · rw [← hid, AList.lookup_erase] at hk
          cases hk
        · rw [AList.lookup_erase_ne hid] at hk
          rw [hone u k hk ha] at hid
          exact hid rfl
    refine ⟨hnot, ?_⟩
    rw [← hasAccount_iff] at hnot
    simpa using hnot

end Steps

/-- Encryption that hides nothing, and one address for all keys. -/
def plainCrypto : KeyCrypto Bytes where
  toAddress _ := 1
  sha3 _ := .zero 32
  hashPassword _ := .zero 32
  encrypt s _ := some s
  decrypt e _ := e
  opens e := e
  decrypt_eq _ _ := Or.inr rfl
  opens_encrypt _ _ _ h := (Option.some.inj h).symm

def noKeys : KeyManager Bytes := ⟨∅, ∅, ∅, ∅, ∅, ⟨∅, ∅⟩⟩

theorem noKeys_fresh : noKeys.Fresh := ⟨rfl, rfl, rfl, rfl, rfl⟩

def oneUuid : Uuid := ⟨List.replicate 16 1, List.length_replicate⟩

theorem properRun_one {K : KeyCrypto E} {m : KeyManager E} {op : KeyOp} (h : m.Proper K op) :
    m.ProperRun K [op] := by
  intro pre o post hops
  cases pre with
  | nil =>
    obtain ⟨rfl, -⟩ := List.cons.inj hops
    exact h
  | cons x pre => simp at hops

end KeyManager
end XChain
