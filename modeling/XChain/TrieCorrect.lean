import XChain.TrieRuns

/-!
# The trie as a map

Reads and roots after a history are those of the map it leaves behind: for every
history of insertions, and for every history over keys of which none begins
another one. Over other keys a removal is exact as long as it keeps clear of the
three situations.
-/
namespace XChain
namespace TrieDB

open StoreProg

variable {sha3 : Bytes → H256} {D : Type} [LawfulContentStore H256 Bytes D []]

/-- No key is the beginning of another one. -/
def PrefixFree (keys : Set Bytes) : Prop := ∀ x ∈ keys, ∀ y ∈ keys, x <+: y → x = y

theorem prefixFree_length (n : ℕ) : PrefixFree {k | k.length = n} := by
  intro x hx y hy h
  exact h.eq_of_length (hx.trans hy.symm)

/-- The keys of the transaction and receipt tries: encoded indices. -/
theorem prefixFree_rlp : PrefixFree {k | ∃ i : ℕ, k = Rlp.encode (.data (Rlp.bigEndian i))} := by
  rintro x ⟨i, rfl⟩ y ⟨j, rfl⟩ h
  rw [Rlp.encode_prefixFree h]

section PrefixFreeKeys

variable {keys : Set Bytes} {m : BytesMap}

lemma BytesMap.exists_of_word {n : List Nibble} (h : m.word n ≠ none) :
    ∃ k, asNibbles k = n ∧ k ∈ m := by
  cases hfind : m.entries.find? fun e => asNibbles e.1 = n with
  | none => exact absurd (by rw [BytesMap.word, hfind]; rfl) h
  | some e =>
    refine ⟨e.1, by simpa using List.find?_some hfind, ?_⟩
    exact AList.mem_keys.mpr (List.mem_map_of_mem (List.mem_of_find?_eq_some hfind))

/-- In a map over such keys no word begins another one. -/
lemma PrefixFree.word_eq (hkeys : PrefixFree keys) (hm : ∀ k ∈ m, k ∈ keys) {k : Bytes}
    (hk : k ∈ keys) {n : List Nibble} (hn : m.word n ≠ none)
    (h : asNibbles k <+: n ∨ n <+: asNibbles k) : n = asNibbles k := by
  obtain ⟨k', rfl, hk'⟩ := BytesMap.exists_of_word hn
  rcases h with h | h
  · rw [hkeys k hk k' (hm k' hk') (asNibbles_prefix_iff.mp h)]
  · rw [hkeys k' (hm k' hk') k hk (asNibbles_prefix_iff.mp h)]

/-- Over such keys the three situations do not arise. -/
theorem PrefixFree.removable (hkeys : PrefixFree keys) (hm : ∀ k ∈ m, k ∈ keys) {k : Bytes}
    (hk : k ∈ keys) (db : D) : Removable db m.word (asNibbles k) where
  not_branchPoint := by
    rintro ⟨-, i, j, x, y, -, hx, -⟩
    have h := hkeys.word_eq hm hk hx (Or.inl (List.prefix_append _ _))
    simp at h
  not_behindLeaf := by
    rintro ⟨p, hp, hne, hfp, -⟩
    exact hne (hkeys.word_eq hm hk hfp (Or.inr hp))
  harmless := by
    rintro p v ⟨hp, hpk, hne, -, -⟩
    exact absurd (hkeys.word_eq hm hk (by rw [hp]; simp) (Or.inr hpk)) hne

lemma mem_contents {ops : List TrieOp} {k : Bytes} (h : k ∈ contents ops) :
    ∃ op ∈ ops, op.key = k := by
  induction ops using List.reverseRecOn with
  | nil => exact absurd h (AList.notMem_empty k)
  | append_singleton ops op ih =>
    rw [contents_concat] at h
    have hor : op.key = k ∨ k ∈ contents ops := by
      cases op with
      | insert k' v => exact (AList.mem_insert _).mp h |>.imp Eq.symm id
      | remove k' => exact Or.inr (AList.mem_erase.mp h).2
    rcases hor with rfl | hmem
    · exact ⟨op, by simp, rfl⟩
    · obtain ⟨op', hop', hkey⟩ := ih hmem
      exact ⟨op', by simp [hop'], hkey⟩

theorem PrefixFree.clear (hkeys : PrefixFree keys) {ops : List TrieOp}
    (hops : ∀ op ∈ ops, op.key ∈ keys) (db₀ : D) : Clear sha3 db₀ ops := by
  rintro before k after rfl root db -
  refine hkeys.removable (fun k' hk' => ?_) (hops (.remove k) (by simp)) db
  obtain ⟨op, hop, rfl⟩ := mem_contents hk'
  exact hops op (by simp [hop])

end PrefixFreeKeys

section Claims

/-- Equal maps have equal roots, however they are written down. -/
lemma Tracks.hash256_congr {db : D} {root : H256} {m m' : BytesMap} {t : Trie}
    (h : Tracks sha3 db root m t) (hm : ∀ k, m'.lookup k = m.lookup k) :
    hash256 sha3 m' = some root := by
  have hrep : Represents m' t := by
    intro n v
    simp only [h.represents n v, hm]
  rw [h.root_eq, TrieDB.hash256_eq (fun k v hv => h.values k v (by rw [← hm, hv])) h.canonical hrep]

lemma Tracks.root_of_empty {db : D} {root : H256} {m : BytesMap} {t : Trie}
    (h : Tracks sha3 db root m t) (hm : ∀ k, m.lookup k = none) :
    root = sha3 (Rlp.encode RLPNull) := by
  have hempty : t = .empty := by
    by_contra hne
    obtain ⟨n, v, hn⟩ := h.canonical.exists_get hne
    obtain ⟨k, -, hk⟩ := h.represents.mem_of_get (by rw [hn]; simp)
    exact hk (hm k)
  rw [h.root_eq, hempty]
  rfl

/-- The trie after a history: every read gives the value of the map, and the root
is the one of any map with these values. -/
def Serves (sha3 : Bytes → H256) (db : D) (root : H256) (m : BytesMap) : Prop :=
  (∀ k, (atKey root k).run db = (some ((m.lookup k).getD []), db)) ∧
    (TrieDB.root root).run db = (some root, db) ∧
    (∀ m' : BytesMap, (∀ k, m'.lookup k = m.lookup k) → hash256 sha3 m' = some root) ∧
    ((∀ k, m.lookup k = none) → root = sha3 (Rlp.encode RLPNull))

lemma Tracks.serves {db : D} {root : H256} {m : BytesMap} {t : Trie}
    (h : Tracks sha3 db root m t) : Serves sha3 db root m :=
  ⟨h.read, h.read_root, fun _ hm => h.hash256_congr hm, h.root_of_empty⟩

lemma lookup_fresh (h : H256) : ContentStore.lookup MemoryDB.fresh h = [] := rfl

/-- The digests of the nodes in the examples below. -/
def knownDigests : List (Bytes × ℕ) := [
  ([128], 0x56e81f171bcc55a6ff8345e692c0f86e5b48e01b996cadc001622fb5e363b421),
  ([196, 130, 32, 18, 97], 0x35ada833c638a9a5d332f9bb7d8a879269a27077a0e31404ef20273bff0d80f6),
  ([196, 130, 32, 19, 98], 0xe46137597d7fdc7cc25d84e2f616210e2a049f062e4b165a29e77e76dda412ab),
  ([215, 17, 213, 128, 128, 194, 32, 97, 194, 32, 98] ++ List.replicate 13 128,
    0x0256cb4c36df44a6278346276b79d6e4bdfd5f01529e130a77e34eca5f06f6d0),
  ([211, 128, 194, 50, 97] ++ List.replicate 14 128 ++ [98],
    0x5e133d19c5a73cc842c83a08b1e3d0adc58465ca33ef1a672b7aeb5692778014),
  ([211, 128, 194, 50, 98] ++ List.replicate 14 128 ++ [98],
    0x367f7197040300575a8a7bd6cf6f1dc5fba81b39cf56b57d4c76d953602673c7),
  ([197, 131, 32, 0, 16, 97], 0x75d962fde0eb4dd8e75b54a92f0f5bbb33e851da35bef6bc6e69cc193a33ae41),
  ([217, 130, 0, 0, 213, 128, 194, 48, 97, 194, 48, 98] ++ List.replicate 14 128,
    0x8527679b4d788781c2e0e48e47c1fcba17f282c45b899803e4bbf8a3ec6388df)]

def knownDigest (b : Bytes) : H256 := H256.ofNat ((knownDigests.lookup b).getD 0)

/-- The values "a" and "b". -/
def letterA : Value := ⟨[97], by decide⟩

def letterB : Value := ⟨[98], by decide⟩

lemma injOn_of_list {l : List Bytes}
    (h : ∀ a ∈ l, ∀ b ∈ l, knownDigest a = knownDigest b → a = b) :
    Set.InjOn knownDigest {b | b ∈ l} := fun _ ha _ hb heq => h _ ha _ hb heq

theorem history_prefixFree (sha3 : Bytes → H256) {keys : Set Bytes} (hkeys : PrefixFree keys)
    (ops : List TrieOp) (hops : ∀ op ∈ ops, op.key ∈ keys)
    (hsha : Set.InjOn sha3 {b | b ∈ (history sha3 ops).writes MemoryDB.fresh}) :
    ∃ root db, (history sha3 ops).run MemoryDB.fresh = (some root, db) ∧
      Serves sha3 db root (contents ops) := by
  obtain ⟨root, db, hrun, t, ht⟩ := history_tracks (hkeys.clear hops MemoryDB.fresh)
    (history_safe lookup_fresh ops hsha)
  exact ⟨root, db, hrun, ht.serves⟩

theorem history_prefixFree_letters : ∃ root db,
    (history knownDigest [.insert [0x12] letterA, .insert [0x13] letterB, .remove [0x12]]).run
      MemoryDB.fresh = (some root, db) ∧
      Serves knownDigest db root
        (contents [.insert [0x12] letterA, .insert [0x13] letterB, .remove [0x12]]) :=
  history_prefixFree knownDigest (prefixFree_length 1) _ (by decide)
    (injOn_of_list (by decide +kernel))

/-- The value last inserted for a key. -/
def lastInserted (entries : List (Bytes × Value)) (k : Bytes) : Option Value :=
  (entries.reverse.find? fun e => e.1 = k).map fun e => e.2

def inserts (entries : List (Bytes × Value)) : List TrieOp :=
  entries.map fun e => .insert e.1 e.2

lemma lookup_contents_inserts (entries : List (Bytes × Value)) (k : Bytes) :
    (contents (inserts entries)).lookup k = (lastInserted entries k).map Subtype.val := by
  induction entries using List.reverseRecOn with
  | nil => rfl
  | append_singleton entries e ih =>
    simp only [inserts, lastInserted, List.map_append, List.map_cons, List.map_nil,
      List.reverse_append, List.reverse_cons, List.reverse_nil, List.nil_append,
      List.singleton_append, contents_concat, TrieOp.apply] at ih ⊢
    by_cases hk : e.1 = k
    · subst hk
      simp
    · rw [AList.lookup_insert_ne (Ne.symm hk), ih, List.find?_cons_of_neg (by simpa using hk)]

/-- Insertions alone never meet the three situations. -/
lemma clear_inserts (entries : List (Bytes × Value)) (db₀ : D) :
    Clear sha3 db₀ (inserts entries) := by
  rintro before k after heq
  have hmem : TrieOp.remove k ∈ inserts entries := by
    rw [heq]
    simp
  simp [inserts] at hmem

theorem history_inserts (sha3 : Bytes → H256) (entries : List (Bytes × Value))
    (hsha : Set.InjOn sha3 {b | b ∈ (history sha3 (inserts entries)).writes MemoryDB.fresh}) :
    ∃ root db, (history sha3 (inserts entries)).run MemoryDB.fresh = (some root, db) ∧
      (∀ k, (atKey root k).run db = (some (valueBytes (lastInserted entries k)), db)) ∧
      Serves sha3 db root (contents (inserts entries)) := by
  obtain ⟨root, db, hrun, t, ht⟩ := history_tracks (clear_inserts entries MemoryDB.fresh)
    (history_safe lookup_fresh _ hsha)
  refine ⟨root, db, hrun, fun k => ?_, ht.serves⟩
  rw [ht.read, lookup_contents_inserts]
  cases lastInserted entries k <;> rfl

theorem history_inserts_letters : ∃ root db,
    (history knownDigest (inserts [([0x12], letterA), ([], letterB), ([0x12], letterB)])).run
      MemoryDB.fresh = (some root, db) ∧
      (∀ k, (atKey root k).run db = (some (valueBytes (lastInserted
        [([0x12], letterA), ([], letterB), ([0x12], letterB)] k)), db)) ∧
      Serves knownDigest db root
        (contents (inserts [([0x12], letterA), ([], letterB), ([0x12], letterB)])) :=
  history_inserts knownDigest [([0x12], letterA), ([], letterB), ([0x12], letterB)]
    (injOn_of_list (by decide +kernel))

/-- A removal clear of the three situations takes away its key and nothing else. -/
theorem remove_exact (sha3 : Bytes → H256) (ops : List TrieOp) (k : Bytes)
    (hclear : Clear sha3 MemoryDB.fresh (ops ++ [.remove k]))
    (hsha : Set.InjOn sha3
      {b | b ∈ (history sha3 (ops ++ [.remove k])).writes MemoryDB.fresh}) :
    ∃ root db root' db', (history sha3 ops).run MemoryDB.fresh = (some root, db) ∧
      (remove sha3 root k).run db = (some root', db') ∧
      (atKey root' k).run db' = (some [], db') ∧
      (∀ k', k' ≠ k → ((atKey root' k').run db').1 = ((atKey root k').run db).1 ∧
        ((atKey root k').run db).1 = some (((contents ops).lookup k').getD [])) ∧
      (((atKey root k).run db).1 = some [] → root' = root ∧ db' = db) := by
  have hsafe := history_safe lookup_fresh _ hsha
  rw [history_concat, safe_bind] at hsafe
  obtain ⟨hops, hrm⟩ := hsafe
  obtain ⟨root, db, hrun, t, ht⟩ := history_tracks hclear.of_append hops
  obtain ⟨root', db', hrun', hsame, t', ht', -⟩ :=
    remove_tracks ht k (hclear ops k [] rfl root db hrun) (hrm root db hrun)
  refine ⟨root, db, root', db', hrun, hrun', ?_, fun k' hk' => ?_, fun hnone => hsame ?_⟩
  · rw [ht'.read, lookup_erase, if_pos rfl]
    rfl
  · rw [ht'.read, ht.read, lookup_erase, if_neg hk']
    exact ⟨rfl, rfl⟩
  · rw [ht.read] at hnone
    cases hm : (contents ops).lookup k with
    | none => rfl
    | some v =>
      rw [hm] at hnone
      exact absurd (Option.some.inj hnone) (ht.values k v hm)

theorem remove_exact_letters : ∃ root db root' db',
    (history knownDigest [.insert [0x12] letterA, .insert [0x13] letterB]).run MemoryDB.fresh =
        (some root, db) ∧
      (remove knownDigest root [0x12]).run db = (some root', db') ∧
      (atKey root' [0x12]).run db' = (some [], db') ∧
      (∀ k', k' ≠ [0x12] → ((atKey root' k').run db').1 = ((atKey root k').run db).1 ∧
        ((atKey root k').run db).1 = some (((contents
          [.insert [0x12] letterA, .insert [0x13] letterB]).lookup k').getD [])) ∧
      (((atKey root [0x12]).run db).1 = some [] → root' = root ∧ db' = db) :=
  remove_exact knownDigest _ [0x12] ((prefixFree_length 1).clear (by decide) _)
    (injOn_of_list (by decide +kernel))

/-- Removing an absent key at which two others fork runs off the end of the key. -/
theorem remove_out_of_bounds :
    Set.InjOn knownDigest {b | b ∈ (history knownDigest [.insert [0x00, 0x10] letterA,
      .insert [0x00, 0x20] letterB, .remove [0x00]]).writes MemoryDB.fresh} ∧
    ((history knownDigest [.insert [0x00, 0x10] letterA, .insert [0x00, 0x20] letterB]).run
      MemoryDB.fresh).1.isSome = true ∧
    ((history knownDigest [.insert [0x00, 0x10] letterA, .insert [0x00, 0x20] letterB,
      .remove [0x00]]).run MemoryDB.fresh).1 = none :=
  ⟨injOn_of_list (by decide +kernel), by decide +kernel, by decide +kernel⟩

end Claims

end TrieDB
end XChain
