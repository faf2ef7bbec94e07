import XChain.TrieHash
import XChain.TrieLookup
import XChain.TrieRemove

/-!
# Histories of a trie database

A history initialises the trie and then inserts and removes keys in any order. In
every state it reaches, the store holds the canonical trie of the map that the
operations describe: reads give the values of the map, and the root is the one
`hash256` computes from it.
-/
namespace XChain
namespace TrieDB

open StoreProg

inductive TrieOp where
  | insert (key : Bytes) (value : Value)
  | remove (key : Bytes)

def TrieOp.key : TrieOp → Bytes
  | .insert k _ => k
  | .remove k => k

variable (sha3 : Bytes → H256)

def TrieOp.prog (root : H256) : TrieOp → Prog H256
  | .insert k v => TrieDB.insert sha3 root k v.val
  | .remove k => TrieDB.remove sha3 root k

/-- The operations one after another, from a root on. -/
def runOps (root : H256) : List TrieOp → Prog H256
  | [] => pure root
  | op :: ops => do
    let root' ← op.prog sha3 root
    runOps root' ops

/-- The operations on a new trie. -/
def history (ops : List TrieOp) : Prog H256 := do
  let root ← init sha3
  runOps sha3 root ops

/-- The effect of an operation on the map. -/
def TrieOp.apply (m : BytesMap) : TrieOp → BytesMap
  | .insert k v => m.insert k v.val
  | .remove k => m.erase k

/-- The map that the operations leave behind. -/
def contents (ops : List TrieOp) : BytesMap := ops.foldl TrieOp.apply ∅

/-- The value of a word in nibbles. -/
def BytesMap.word (m : BytesMap) (n : List Nibble) : Option Value :=
  (m.entries.find? fun e => asNibbles e.1 = n).bind fun e =>
    if h : e.2 ≠ [] then some ⟨e.2, h⟩ else none

/-- The root stands for the canonical trie `t` of the map, whose nodes are stored. -/
structure Tracks {D : Type} [ContentStore H256 Bytes D] (db : D) (root : H256) (m : BytesMap)
    (t : Trie) : Prop where
  root_eq : root = digest sha3 t
  rooted : Rooted sha3 db t
  canonical : t.Canonical
  represents : Represents m t
  values : ∀ k v, m.lookup k = some v → v ≠ []

theorem writesNodes_runOps (root : H256) (ops : List TrieOp) :
    WritesNodes sha3 (runOps sha3 root ops) := by
  induction ops generalizing root with
  | nil => trivial
  | cons op ops ih =>
    refine acts_bind ?_ fun root' => ih root'
    cases op with
    | insert k v => exact writesNodes_insert _ _ _
    | remove k => exact writesNodes_remove _ _

theorem writesNodes_history (ops : List TrieOp) : WritesNodes sha3 (history sha3 ops) :=
  acts_bind writesNodes_init fun _ => writesNodes_runOps sha3 _ ops

variable {sha3} {D : Type} [LawfulContentStore H256 Bytes D []] {db : D} {root : H256}
  {m : BytesMap} {t : Trie}

section Reads

lemma Represents.get_key (h : Represents m t) (k : Bytes) :
    valueBytes (t.get (asNibbles k)) = (m.lookup k).getD [] := by
  cases hget : t.get (asNibbles k) with
  | some v =>
    obtain ⟨k', hk', hv⟩ := (h _ v).mp hget
    rw [← asNibbles_injective hk', hv]
    rfl
  | none =>
    cases hm : m.lookup k with
    | none => rfl
    | some v =>
      cases v with
      | nil => rfl
      | cons b v =>
        rw [(h (asNibbles k) ⟨b :: v, by simp⟩).mpr ⟨k, rfl, hm⟩] at hget
        cases hget

lemma Represents.mem_of_get (h : Represents m t) {n : List Nibble} (hn : t.get n ≠ none) :
    ∃ k, asNibbles k = n ∧ m.lookup k ≠ none := by
  obtain ⟨v, hv⟩ := Option.ne_none_iff_exists'.mp hn
  obtain ⟨k, hk, hm⟩ := (h n v).mp hv
  exact ⟨k, hk, by rw [hm]; simp⟩

/-- Reading a key gives its value in the map. -/
theorem Tracks.read (h : Tracks sha3 db root m t) (k : Bytes) :
    (atKey root k).run db = (some ((m.lookup k).getD []), db) := by
  rw [h.root_eq, at_spec h.canonical h.rooted, h.represents.get_key]

theorem Tracks.read_root (h : Tracks sha3 db root m t) :
    (TrieDB.root root).run db = (some root, db) := by
  rw [h.root_eq, root_spec h.rooted]

theorem Tracks.hash256_eq (h : Tracks sha3 db root m t) : hash256 sha3 m = some root := by
  rw [h.root_eq, TrieDB.hash256_eq h.values h.canonical h.represents]

lemma Tracks.word_eq (h : Tracks sha3 db root m t) : m.word = t.get := by
  funext n
  apply Option.ext
  intro v
  rw [h.represents n v]
  have hlook (e : Sigma fun _ : Bytes => Bytes) (he : e ∈ m.entries) :
      m.lookup e.1 = some e.2 := AList.mem_lookup_iff.mpr he
  constructor
  · intro hword
    obtain ⟨e, he, hv⟩ := Option.bind_eq_some_iff.mp hword
    have hmem := hlook e (List.mem_of_find?_eq_some he)
    have hn := List.find?_some he
    split_ifs at hv
    obtain rfl := Option.some.inj hv
    exact ⟨e.1, by simpa using hn, hmem⟩
  · rintro ⟨k, hk, hv⟩
    have hmem : (⟨k, v.val⟩ : Sigma fun _ : Bytes => Bytes) ∈ m.entries :=
      AList.mem_lookup_iff.mp hv
    cases hfind : m.entries.find? fun e => asNibbles e.1 = n with
    | none =>
      have hnone := List.find?_eq_none.mp hfind _ hmem
      simp [hk] at hnone
    | some e =>
      have hn : asNibbles e.1 = n := by simpa using List.find?_some hfind
      have he := hlook e (List.mem_of_find?_eq_some hfind)
      obtain rfl := asNibbles_injective (hk.trans hn.symm)
      rw [hv] at he
      obtain ⟨-, hval⟩ : True ∧ v.val = e.2 := ⟨trivial, Option.some.inj he⟩
      rw [BytesMap.word, hfind, Option.bind_some, dif_pos (by rw [← hval]; exact v.property)]
      exact congrArg some (Subtype.ext hval.symm)

end Reads

section Steps

/-- The empty trie of a new database. -/
theorem init_tracks (db : D) :
    Ensures [] (init sha3) db fun root db' => Tracks sha3 db' root ∅ .empty ∧
      ∀ h, ContentStore.refCount db' h =
        ContentStore.refCount db h + rootRefs sha3 .empty h := by
  refine ensures_bind ((forceInsertNode_spec .empty).mono fun r db₁ _ hr _ => ?_)
  obtain ⟨rfl, hfound, hcount⟩ := hr
  have hrooted : Rooted sha3 db₁ .empty := ⟨hfound, trivial⟩
  refine ensures_bind ((node_spec hrooted).mono fun n db₂ _ hn _ => ?_)
  obtain ⟨rfl, rfl⟩ := hn
  refine ensures_bind (ensures_assert rfl fun _ => ensures_pure
    ⟨⟨rfl, hrooted, trivial, ?_, ?_⟩, hcount⟩)
  · intro n v
    simp
  · intro k v hv
    simp at hv

lemma Represents.insert (h : Represents m t) (k : Bytes) (v : Value) :
    Represents (m.insert k v.val) (t.insert (asNibbles k) v) := by
  intro n w
  rw [Patricia.get_insert]
  by_cases hn : asNibbles k = n
  · rw [if_pos hn]
    constructor
    · intro hw
      obtain rfl := Option.some.inj hw
      exact ⟨k, hn, AList.lookup_insert m⟩
    · rintro ⟨k', hk', hw⟩
      rw [asNibbles_injective (hk'.trans hn.symm), AList.lookup_insert] at hw
      exact congrArg some (Subtype.ext (Option.some.inj hw))
  · rw [if_neg hn, h n w]
    constructor
    · rintro ⟨k', rfl, hw⟩
      exact ⟨k', rfl, by rwa [AList.lookup_insert_ne fun heq => hn (congrArg asNibbles heq.symm)]⟩
    · rintro ⟨k', rfl, hw⟩
      rw [AList.lookup_insert_ne fun heq => hn (congrArg asNibbles heq.symm)] at hw
      exact ⟨k', rfl, hw⟩

theorem insert_tracks (h : Tracks sha3 db root m t) (k : Bytes) (v : Value) :
    Ensures [] (TrieDB.insert sha3 root k v.val) db fun root' db' =>
      Tracks sha3 db' root' (m.insert k v.val) (t.insert (asNibbles k) v) ∧
        (Outermost t (asNibbles k) → ∀ x n,
          ContentStore.refCount db x = n + rootRefs sha3 t x →
            ContentStore.refCount db' x =
              n + rootRefs sha3 (t.insert (asNibbles k) v) x) := by
  rw [h.root_eq]
  refine (insert_spec h.canonical h.rooted k v).mono fun root' db' _ hr => ?_
  obtain ⟨rfl, hrooted, hcount⟩ := hr
  refine ⟨⟨rfl, hrooted, h.canonical.insert _ _, h.represents.insert k v, ?_⟩, hcount⟩
  intro k' w hw
  by_cases hk : k' = k
  · subst hk
    rw [AList.lookup_insert] at hw
    rw [← Option.some.inj hw]
    exact v.property
  · rw [AList.lookup_insert_ne hk] at hw
    exact h.values k' w hw

lemma lookup_erase (m : BytesMap) (k k' : Bytes) :
    (m.erase k).lookup k' = if k' = k then none else m.lookup k' := by
  split_ifs with hk
  · subst hk
    exact AList.lookup_erase k' m
  · exact AList.lookup_erase_ne hk

lemma Represents.erase (h : Represents m t) (k : Bytes) {t' : Trie}
    (ht' : ∀ n, t'.get n = if asNibbles k = n then none else t.get n) :
    Represents (m.erase k) t' := by
  intro n w
  rw [ht']
  by_cases hn : asNibbles k = n
  · rw [if_pos hn]
    refine ⟨fun hw => (Option.some_ne_none w hw.symm).elim, ?_⟩
    rintro ⟨k', hk', hw⟩
    rw [lookup_erase, if_pos (asNibbles_injective (hk'.trans hn.symm))] at hw
    cases hw
  · rw [if_neg hn, h n w]
    have hkey {k'} (hk' : asNibbles k' = n) : k' ≠ k := by
      rintro rfl
      exact hn hk'
    constructor
    · rintro ⟨k', hk', hw⟩
      exact ⟨k', hk', by rwa [lookup_erase, if_neg (hkey hk')]⟩
    · rintro ⟨k', hk', hw⟩
      rw [lookup_erase, if_neg (hkey hk')] at hw
      exact ⟨k', hk', hw⟩

theorem remove_tracks (h : Tracks sha3 db root m t) (k : Bytes)
    (hok : Removable db m.word (asNibbles k)) :
    Ensures [] (TrieDB.remove sha3 root k) db fun root' db' =>
      (m.lookup k = none → root' = root ∧ db' = db) ∧
        ∃ t', Tracks sha3 db' root' (m.erase k) t' ∧ ∀ x n,
          ContentStore.refCount db x = n + rootRefs sha3 t x →
            ContentStore.refCount db' x = n + rootRefs sha3 t' x := by
  rw [h.word_eq] at hok
  rw [h.root_eq]
  have hvalues : ∀ k' v, (m.erase k).lookup k' = some v → v ≠ [] := by
    intro k' v hv
    rw [lookup_erase] at hv
    split_ifs at hv
    exact h.values k' v hv
  refine (remove_spec h.canonical h.rooted k hok).mono fun root' db' _ hr => ?_
  cases hdel : t.delete (asNibbles k) with
  | none =>
    rw [hdel] at hr
    obtain ⟨rfl, rfl⟩ := hr
    have hget := Patricia.delete_eq_none.mp hdel
    have hsame : ∀ n, t.get n = if asNibbles k = n then none else t.get n := by
      intro n
      split_ifs with hn
      · rw [← hn, hget]
      · rfl
    exact ⟨fun _ => ⟨rfl, rfl⟩, t,
      ⟨rfl, h.rooted, h.canonical, h.represents.erase k hsame, hvalues⟩, fun x n hn => hn⟩
  | some t' =>
    rw [hdel] at hr
    obtain ⟨rfl, hrooted, hcount⟩ := hr
    refine ⟨fun hnone => ?_, t', ⟨rfl, hrooted, (h.canonical.delete hdel).1,
      h.represents.erase k (Patricia.get_delete hdel), hvalues⟩, hcount trivial⟩
    have hget : t.get (asNibbles k) ≠ none := by
      rw [ne_eq, ← Patricia.delete_eq_none, hdel]
      simp
    obtain ⟨k', hk', hm⟩ := h.represents.mem_of_get hget
    rw [asNibbles_injective hk'] at hm
    exact absurd hnone hm

end Steps

section Runs

theorem runOps_append (root : H256) (ops ops' : List TrieOp) :
    runOps sha3 root (ops ++ ops') = runOps sha3 root ops >>= fun r => runOps sha3 r ops' := by
  induction ops generalizing root with
  | nil => rfl
  | cons op ops ih =>
    simp only [List.cons_append, runOps, ih, bind_assoc]

/-- A history ends with its last operation. -/
theorem history_concat (ops : List TrieOp) (op : TrieOp) :
    history sha3 (ops ++ [op]) = history sha3 ops >>= fun r => op.prog sha3 r := by
  simp only [history, runOps_append, runOps, bind_assoc, bind_pure]

theorem contents_concat (ops : List TrieOp) (op : TrieOp) :
    contents (ops ++ [op]) = op.apply (contents ops) := by
  simp [contents]

/-- Every removal of the history keeps clear of the three situations in the state
it starts in. -/
def Clear (sha3 : Bytes → H256) {D : Type} [ContentStore H256 Bytes D] (db₀ : D)
    (ops : List TrieOp) : Prop :=
  ∀ before k after, ops = before ++ .remove k :: after →
    ∀ root db, (history sha3 before).run db₀ = (some root, db) →
      Removable db (contents before).word (asNibbles k)

lemma Clear.of_append {db₀ : D} {ops ops' : List TrieOp} (h : Clear sha3 db₀ (ops ++ ops')) :
    Clear sha3 db₀ ops := by
  rintro before k after rfl
  exact h before k (after ++ ops') (by simp)

/-- Every history clear of the three situations ends in the trie of its map. -/
theorem history_tracks {db₀ : D} {ops : List TrieOp} (hclear : Clear sha3 db₀ ops) :
    Ensures [] (history sha3 ops) db₀ fun root db => ∃ t, Tracks sha3 db root (contents ops) t := by
  induction ops using List.reverseRecOn with
  | nil =>
    refine ensures_bind ((init_tracks db₀).mono fun root db _ h _ => ensures_pure ?_)
    exact ⟨.empty, h.1⟩
  | append_singleton ops op ih =>
    rw [history_concat, contents_concat]
    refine ensures_bind ((ih hclear.of_append).with_run.mono fun root db _ h _ => ?_)
    obtain ⟨hrun, t, ht⟩ := h
    cases op with
    | insert k v => exact (insert_tracks ht k v).mono fun _ _ _ h => ⟨_, h.1⟩
    | remove k =>
      have hok := hclear ops k [] rfl root db hrun
      refine (remove_tracks ht k hok).mono fun _ _ _ h => ?_
      obtain ⟨t', ht', -⟩ := h.2
      exact ⟨t', ht'⟩

/-- Without two written contents of one hash, a history on an empty store is safe. -/
lemma history_safe {db₀ : D} (hempty : ∀ h, ContentStore.lookup db₀ h = []) (ops : List TrieOp)
    (hsha : Set.InjOn sha3 {b | b ∈ (history sha3 ops).writes db₀}) :
    (history sha3 ops).safe [] db₀ = true :=
  (safe_of_injOn hsha (writesNodes_history sha3 ops) (fun h hne => absurd (hempty h) hne)
    fun _ hb => hb).1

end Runs

end TrieDB
end XChain
