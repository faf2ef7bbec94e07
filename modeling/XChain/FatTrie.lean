import XChain.TrieWalks

/-!
# The trie that knows its keys

A fat trie is a trie over the hashes of the keys. The keys themselves are put beside it as
auxiliary values, and an iterator translates the hashes it meets back. The iterators over
the hashes start at the first entry, but `begin()` gives the iterator that `end()` gives:
a loop between the two sees nothing.
-/
namespace XChain

/-- The hash with these bytes, or zero when their number is wrong. -/
def H256.ofRef (b : Bytes) : H256 :=
  if h : b.length = 32 then ⟨b, h⟩ else ⟨List.replicate 32 0, List.length_replicate⟩

theorem H256.ofRef_bytes (h : H256) : H256.ofRef h.bytes = h := by
  rw [ofRef, dif_pos h.size]

/-- The root of the trie and the store it is in. -/
structure FatGenericTrieDB where
  root : H256
  db : MemoryDB

namespace FatGenericTrieDB

open StoreProg TrieDB

variable (sha3 : Bytes → H256)

inductive Op where
  | insert (key value : Bytes)
  | remove (key : Bytes)

def Op.key : Op → Bytes
  | .insert k _ => k
  | .remove k => k

/-- What is done to the trie over the hashes. -/
def Op.prog (root : H256) : Op → Prog H256
  | .insert k v => TrieDB.insert sha3 root (sha3 k).bytes v
  | .remove k => TrieDB.remove sha3 root (sha3 k).bytes

/-- What is put beside it; a removal leaves what is there. -/
def Op.note (db : MemoryDB) : Op → MemoryDB
  | .insert k _ => db.insertAux (sha3 k) k
  | .remove _ => db

/-- The effect of an operation on the entries. -/
def Op.apply (m : BytesMap) : Op → BytesMap
  | .insert k v => m.insert k v
  | .remove k => m.erase k

/-- The entries inserted and not since removed. -/
def live (ops : List Op) : BytesMap := ops.foldl Op.apply ∅

def step (s : FatGenericTrieDB) (op : Op) : Option FatGenericTrieDB :=
  match (op.prog sha3 s.root).run s.db with
  | (some root, db) => some ⟨root, op.note sha3 db⟩
  | (none, _) => none

def run (s : FatGenericTrieDB) : List Op → Option FatGenericTrieDB
  | [] => some s
  | op :: ops => (step sha3 s op).bind fun s' => run s' ops

/-- A new trie. -/
def start : Option FatGenericTrieDB :=
  match (init sha3).run MemoryDB.fresh with
  | (some root, db) => some ⟨root, db⟩
  | (none, _) => none

/-- The operations on a new trie. -/
def history (ops : List Op) : Option FatGenericTrieDB :=
  (start sha3).bind fun s => run sha3 s ops

/-- An empty value would stand for an absent entry. -/
def Op.Valued : Op → Prop
  | .insert _ v => v ≠ []
  | .remove _ => True

/-- What is hashed in a run: the keys and the nodes that are written. -/
def runHashed (s : FatGenericTrieDB) : List Op → List Bytes
  | [] => []
  | op :: ops => op.key :: (op.prog sha3 s.root).writes s.db ++
    ((step sha3 s op).map fun s' => runHashed s' ops).getD []

def hashed (ops : List Op) : List Bytes :=
  (init sha3).writes MemoryDB.fresh ++ ((start sha3).map fun s => runHashed sha3 s ops).getD []

section Iterators

/-- The entry of `iterator::at`; `HashedIterator::key` looks up its key in the same way. -/
def entry (db : MemoryDB) (hashed : Bytes × Bytes) : Bytes × Bytes :=
  (db.lookupAux false (H256.ofRef hashed.1), hashed.2)

/-- A loop up to the end, of at most `visits` rounds. -/
def visit (fuel : ℕ) : ℕ → Iterator → MemoryDB → Option (List (Bytes × Bytes))
  | 0, _, _ => none
  | visits + 1, it, db =>
    if it.isEnd then some []
    else
      match it.at?, (Iterator.next fuel it).run db with
      | some e, (some it', db') => (visit fuel visits it' db').map (entry db e :: ·)
      | _, _ => none

variable (s : FatGenericTrieDB)

/-- `begin()` gives an iterator made without the trie. -/
def begin (_ : ℕ) (_ : FatGenericTrieDB) : Prog Iterator := pure .theEnd

def hashedBegin (fuel : ℕ) (s : FatGenericTrieDB) : Prog Iterator := TrieDB.begin fuel s.root

/-- The entries from an iterator on. -/
def walk (first : ℕ → FatGenericTrieDB → Prog Iterator) (fuel : ℕ) :
    Option (List (Bytes × Bytes)) :=
  match (first fuel s).run s.db with
  | (some it, db) => visit fuel fuel it db
  | (none, _) => none

/-- The entries of a map, each of them once. -/
structure Enumerates (m : BytesMap) (es : List (Bytes × Bytes)) : Prop where
  nodup : (es.map Prod.fst).Nodup
  mem : ∀ k v, (k, v) ∈ es ↔ m.lookup k = some v

/-- The walk from an iterator comes to an end and sees the entries of the map. -/
def Yields (first : ℕ → FatGenericTrieDB → Prog Iterator) (m : BytesMap) : Prop :=
  ∃ es, (∃ n, ∀ fuel ≥ n, walk s first fuel = some es) ∧ Enumerates m es

end Iterators

section Aux

/-- The trie does not see the auxiliary values, and leaves them alone. -/
theorem run_aux {α : Type} (m : Prog α) (db : MemoryDB) : (m.run db).2.aux = db.aux := by
  induction m generalizing db with
  | ret a => rfl
  | fail => rfl
  | lookup h next ih => exact ih _ db
  | insert h b next ih =>
    have haux : (db.insert h b).aux = db.aux := by
      unfold MemoryDB.insert
      split <;> rfl
    exact (ih (db.insert h b)).trans haux
  | kill h next ih =>
    have haux : (db.kill h).2.aux = db.aux := by
      unfold MemoryDB.kill
      split <;> rfl
    exact (ih (db.kill h).2).trans haux

lemma entry_congr {db db' : MemoryDB} (h : db'.aux = db.aux) : entry db' = entry db := by
  funext e
  rw [entry, entry, MemoryDB.lookupAux, MemoryDB.lookupAux, h]

/-- The loop sees what a loop over the hashes sees, translated. -/
theorem visit_eq (fuel visits : ℕ) (it : Iterator) (db : MemoryDB) :
    visit fuel visits it db =
      ((TrieDB.visit fuel visits it).run db).1.map (List.map (entry db)) := by
  induction visits generalizing it db with
  | zero => rfl
  | succ visits ih =>
    rw [visit, TrieDB.visit]
    by_cases hend : it.isEnd
    · rw [if_pos hend, if_pos hend]
      rfl
    · rw [if_neg hend, if_neg hend, run_bind, run_ofOption]
      cases hat : it.at? with
      | none => rfl
      | some e =>
        have haux := run_aux (Iterator.next fuel it) db
        rcases hnext : (Iterator.next fuel it).run db with ⟨_ | it', db'⟩
        · simp [hnext]
        · rw [hnext] at haux
          have hrest := ih it' db'
          rw [entry_congr haux] at hrest
          rcases hvisit : (TrieDB.visit fuel visits it').run db' with ⟨_ | es, db''⟩
          · simp only [run_bind, hnext, hrest, hvisit, Option.map_none]
          · simp only [run_bind, hnext, hrest, hvisit, run_pure, Option.map_some, List.map_cons]

end Aux

section Begin

variable (s : FatGenericTrieDB)

/-- Between `begin()` and `end()` there is nothing. -/
theorem walk_begin (fuel : ℕ) : walk s begin (fuel + 1) = some [] := rfl

theorem enumerates_nil {m : BytesMap} : Enumerates m [] ↔ ∀ k, m.lookup k = none := by
  constructor
  · intro h k
    cases hk : m.lookup k with
    | none => rfl
    | some v => exact absurd ((h.mem k v).mpr hk) List.not_mem_nil
  · intro h
    refine ⟨List.nodup_nil, fun k v => ?_⟩
    rw [h k]
    simp

/-- The walk from `begin()` is right for a trie without entries only. -/
theorem yields_begin (m : BytesMap) : Yields s begin m ↔ ∀ k, m.lookup k = none := by
  rw [← enumerates_nil]
  constructor
  · rintro ⟨es, ⟨n, hn⟩, hes⟩
    have hnil := hn (n + 1) (Nat.le_succ n)
    rw [walk_begin] at hnil
    obtain rfl := Option.some.inj hnil
    exact hes
  · intro h
    refine ⟨[], ⟨1, fun fuel hfuel => ?_⟩, h⟩
    obtain ⟨f, rfl⟩ := Nat.exists_eq_add_of_le' hfuel
    exact walk_begin s f

end Begin

section Keeping

variable {sha3} {S : Set Bytes} {s : FatGenericTrieDB} {m mh : BytesMap}

/-- The trie has the entries of `m` under the hashes of their keys, and each of these keys
is the auxiliary value for its hash. The contents that are hashed are in `S`. -/
structure Keeps (sha3 : Bytes → H256) (S : Set Bytes) (s : FatGenericTrieDB)
    (m mh : BytesMap) : Prop where
  tracks : ∃ t, Tracks sha3 s.db s.root mh t
  consistent : Consistent sha3 [] S s.db
  lookup : ∀ k ∈ S, mh.lookup (sha3 k).bytes = m.lookup k
  hashes : ∀ h ∈ mh, ∃ k ∈ S, h = (sha3 k).bytes
  keys : ∀ k ∈ m, k ∈ S
  aux : ∀ k ∈ m, s.db.lookupAux false (sha3 k) = k

lemma hash_inj (hinj : Set.InjOn sha3 S) {k k' : Bytes} (hk : k ∈ S) (hk' : k' ∈ S) :
    (sha3 k').bytes = (sha3 k).bytes ↔ k' = k := by
  refine ⟨fun h => ?_, fun h => by rw [h]⟩
  have hsha : sha3 k' = sha3 k := by
    rw [← H256.ofRef_bytes (sha3 k'), h, H256.ofRef_bytes]
  exact hinj hk' hk hsha

lemma tracks_insertAux {db : MemoryDB} {root x : H256} {v : Bytes} {t : Trie}
    (h : Tracks sha3 db root mh t) : Tracks sha3 (db.insertAux x v) root mh t :=
  ⟨h.root_eq, h.rooted.mono fun _ _ => rfl, h.canonical, h.represents, h.values⟩

lemma lookupAux_insertAux (db : MemoryDB) (x y : H256) (v : Bytes) :
    (db.insertAux x v).lookupAux false y = if y = x then v else db.lookupAux false y := by
  split_ifs with h
  · subst h
    simp [MemoryDB.lookupAux, MemoryDB.insertAux]
  · simp [MemoryDB.lookupAux, MemoryDB.insertAux, AList.lookup_insert_ne h]

lemma lookupAux_congr {db db' : MemoryDB} (h : db'.aux = db.aux) (x : H256) :
    db'.lookupAux false x = db.lookupAux false x := by
  rw [MemoryDB.lookupAux, MemoryDB.lookupAux, h]

theorem Keeps.insert (hinj : Set.InjOn sha3 S) (h : Keeps sha3 S s m mh) {k v : Bytes}
    (hv : v ≠ []) (hk : k ∈ S)
    (hw : ∀ b ∈ (TrieDB.insert sha3 s.root (sha3 k).bytes v).writes s.db, b ∈ S) :
    ∃ s', step sha3 s (.insert k v) = some s' ∧
      Keeps sha3 S s' (m.insert k v) (mh.insert (sha3 k).bytes v) := by
  obtain ⟨t, ht⟩ := h.tracks
  obtain ⟨hsafe, hcons⟩ := safe_of_injOn hinj (writesNodes_insert _ _ _) h.consistent hw
  obtain ⟨root, db, hrun, ht', -⟩ := insert_tracks ht (sha3 k).bytes ⟨v, hv⟩ hsafe
  have haux := run_aux (TrieDB.insert sha3 s.root (sha3 k).bytes v) s.db
  have hstep : step sha3 s (.insert k v) = some ⟨root, db.insertAux (sha3 k) k⟩ := by
    simp only [step, Op.prog, Op.note, hrun]
  rw [hrun] at hcons haux
  refine ⟨_, hstep, ⟨_, tracks_insertAux ht'⟩, hcons, fun k' hk' => ?_, fun x hx => ?_,
    fun k' hk' => ?_, fun k' hk' => ?_⟩
  · by_cases heq : k' = k
    · rw [heq, AList.lookup_insert, AList.lookup_insert]
    · have hne := (hash_inj hinj hk hk').not.mpr heq
      rw [AList.lookup_insert_ne heq, AList.lookup_insert_ne hne, h.lookup k' hk']
  · rcases (AList.mem_insert _).mp hx with rfl | hx
    · exact ⟨k, hk, rfl⟩
    · exact h.hashes x hx
  · rcases (AList.mem_insert _).mp hk' with rfl | hk'
    · exact hk
    · exact h.keys k' hk'
  · rw [lookupAux_insertAux]
    split_ifs with heq
    · have hmem : k' ∈ S := ((AList.mem_insert _).mp hk').elim (fun he => he ▸ hk) (h.keys k')
      exact (hinj hmem hk heq).symm
    · have hold : k' ∈ m :=
        ((AList.mem_insert _).mp hk').resolve_left fun he => heq (by rw [he])
      exact (lookupAux_congr haux _).trans (h.aux k' hold)

theorem Keeps.remove (hinj : Set.InjOn sha3 S) (h : Keeps sha3 S s m mh) {k : Bytes}
    (hk : k ∈ S) (hw : ∀ b ∈ (TrieDB.remove sha3 s.root (sha3 k).bytes).writes s.db, b ∈ S) :
    ∃ s', step sha3 s (.remove k) = some s' ∧
      Keeps sha3 S s' (m.erase k) (mh.erase (sha3 k).bytes) := by
  obtain ⟨t, ht⟩ := h.tracks
  obtain ⟨hsafe, hcons⟩ := safe_of_injOn hinj (writesNodes_remove _ _) h.consistent hw
  have hlength : ∀ x ∈ mh, x ∈ {b : Bytes | b.length = 32} := by
    intro x hx
    obtain ⟨k', -, rfl⟩ := h.hashes x hx
    exact (sha3 k').size
  have hok := (prefixFree_length 32).removable hlength (sha3 k).size s.db
  obtain ⟨root, db, hrun, -, t', ht', -⟩ := remove_tracks ht (sha3 k).bytes hok hsafe
  have haux := run_aux (TrieDB.remove sha3 s.root (sha3 k).bytes) s.db
  have hstep : step sha3 s (.remove k) = some ⟨root, db⟩ := by
    simp only [step, Op.prog, Op.note, hrun]
  rw [hrun] at hcons haux
  refine ⟨_, hstep, ⟨t', ht'⟩, hcons, fun k' hk' => ?_, fun x hx => ?_,
    fun k' hk' => ?_, fun k' hk' => ?_⟩
  · simp only [lookup_erase, hash_inj hinj hk hk', h.lookup k' hk']
  · exact h.hashes x (AList.mem_erase.mp hx).2
  · exact h.keys k' (AList.mem_erase.mp hk').2
  · exact (lookupAux_congr haux _).trans (h.aux k' (AList.mem_erase.mp hk').2)

theorem Keeps.step (hinj : Set.InjOn sha3 S) (h : Keeps sha3 S s m mh) {op : Op}
    (hv : op.Valued) (hk : op.key ∈ S)
    (hw : ∀ b ∈ (op.prog sha3 s.root).writes s.db, b ∈ S) :
    ∃ s' mh', FatGenericTrieDB.step sha3 s op = some s' ∧ Keeps sha3 S s' (op.apply m) mh' := by
  cases op with
  | insert k v =>
    obtain ⟨s', hstep, hkeeps⟩ := h.insert hinj hv hk hw
    exact ⟨s', _, hstep, hkeeps⟩
  | remove k =>
    obtain ⟨s', hstep, hkeeps⟩ := h.remove hinj hk hw
    exact ⟨s', _, hstep, hkeeps⟩

theorem Keeps.run (hinj : Set.InjOn sha3 S) {ops : List Op} (h : Keeps sha3 S s m mh)
    (hv : ∀ op ∈ ops, op.Valued) (hS : ∀ b ∈ runHashed sha3 s ops, b ∈ S) :
    ∃ s' mh', FatGenericTrieDB.run sha3 s ops = some s' ∧
      Keeps sha3 S s' (ops.foldl Op.apply m) mh' := by
  induction ops generalizing s m mh with
  | nil => exact ⟨s, mh, rfl, h⟩
  | cons op ops ih =>
    rw [runHashed] at hS
    obtain ⟨s₁, mh₁, hstep, h₁⟩ := h.step hinj (hv op List.mem_cons_self)
      (hS _ (by simp)) fun b hb => hS b (by simp [hb])
    obtain ⟨s', mh', hrun, h'⟩ := ih h₁ (fun op' hop' => hv op' (List.mem_cons_of_mem _ hop'))
      fun b hb => hS b (by simp [hstep, hb])
    refine ⟨s', mh', ?_, h'⟩
    rw [FatGenericTrieDB.run, hstep, Option.bind_some, hrun]

/-- A new trie has no entries. -/
theorem start_keeps (hinj : Set.InjOn sha3 S)
    (hS : ∀ b ∈ (init sha3).writes MemoryDB.fresh, b ∈ S) :
    ∃ s, start sha3 = some s ∧ Keeps sha3 S s ∅ ∅ := by
  have hfresh : Consistent sha3 [] S MemoryDB.fresh :=
    fun x hx => absurd (lookup_fresh x) hx
  obtain ⟨hsafe, hcons⟩ := safe_of_injOn hinj writesNodes_init hfresh hS
  obtain ⟨root, db, hrun, ht, -⟩ := init_tracks MemoryDB.fresh hsafe
  rw [hrun] at hcons
  refine ⟨⟨root, db⟩, ?_, ⟨_, ht⟩, hcons, fun _ _ => rfl, fun x hx => ?_, fun k hk => ?_,
    fun k hk => ?_⟩
  · simp only [start, hrun]
  · exact absurd hx (AList.notMem_empty x)
  · exact absurd hk (AList.notMem_empty k)
  · exact absurd hk (AList.notMem_empty k)

end Keeping

section Walks

variable {sha3} {S : Set Bytes} {s : FatGenericTrieDB} {m mh : BytesMap} {t : Trie}

lemma lookup_eq_get (h : Tracks sha3 s.db s.root mh t) (x : Bytes) :
    mh.lookup x = (t.get (asNibbles x)).map Subtype.val := by
  apply Option.ext
  intro v
  rw [Option.map_eq_some_iff]
  constructor
  · intro hv
    exact ⟨⟨v, h.values x v hv⟩, (h.represents _ _).mpr ⟨x, rfl, hv⟩, rfl⟩
  · rintro ⟨w, hw, rfl⟩
    obtain ⟨y, hy, hlook⟩ := (h.represents _ _).mp hw
    rwa [← asNibbles_injective hy]

/-- The walk over the hashes, each of which is translated to its key. -/
lemma walk_hashedBegin (h : Tracks sha3 s.db s.root mh t) :
    ∃ n, ∀ fuel ≥ n, walk s hashedBegin fuel =
      some ((t.words.map bytesOf).map (entry s.db)) := by
  obtain ⟨n, hn⟩ := h.iterates.begin
  refine ⟨n, fun fuel hfuel => ?_⟩
  have hloop := hn fuel hfuel
  have haux := run_aux (TrieDB.begin fuel s.root) s.db
  rw [run_bind] at hloop
  rw [walk, hashedBegin]
  rcases hbegin : (TrieDB.begin fuel s.root).run s.db with ⟨_ | it, db⟩
  · simp [hbegin] at hloop
  · rw [hbegin] at haux
    simp only [hbegin] at hloop
    simp only [visit_eq, hloop, Option.map_some, entry_congr haux]

lemma Keeps.mem_words (h : Keeps sha3 S s m mh) {es : List (Bytes × Bytes)}
    (hes : ∀ x v, (x, v) ∈ es ↔ mh.lookup x = some v) {e : Bytes × Bytes} (he : e ∈ es) :
    ∃ k, e.1 = (sha3 k).bytes ∧ m.lookup k = some e.2 ∧ entry s.db e = (k, e.2) := by
  have hlook := (hes e.1 e.2).mp he
  have hmem : e.1 ∈ mh := AList.lookup_isSome.mp (by rw [hlook]; rfl)
  obtain ⟨k, hk, hx⟩ := h.hashes e.1 hmem
  rw [hx, h.lookup k hk] at hlook
  have hlive : k ∈ m := AList.lookup_isSome.mp (by rw [hlook]; rfl)
  refine ⟨k, hx, hlook, ?_⟩
  rw [entry, hx, H256.ofRef_bytes, h.aux k hlive]

/-- The walk over the hashes sees the entries under their keys. -/
theorem Keeps.yields (h : Keeps sha3 S s m mh) : Yields s hashedBegin m := by
  obtain ⟨t, ht⟩ := h.tracks
  have hlists := ht.represents.lists (lookup_eq_get ht)
  have hes : ∀ x v, (x, v) ∈ t.words.map bytesOf ↔ mh.lookup x = some v := by
    intro x v
    rw [hlists.mem, lookup_eq_get ht]
  refine ⟨_, walk_hashedBegin ht, ?_, fun k v => ?_⟩
  · rw [List.map_map, List.Nodup, List.pairwise_map]
    refine hlists.ascending.imp_of_mem fun {e e'} he he' hlt heq => ?_
    obtain ⟨k, hx, -, hk⟩ := h.mem_words hes he
    obtain ⟨k', hx', -, hk'⟩ := h.mem_words hes he'
    simp only [Function.comp_apply, hk, hk'] at heq
    rw [hx, hx', heq] at hlt
    exact List.lt_irrefl _ hlt
  · rw [List.mem_map]
    constructor
    · rintro ⟨e, he, heq⟩
      obtain ⟨k', -, hlook, hk'⟩ := h.mem_words hes he
      rw [hk'] at heq
      obtain ⟨rfl, rfl⟩ := Prod.mk.inj heq
      exact hlook
    · intro hlook
      have hlive : k ∈ m := AList.lookup_isSome.mp (by rw [hlook]; rfl)
      refine ⟨((sha3 k).bytes, v), (hes _ _).mpr ?_, ?_⟩
      · rw [h.lookup k (h.keys k hlive), hlook]
      · rw [entry, H256.ofRef_bytes, h.aux k hlive]

end Walks

/-- What a loop from `begin()` sees is right in no state with an entry. A loop over the
hashes sees the entries in every state that is reached. -/
theorem history_yields (sha3 : Bytes → H256) (ops : List Op) :
    (∀ s, history sha3 ops = some s →
      (Yields s begin (live ops) ↔ ∀ k, (live ops).lookup k = none)) ∧
    ((∀ op ∈ ops, op.Valued) → Set.InjOn sha3 {b | b ∈ hashed sha3 ops} →
      ∃ s, history sha3 ops = some s ∧ Yields s hashedBegin (live ops)) := by
  refine ⟨fun s _ => yields_begin s _, fun hv hinj => ?_⟩
  obtain ⟨s₀, hstart, h₀⟩ := start_keeps hinj fun b hb => by simp [hashed, hb]
  obtain ⟨s, mh, hrun, h⟩ := h₀.run hinj hv fun b hb => by simp [hashed, hstart, hb]
  refine ⟨s, ?_, h.yields⟩
  rw [history, hstart, Option.bind_some, hrun]

/-- The digests of the example below: of the empty trie, of the key "dog" and of the leaf
with that key and the value "a". -/
def dogDigests : List (Bytes × ℕ) := [
  ([128], 0x56e81f171bcc55a6ff8345e692c0f86e5b48e01b996cadc001622fb5e363b421),
  ([100, 111, 103], 0x41791102999c339c844880b23950704cc43aa840f3739e365323cda4dfa89e7a),
  ([0xe3, 0xa1, 0x20] ++ (H256.ofNat
      0x41791102999c339c844880b23950704cc43aa840f3739e365323cda4dfa89e7a).bytes ++ [97],
    0xf7c869a95e6ec508c112f7767e1c8c8dbb15ff08c865a2478690250fe9865d7f)]

def dogDigest (b : Bytes) : H256 := H256.ofNat ((dogDigests.lookup b).getD 0)

def insertDog : List Op := [.insert [100, 111, 103] [97]]

lemma injOn_insertDog : Set.InjOn dogDigest {b | b ∈ hashed dogDigest insertDog} := by
  have hlist : ∀ a ∈ hashed dogDigest insertDog, ∀ b ∈ hashed dogDigest insertDog,
      dogDigest a = dogDigest b → a = b := by decide +kernel
  exact fun a ha b hb heq => hlist a ha b hb heq

theorem history_yields_dog : ∃ s, history dogDigest insertDog = some s ∧
    (Yields s begin (live insertDog) ↔ ∀ k, (live insertDog).lookup k = none) ∧
    Yields s hashedBegin (live insertDog) := by
  obtain ⟨hbegin, hhashed⟩ := history_yields dogDigest insertDog
  have hvalued : ∀ op ∈ insertDog, op.Valued := by
    intro op hop
    obtain rfl := List.mem_singleton.mp hop
    exact List.cons_ne_nil 97 []
  obtain ⟨s, hs, hyields⟩ := hhashed hvalued injOn_insertDog
  exact ⟨s, hs, hbegin s hs, hyields⟩

/-- After one insertion there is an entry that `begin()` does not lead to. -/
theorem insertDog_not_seen : Set.InjOn dogDigest {b | b ∈ hashed dogDigest insertDog} ∧
    (live insertDog).lookup [100, 111, 103] = some [97] ∧
    ∃ s, history dogDigest insertDog = some s ∧ ¬Yields s begin (live insertDog) := by
  have hlive : (live insertDog).lookup [100, 111, 103] = some [97] := by decide
  have hruns : (history dogDigest insertDog).isSome = true := by decide +kernel
  obtain ⟨s, hs⟩ := Option.isSome_iff_exists.mp hruns
  refine ⟨injOn_insertDog, hlive, s, hs, fun hyields => ?_⟩
  have hnone := (yields_begin s _).mp hyields [100, 111, 103]
  rw [hlive] at hnone
  cases hnone

end FatGenericTrieDB
end XChain
