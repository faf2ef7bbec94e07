import XChain.OverlayDB
import XChain.RefCounts

/-!
# Durability of the store over a disk

A node of the current trie is on the disk or is counted in memory as often as it
occurs. Commits keep this, so nothing that the trie needs is lost by them, and
what a commit has written is there for a store opened on the same disk.
-/
namespace XChain
namespace TrieDB

open StoreProg

inductive StoreOp where
  | trie (op : TrieOp)
  | commit
  | insertAux (h : H256) (v : Bytes)
  | removeAux (h : H256)

variable (sha3 : Bytes → H256)

/-- One operation on the root of a trie and its store. -/
def StoreOp.step (s : H256 × OverlayDB) : StoreOp → Option (H256 × OverlayDB)
  | .trie op =>
    match (op.prog sha3 s.1).run s.2 with
    | (some root', db') => some (root', db')
    | (none, _) => none
  | .commit => some (s.1, s.2.commit)
  | .insertAux h v => some (s.1, s.2.insertAux h v)
  | .removeAux h => some (s.1, s.2.removeAux h)

def StoreOp.writes (s : H256 × OverlayDB) : StoreOp → List Bytes
  | .trie op => (op.prog sha3 s.1).writes s.2
  | _ => []

def runStore (s : H256 × OverlayDB) : List StoreOp → Option (H256 × OverlayDB)
  | [] => some s
  | op :: ops => (op.step sha3 s).bind fun s' => runStore s' ops

/-- The node contents that the operations write. -/
def storeWrites (s : H256 × OverlayDB) : List StoreOp → List Bytes
  | [] => []
  | op :: ops => op.writes sha3 s ++ ((op.step sha3 s).map fun s' => storeWrites s' ops).getD []

/-- A new trie in a store opened on a disk. -/
def openTrie (disk : Disk) : Option (H256 × OverlayDB) :=
  match (init sha3).run (OverlayDB.fresh disk) with
  | (some root, db) => some (root, db)
  | (none, _) => none

/-- The operations on a new trie. -/
def session (disk : Disk) (ops : List StoreOp) : Option (H256 × OverlayDB) :=
  (openTrie sha3 disk).bind fun s => runStore sha3 s ops

def sessionWrites (disk : Disk) (ops : List StoreOp) : List Bytes :=
  (init sha3).writes (OverlayDB.fresh disk) ++
    ((openTrie sha3 disk).map fun s => storeWrites sha3 s ops).getD []

/-- The effect of an operation on the map of the trie. -/
def StoreOp.apply (m : BytesMap) : StoreOp → BytesMap
  | .trie op => op.apply m
  | _ => m

/-- The effect of an operation on the auxiliary values. -/
def StoreOp.applyAux (aux : H256 → Option Bytes) : StoreOp → H256 → Option Bytes
  | .insertAux h v => Function.update aux h (some v)
  | .removeAux h => Function.update aux h none
  | _ => aux

/-- The auxiliary values inserted and not removed. -/
def auxValues (ops : List StoreOp) : H256 → Option Bytes := ops.foldl StoreOp.applyAux fun _ => none

section Frame

variable {α : Type}

/-- A program leaves the disk and the auxiliary values alone. -/
theorem run_frame (m : Prog α) (odb : OverlayDB) :
    (m.run odb).2.db = odb.db ∧ (m.run odb).2.aux = odb.aux := by
  induction m generalizing odb with
  | ret a => exact ⟨rfl, rfl⟩
  | fail => exact ⟨rfl, rfl⟩
  | lookup h next ih => exact ih _ odb
  | insert h b next ih =>
    have haux : (odb.insert h b).aux = odb.aux := by
      simp only [OverlayDB.insert, MemoryDB.insert]
      split <;> rfl
    exact ⟨(ih _).1, (ih _).2.trans haux⟩
  | kill h next ih =>
    have haux : (odb.kill h).aux = odb.aux := by
      simp only [OverlayDB.kill, MemoryDB.kill]
      split <;> rfl
    exact ⟨(ih _).1, (ih _).2.trans haux⟩

/-- No node in memory is empty. -/
def Written (odb : OverlayDB) : Prop := ∀ h e, odb.main.lookup h = some e → e.1 ≠ []

lemma written_insert {odb : OverlayDB} (hodb : Written odb) {h : H256} {b : Bytes} (hb : b ≠ []) :
    Written (odb.insert h b) := by
  have hinsert (e : Bytes × ℕ) (he : e.1 = b) (h' : H256) (e' : Bytes × ℕ)
      (hlook : (odb.main.insert h e).lookup h' = some e') : e'.1 ≠ [] := by
    by_cases heq : h' = h
    · subst heq
      rw [AList.lookup_insert] at hlook
      rwa [← Option.some.inj hlook, he]
    · rw [AList.lookup_insert_ne heq] at hlook
      exact hodb h' e' hlook
  intro h' e' hlook
  simp only [OverlayDB.insert, MemoryDB.insert] at hlook
  split at hlook
  · exact hinsert _ rfl h' e' hlook
  · exact hinsert _ rfl h' e' hlook

lemma written_kill {odb : OverlayDB} (hodb : Written odb) (h : H256) : Written (odb.kill h) := by
  intro h' e' hlook
  simp only [OverlayDB.kill, MemoryDB.kill] at hlook
  split at hlook
  · next v count hm =>
    by_cases heq : h' = h
    · subst heq
      rw [AList.lookup_insert] at hlook
      rw [← Option.some.inj hlook]
      exact hodb h' (v, count + 1) hm
    · rw [AList.lookup_insert_ne heq] at hlook
      exact hodb h' e' hlook
  · exact hodb h' e' hlook

lemma run_written {addr : Bytes → H256} {m : Prog α} (hm : m.Filed addr []) {odb : OverlayDB}
    (hodb : Written odb) : Written (m.run odb).2 := by
  induction m generalizing odb with
  | ret a => exact hodb
  | fail => exact hodb
  | lookup h next ih => exact ih _ (hm _) hodb
  | insert h b next ih => exact ih hm.2 (written_insert hodb hm.1.2)
  | kill h next ih => exact ih hm.2 (written_kill hodb h)

lemma run_get (m : Prog α) (odb : OverlayDB) (key : Bytes) :
    (m.run odb).2.get key = odb.get key := by
  rw [OverlayDB.get, (run_frame m odb).1, OverlayDB.get]

end Frame

variable {sha3}

/-- Nodes that are read alike make the same trie. -/
lemma Stored.of_agree {D D' : Type} [ContentStore H256 Bytes D] [ContentStore H256 Bytes D']
    {db : D} {db' : D'} {t : Trie} (h : Stored sha3 db t)
    (hagree : ∀ x, childRefs sha3 t x ≠ 0 → ContentStore.lookup db' x = ContentStore.lookup db x) :
    Stored sha3 db' t := by
  have hself {u : Trie} (hfound : Found sha3 db u)
      (hu : ∀ x, refs sha3 u x ≠ 0 → ContentStore.lookup db' x = ContentStore.lookup db x) :
      Found sha3 db' u := by
    intro hl
    rw [hu _ (by simp [refs, selfRef, hl]), hfound hl]
  have hbelow {u : Trie} {x : H256} (hx : childRefs sha3 u x ≠ 0) : refs sha3 u x ≠ 0 := by
    unfold refs
    omega
  induction t with
  | empty => trivial
  | leaf k v => trivial
  | ext k t ih => exact ⟨hself h.1 hagree, ih h.2 fun x hx => hagree x (hbelow hx)⟩
  | branch c v ih =>
    intro i
    have hslot (x : H256) (hx : refs sha3 (c i) x ≠ 0) :
        ContentStore.lookup db' x = ContentStore.lookup db x := by
      apply hagree
      have hle := refs_le_childRefs sha3 c v i x
      omega
    exact ⟨hself (h i).1 hslot, ih i (h i).2 fun x hx => hslot x (hbelow hx)⟩

lemma Rooted.of_agree {D D' : Type} [ContentStore H256 Bytes D] [ContentStore H256 Bytes D']
    {db : D} {db' : D'} {t : Trie} (h : Rooted sha3 db t)
    (hagree : ∀ x, rootRefs sha3 t x ≠ 0 → ContentStore.lookup db' x = ContentStore.lookup db x) :
    Rooted sha3 db' t := by
  refine ⟨by rw [hagree _ (by simp [rootRefs]), h.1], h.2.of_agree fun x hx => hagree x ?_⟩
  unfold rootRefs
  omega

lemma Tracks.of_agree {D D' : Type} [ContentStore H256 Bytes D] [ContentStore H256 Bytes D']
    {db : D} {db' : D'} {root : H256} {m : BytesMap} {t : Trie} (h : Tracks sha3 db root m t)
    (hagree : ∀ x, rootRefs sha3 t x ≠ 0 → ContentStore.lookup db' x = ContentStore.lookup db x) :
    Tracks sha3 db' root m t :=
  ⟨h.root_eq, h.rooted.of_agree hagree, h.canonical, h.represents, h.values⟩

section Invariant

/-- Every content under a hash on the disk belongs to `S` and has that hash. -/
def DiskSound (sha3 : Bytes → H256) (S : Set Bytes) (odb : OverlayDB) : Prop :=
  ∀ h, odb.get h.bytes ≠ [] → odb.get h.bytes ∈ S ∧ sha3 (odb.get h.bytes) = h

/-- The state between two operations: a node of the trie that is not on the disk is
counted in memory as often as it occurs. -/
structure Durable (sha3 : Bytes → H256) (S : Set Bytes) (keys : Set Bytes) (root : H256)
    (odb : OverlayDB) (m : BytesMap) (t : Trie) : Prop where
  tracks : Tracks sha3 odb root m t
  keys : ∀ k ∈ m, k ∈ keys
  consistent : Consistent sha3 [] S odb
  counted : ∀ h, odb.get h.bytes = [] → odb.toMemoryDB.refCount h = rootRefs sha3 t h
  written : Written odb
  backed : odb.db ≠ none
  disk : DiskSound sha3 S odb

variable {S keys : Set Bytes} {root : H256} {odb : OverlayDB} {m : BytesMap} {t : Trie}

lemma lookup_eq (odb : OverlayDB) (h : H256) :
    ContentStore.lookup odb h = odb.lookup false h := rfl

/-- Enforced or not, a node of the trie is read. -/
lemma Durable.lookup_node (h : Durable sha3 S keys root odb m t) (hinj : Set.InjOn sha3 S)
    {x : H256} (hx : rootRefs sha3 t x ≠ 0) (enforceRefs : Bool) :
    odb.lookup enforceRefs x = odb.lookup false x := by
  cases enforceRefs with
  | false => rfl
  | true =>
    by_cases hget : odb.get x.bytes = []
    · have hcount : odb.toMemoryDB.refCount x ≠ 0 := by rwa [h.counted x hget]
      simp only [OverlayDB.lookup]
      rw [odb.toMemoryDB.lookup_enforced, if_neg hcount]
    · by_cases hcount : odb.toMemoryDB.refCount x = 0
      · obtain ⟨hne, hsha⟩ := h.tracks.rooted.content hx
        have hcontent := h.consistent x hne
        have hsame : odb.lookup false x = odb.get x.bytes :=
          hinj hcontent.1 (h.disk x hget).1 (hcontent.2.trans (h.disk x hget).2.symm)
        rw [hsame]
        simp only [OverlayDB.lookup]
        rw [odb.toMemoryDB.lookup_enforced, if_pos hcount, if_pos rfl]
      · simp only [OverlayDB.lookup]
        rw [odb.toMemoryDB.lookup_enforced, if_neg hcount]

/-- A committed store reads from its disk. -/
lemma lookup_commit (hdb : odb.db ≠ none) (enforceRefs : Bool) (h : H256) :
    odb.commit.lookup enforceRefs h = odb.commit.get h.bytes := by
  obtain ⟨disk, hdisk⟩ := Option.ne_none_iff_exists'.mp hdb
  simp [OverlayDB.commit, hdisk, OverlayDB.lookup, MemoryDB.lookup, MemoryDB.fresh]

/-- A commit brings every node of the trie to the disk. -/
lemma Durable.get_commit (h : Durable sha3 S keys root odb m t) (hinj : Set.InjOn sha3 S)
    {x : H256} (hx : rootRefs sha3 t x ≠ 0) : odb.commit.get x.bytes = odb.lookup false x := by
  rw [odb.get_commit h.backed]
  obtain ⟨hne, hsha⟩ := h.tracks.rooted.content hx
  have hcontent := h.consistent x hne
  by_cases hcount : odb.toMemoryDB.refCount x = 0
  · rw [if_pos hcount]
    have hget : odb.get x.bytes ≠ [] := by
      intro hget
      exact hx ((h.counted x hget).symm.trans hcount)
    exact hinj (h.disk x hget).1 hcontent.1 ((h.disk x hget).2.trans hcontent.2.symm)
  · rw [if_neg hcount]
    have hmem : odb.toMemoryDB.lookup false x ≠ [] := by
      cases hm : odb.main.lookup x with
      | none => exact absurd (by simp [MemoryDB.refCount, hm]) hcount
      | some e => simpa [MemoryDB.lookup, hm] using h.written x e hm
    rw [OverlayDB.lookup, if_neg hmem]

/-- What reads and counts like a durable state is one. -/
lemma Durable.congr (h : Durable sha3 S keys root odb m t) {odb' : OverlayDB}
    (hmain : odb'.main = odb.main) (hdb : odb'.db = odb.db) :
    Durable sha3 S keys root odb' m t := by
  obtain ⟨⟨main, aux⟩, db⟩ := odb
  obtain ⟨⟨main', aux'⟩, db'⟩ := odb'
  obtain rfl : main' = main := hmain
  obtain rfl : db' = db := hdb
  exact ⟨h.tracks.of_agree fun _ _ => rfl, h.keys, h.consistent, h.counted, h.written, h.backed,
    h.disk⟩

theorem Durable.commit (h : Durable sha3 S keys root odb m t) (hinj : Set.InjOn sha3 S) :
    Durable sha3 S keys root odb.commit m t := by
  have hdisk : DiskSound sha3 S odb.commit := by
    intro x hx
    rw [odb.get_commit h.backed] at hx ⊢
    by_cases hcount : odb.toMemoryDB.refCount x = 0
    · rw [if_pos hcount] at hx ⊢
      exact h.disk x hx
    · rw [if_neg hcount] at hx ⊢
      have hread : odb.lookup false x = odb.toMemoryDB.lookup false x := by
        rw [OverlayDB.lookup, if_neg hx]
      rw [← hread] at hx ⊢
      exact h.consistent x hx
  obtain ⟨disk, hdb⟩ := Option.ne_none_iff_exists'.mp h.backed
  have hfresh : odb.commit.main = ∅ := by
    simp [OverlayDB.commit, hdb, MemoryDB.fresh]
  refine ⟨h.tracks.of_agree fun x hx => ?_, h.keys, fun x hx => ?_, fun x hx => ?_, fun x e he => ?_,
    by simp [OverlayDB.commit, hdb], hdisk⟩
  · exact (lookup_commit h.backed false x).trans (h.get_commit hinj hx)
  · rw [lookup_eq, lookup_commit h.backed] at hx ⊢
    exact hdisk x hx
  · -- A hash the disk lacks even now does not occur in the trie.
    have hzero : rootRefs sha3 t x = 0 := by
      by_contra hne
      rw [h.get_commit hinj hne] at hx
      exact (h.tracks.rooted.content hne).1 hx
    rw [hzero, MemoryDB.refCount, hfresh]
    rfl
  · rw [hfresh] at he
    cases he

theorem Durable.trie (h : Durable sha3 S keys root odb m t) (hinj : Set.InjOn sha3 S)
    (hkeys : PrefixFree keys) (op : TrieOp) (hop : op.key ∈ keys)
    (hwrites : ∀ b ∈ (op.prog sha3 root).writes odb, b ∈ S) :
    ∃ root' odb' t', (op.prog sha3 root).run odb = (some root', odb') ∧
      Durable sha3 S keys root' odb' (op.apply m) t' := by
  have hfiled : WritesNodes sha3 (op.prog sha3 root) := by
    cases op with
    | insert k v => exact writesNodes_insert _ _ _
    | remove k => exact writesNodes_remove _ _
  obtain ⟨hsafe, hcons⟩ := safe_of_injOn hinj hfiled h.consistent hwrites
  obtain ⟨root', odb', hrun, t', ht', hcount⟩ := hkeys.step_tracks h.tracks h.keys op hop hsafe
  have hframe := run_frame (op.prog sha3 root) odb
  have hget (key : Bytes) := run_get (op.prog sha3 root) odb key
  have hwritten := run_written hfiled h.written
  rw [hrun] at hcons hframe hwritten
  simp only [hrun] at hget
  refine ⟨root', odb', t', hrun, ht', fun k hk => ?_, hcons, fun x hx => ?_, hwritten,
    by rw [hframe.1]; exact h.backed, fun x => ?_⟩
  · cases op with
    | insert k' v =>
      rcases (AList.mem_insert m).mp hk with rfl | hk
      · exact hop
      · exact h.keys k hk
    | remove k' => exact h.keys k (AList.mem_erase.mp hk).2
  · rw [hget] at hx
    have hbefore : ContentStore.refCount odb x = 0 + rootRefs sha3 t x := by
      rw [Nat.zero_add]
      exact h.counted x hx
    have hafter := hcount x 0 hbefore
    rwa [Nat.zero_add] at hafter
  · rw [hget]
    exact h.disk x

end Invariant

section Auxiliary

/-- The auxiliary values are alive in memory, or on the disk and not shadowed. -/
def AuxHeld (aux : H256 → Option Bytes) (odb : OverlayDB) : Prop :=
  ∀ h v, aux h = some v → v ≠ [] ∧ (odb.aux.lookup h = some (v, true) ∨
    odb.aux.lookup h = none ∧ odb.get (OverlayDB.auxKey h) = v)

variable {aux : H256 → Option Bytes} {odb : OverlayDB}

lemma AuxHeld.lookupAux (haux : AuxHeld aux odb) {h : H256} {v : Bytes} (hv : aux h = some v)
    (enforceRefs : Bool) : odb.lookupAux enforceRefs h = v := by
  obtain ⟨hne, hmem | ⟨hmem, hget⟩⟩ := haux h v hv
  · simp [OverlayDB.lookupAux, MemoryDB.lookupAux, hmem, hne]
  · cases hdb : odb.db with
    | none => exact absurd (by simp [← hget, OverlayDB.get, hdb]) hne
    | some disk => simp [OverlayDB.lookupAux, MemoryDB.lookupAux, hmem, hdb, hget]

lemma AuxHeld.congr (haux : AuxHeld aux odb) {odb' : OverlayDB} (hmem : odb'.aux = odb.aux)
    (hdb : odb'.db = odb.db) : AuxHeld aux odb' := by
  intro h v hv
  rw [hmem, OverlayDB.get, hdb]
  exact haux h v hv

lemma AuxHeld.commit (haux : AuxHeld aux odb) (hdb : odb.db ≠ none) : AuxHeld aux odb.commit := by
  obtain ⟨disk, hdisk⟩ := Option.ne_none_iff_exists'.mp hdb
  intro h v hv
  obtain ⟨hne, hheld⟩ := haux h v hv
  refine ⟨hne, Or.inr ⟨by simp [OverlayDB.commit, hdisk, MemoryDB.fresh], ?_⟩⟩
  rw [odb.get_commit_aux hdb]
  rcases hheld with hmem | ⟨hmem, hget⟩
  · rw [hmem]
  · rw [hmem]
    exact hget

lemma AuxHeld.insertAux (haux : AuxHeld aux odb) (h : H256) {v : Bytes} (hv : v ≠ []) :
    AuxHeld (Function.update aux h (some v)) (odb.insertAux h v) := by
  intro h' v' hv'
  by_cases heq : h' = h
  · subst heq
    rw [Function.update_self] at hv'
    obtain rfl := Option.some.inj hv'
    exact ⟨hv, Or.inl (AList.lookup_insert odb.aux)⟩
  · rw [Function.update_of_ne heq] at hv'
    obtain ⟨hne, hheld⟩ := haux h' v' hv'
    have hsame : (odb.insertAux h v).aux.lookup h' = odb.aux.lookup h' :=
      AList.lookup_insert_ne heq
    rw [hsame]
    exact ⟨hne, hheld⟩

lemma AuxHeld.removeAux (haux : AuxHeld aux odb) (h : H256) :
    AuxHeld (Function.update aux h none) (odb.removeAux h) := by
  intro h' v' hv'
  have heq : h' ≠ h := by
    rintro rfl
    rw [Function.update_self] at hv'
    cases hv'
  rw [Function.update_of_ne heq] at hv'
  have hsame : (odb.removeAux h).aux.lookup h' = odb.aux.lookup h' := by
    simp only [OverlayDB.removeAux, MemoryDB.removeAux]
    split <;> exact AList.lookup_insert_ne heq
  rw [hsame]
  exact haux h' v' hv'

end Auxiliary

section Sessions

variable {S keys : Set Bytes} {root : H256} {odb : OverlayDB} {m : BytesMap} {t : Trie}
  {aux : H256 → Option Bytes}

/-- The trie reads as the map, its nodes are all looked up, and so are the auxiliary
values. -/
def Available (sha3 : Bytes → H256) (odb : OverlayDB) (root : H256) (m : BytesMap)
    (aux : H256 → Option Bytes) : Prop :=
  Serves sha3 odb root m ∧
    (∃ enough, ∀ fuel ≥ enough, ∃ met, (unfold fuel root).run odb = (some met, odb) ∧
      ∀ x ∈ met, ∀ enforceRefs,
        odb.lookup enforceRefs x ≠ [] ∧ sha3 (odb.lookup enforceRefs x) = x) ∧
    ∀ h v, aux h = some v → ∀ enforceRefs, odb.lookupAux enforceRefs h = v

lemma Durable.available (h : Durable sha3 S keys root odb m t) (hinj : Set.InjOn sha3 S)
    (haux : AuxHeld aux odb) : Available sha3 odb root m aux := by
  refine ⟨h.tracks.serves, ⟨2 * height t, fun fuel hfuel => ?_⟩, fun _ _ hv => haux.lookupAux hv⟩
  obtain ⟨met, hmet, hmult⟩ := unfold_root h.tracks.canonical h.tracks.rooted hfuel
  rw [← h.tracks.root_eq] at hmet
  refine ⟨met, hmet, fun x hx enforceRefs => ?_⟩
  have hpos : rootRefs sha3 t x ≠ 0 := by
    rw [← hmult]
    exact (List.count_pos_iff.mpr hx).ne'
  rw [h.lookup_node hinj hpos]
  exact h.tracks.rooted.content hpos

/-- Every operation succeeds and keeps the invariant. -/
theorem StoreOp.step_durable (h : Durable sha3 S keys root odb m t) (hinj : Set.InjOn sha3 S)
    (hkeys : PrefixFree keys) (haux : AuxHeld aux odb) (op : StoreOp)
    (hkey : ∀ o, op = .trie o → o.key ∈ keys) (hvalue : ∀ x v, op = .insertAux x v → v ≠ [])
    (hwrites : ∀ b ∈ op.writes sha3 (root, odb), b ∈ S) :
    ∃ root' odb' t', op.step sha3 (root, odb) = some (root', odb') ∧
      Durable sha3 S keys root' odb' (op.apply m) t' ∧ AuxHeld (op.applyAux aux) odb' := by
  cases op with
  | trie op =>
    obtain ⟨root', odb', t', hrun, ht'⟩ := h.trie hinj hkeys op (hkey op rfl) hwrites
    have hframe := run_frame (op.prog sha3 root) odb
    rw [hrun] at hframe
    exact ⟨root', odb', t', by simp [StoreOp.step, hrun], ht', haux.congr hframe.2 hframe.1⟩
  | commit => exact ⟨root, odb.commit, t, rfl, h.commit hinj, haux.commit h.backed⟩
  | insertAux x v =>
    exact ⟨root, odb.insertAux x v, t, rfl, h.congr rfl rfl, haux.insertAux x (hvalue x v rfl)⟩
  | removeAux x =>
    refine ⟨root, odb.removeAux x, t, rfl, h.congr ?_ rfl, haux.removeAux x⟩
    simp only [OverlayDB.removeAux, MemoryDB.removeAux]
    split <;> rfl

theorem runStore_durable (hinj : Set.InjOn sha3 S) (hkeys : PrefixFree keys) (ops : List StoreOp)
    (hops : ∀ op, .trie op ∈ ops → op.key ∈ keys) (hvalues : ∀ x v, .insertAux x v ∈ ops → v ≠ [])
    (h : Durable sha3 S keys root odb m t) (haux : AuxHeld aux odb)
    (hwrites : ∀ b ∈ storeWrites sha3 (root, odb) ops, b ∈ S) :
    ∃ root' odb' t', runStore sha3 (root, odb) ops = some (root', odb') ∧
      Durable sha3 S keys root' odb' (ops.foldl StoreOp.apply m) t' ∧
      AuxHeld (ops.foldl StoreOp.applyAux aux) odb' := by
  induction ops generalizing root odb m t aux with
  | nil => exact ⟨root, odb, t, rfl, h, haux⟩
  | cons op ops ih =>
    obtain ⟨root₁, odb₁, t₁, hstep, h₁, haux₁⟩ := op.step_durable h hinj hkeys haux
      (fun o ho => hops o (by simp [ho])) (fun x v hv => hvalues x v (by simp [hv]))
      fun b hb => hwrites b (List.mem_append_left _ hb)
    have hrest : ∀ b ∈ storeWrites sha3 (root₁, odb₁) ops, b ∈ S := by
      intro b hb
      exact hwrites b (List.mem_append_right _ (by simpa [hstep] using hb))
    obtain ⟨root', odb', t', hrun, h', haux'⟩ :=
      ih (fun o ho => hops o (List.mem_cons_of_mem _ ho))
        (fun x v hv => hvalues x v (List.mem_cons_of_mem _ hv)) h₁ haux₁ hrest
    exact ⟨root', odb', t', by simp [runStore, hstep, hrun], h', haux'⟩

lemma openTrie_durable (keys : Set Bytes) (hinj : Set.InjOn sha3 S) {disk : Disk}
    (hdisk : Consistent sha3 [] S (OverlayDB.fresh disk))
    (hwrites : ∀ b ∈ (init sha3).writes (OverlayDB.fresh disk), b ∈ S) :
    ∃ root odb, openTrie sha3 disk = some (root, odb) ∧
      Durable sha3 S keys root odb ∅ .empty ∧ AuxHeld (fun _ => none) odb := by
  obtain ⟨hsafe, hcons⟩ := safe_of_injOn hinj writesNodes_init hdisk hwrites
  obtain ⟨root, odb, hrun, ht, hcount⟩ := init_tracks (OverlayDB.fresh disk) hsafe
  have hget (key : Bytes) := run_get (init sha3) (OverlayDB.fresh disk) key
  have hframe := run_frame (init sha3) (OverlayDB.fresh disk)
  have hwritten : Written ((init sha3).run (OverlayDB.fresh disk)).2 :=
    run_written writesNodes_init fun h e he => by cases he
  rw [hrun] at hcons hframe hwritten
  simp only [hrun] at hget
  refine ⟨root, odb, by simp [openTrie, hrun], ⟨ht, fun k hk => absurd hk (AList.notMem_empty k),
    hcons, fun h _ => ?_, hwritten, ?_, fun h => ?_⟩, fun h v hv => by cases hv⟩
  · exact (hcount h).trans (Nat.zero_add _)
  · rw [hframe.1]
    exact Option.some_ne_none disk
  · rw [hget]
    exact hdisk h

/-- A committed store is one just opened on its disk. -/
lemma commit_eq_fresh (hdb : odb.db ≠ none) {disk : Disk} (hdisk : odb.commit.db = some disk) :
    OverlayDB.fresh disk = odb.commit := by
  obtain ⟨disk', hdisk'⟩ := Option.ne_none_iff_exists'.mp hdb
  simp only [OverlayDB.commit, hdisk', Option.some.injEq] at hdisk ⊢
  rw [← hdisk]
  rfl

/-- A session with two commits. -/
def letterSession : List StoreOp := [
  .trie (.insert [0x12] letterA), .insertAux (H256.ofNat 7) [1], .commit,
  .trie (.insert [0x13] letterB), .trie (.remove [0x12]), .commit]

end Sessions

end TrieDB
end XChain
