import Mathlib.Data.List.AList
import XChain.Rlp
import XChain.StoreProgram

/-!
# The in-memory store

Trie nodes are filed under their hash with a reference count, auxiliary values
with a flag that says whether they are alive. Releasing a node lowers its count
and leaves its content in the table; only reads that enforce the counts, and
`purge`, tell a node of count zero from one in use.
-/
namespace XChain

/-- A 256-bit hash. -/
structure H256 where
  bytes : Bytes
  size : bytes.length = 32
  deriving DecidableEq

/-- The hash with the given big-endian number. -/
def H256.ofNat (n : ℕ) : H256 :=
  ⟨List.ofFn fun i : Fin 32 => UInt8.ofNat (n / 256 ^ (31 - i.val)), List.length_ofFn⟩

/-- `main` holds the nodes, `aux` the auxiliary values. -/
structure MemoryDB where
  main : AList fun _ : H256 => Bytes × ℕ
  aux : AList fun _ : H256 => Bytes × Bool

namespace MemoryDB

/-- A store right after its construction. -/
def fresh : MemoryDB := ⟨∅, ∅⟩

/-- The content of a node; with `enforceRefs` only of one in use. -/
def lookup (db : MemoryDB) (enforceRefs : Bool) (h : H256) : Bytes :=
  match db.main.lookup h with
  | some (v, count) => if !enforceRefs || 0 < count then v else []
  | none => []

def existsNode (db : MemoryDB) (enforceRefs : Bool) (h : H256) : Bool :=
  match db.main.lookup h with
  | some (_, count) => !enforceRefs || 0 < count
  | none => false

def insert (db : MemoryDB) (h : H256) (v : Bytes) : MemoryDB :=
  match db.main.lookup h with
  | some (_, count) => { db with main := db.main.insert h (v, count + 1) }
  | none => { db with main := db.main.insert h (v, 1) }

/-- Lowers a positive count; the flag tells whether there was one. -/
def kill (db : MemoryDB) (h : H256) : Bool × MemoryDB :=
  match db.main.lookup h with
  | some (v, count + 1) => (true, { db with main := db.main.insert h (v, count) })
  | _ => (false, db)

def lookupAux (db : MemoryDB) (enforceRefs : Bool) (h : H256) : Bytes :=
  match db.aux.lookup h with
  | some (v, alive) => if !enforceRefs || alive then v else []
  | none => []

/-- An absent entry is created, with the empty value. -/
def removeAux (db : MemoryDB) (h : H256) : MemoryDB :=
  match db.aux.lookup h with
  | some (v, _) => { db with aux := db.aux.insert h (v, false) }
  | none => { db with aux := db.aux.insert h ([], false) }

def insertAux (db : MemoryDB) (h : H256) (v : Bytes) : MemoryDB :=
  { db with aux := db.aux.insert h (v, true) }

/-- The entries of a table that satisfy a test. -/
def filterEntries {β : Type} (p : β → Bool) (m : AList fun _ : H256 => β) :
    AList fun _ : H256 => β :=
  ⟨m.entries.filter fun e => p e.2, m.nodupKeys.sublist List.filter_sublist⟩

/-- Drops the nodes of count zero and the dead auxiliary values. -/
def purge (db : MemoryDB) : MemoryDB :=
  ⟨filterEntries (fun e => 0 < e.2) db.main, filterEntries (fun e => e.2) db.aux⟩

/-- The hashes of the nodes in use. -/
def keys (db : MemoryDB) : List H256 :=
  (db.main.entries.filter fun e => 0 < e.2.2).map fun e => e.1

/-- The count of a node, zero when it is not in the table. -/
def refCount (db : MemoryDB) (h : H256) : ℕ := ((db.main.lookup h).map fun e => e.2).getD 0

instance : ContentStore H256 Bytes MemoryDB where
  lookup db := db.lookup false
  insert := insert
  kill db h := (db.kill h).2
  refCount := refCount

@[simp] theorem lookup_insert_self (db : MemoryDB) (h : H256) (v : Bytes) :
    (db.insert h v).lookup false h = v := by
  unfold insert
  split <;> simp [lookup]

@[simp] theorem lookup_insert_ne (db : MemoryDB) {h h' : H256} (v : Bytes) (r : Bool)
    (hne : h ≠ h') : (db.insert h v).lookup r h' = db.lookup r h' := by
  unfold insert
  split <;> simp [lookup, AList.lookup_insert_ne hne.symm]

theorem lookup_kill (db : MemoryDB) (h h' : H256) :
    (db.kill h).2.lookup false h' = db.lookup false h' := by
  unfold kill
  split
  · next v count hlook =>
    by_cases heq : h' = h
    · subst heq
      simp [lookup, hlook]
    · simp [lookup, AList.lookup_insert_ne heq]
  · rfl

theorem refCount_insert (db : MemoryDB) (h : H256) (v : Bytes) (h' : H256) :
    (db.insert h v).refCount h' = db.refCount h' + if h = h' then 1 else 0 := by
  unfold insert
  by_cases heq : h = h'
  · subst heq
    split
    · next v count hlook => simp [refCount, hlook]
    · next hlook => simp [refCount, hlook]
  · split <;> simp [refCount, AList.lookup_insert_ne (Ne.symm heq), heq]

theorem refCount_kill (db : MemoryDB) (h h' : H256) :
    (db.kill h).2.refCount h' = db.refCount h' - if h = h' then 1 else 0 := by
  unfold kill
  by_cases heq : h = h'
  · subst heq
    split
    · next v count hlook => simp [refCount, hlook]
    · next hlook =>
      rcases hm : db.main.lookup h with _ | ⟨v, _ | count⟩
      · simp [refCount, hm]
      · simp [refCount, hm]
      · exact absurd hm (hlook v count)
  · split <;> simp [refCount, AList.lookup_insert_ne (Ne.symm heq), heq]

instance : LawfulContentStore H256 Bytes MemoryDB [] where
  lookup_insert_self db h v _ := lookup_insert_self db h v
  lookup_insert_ne db _ _ v hne := lookup_insert_ne db v false hne
  lookup_kill := lookup_kill
  refCount_insert := refCount_insert
  refCount_kill := refCount_kill

/-- Enforced reads give the content of exactly the nodes in use. -/
theorem lookup_enforced (db : MemoryDB) (h : H256) :
    db.lookup true h = if db.refCount h = 0 then [] else db.lookup false h := by
  rcases hm : db.main.lookup h with _ | ⟨v, _ | count⟩ <;> simp [lookup, refCount, hm]

theorem mem_keys (db : MemoryDB) (h : H256) : h ∈ db.keys ↔ db.refCount h ≠ 0 := by
  have hmem (e : Bytes × ℕ) : db.main.lookup h = some e ↔ ⟨h, e⟩ ∈ db.main.entries :=
    AList.mem_lookup_iff
  simp only [keys, List.mem_map, List.mem_filter, decide_eq_true_eq]
  constructor
  · rintro ⟨⟨h', v, count⟩, ⟨hin, hpos⟩, rfl⟩
    simp only [refCount, (hmem (v, count)).mpr hin, Option.map_some, Option.getD_some]
    exact Nat.pos_iff_ne_zero.mp hpos
  · intro hne
    rcases hm : db.main.lookup h with _ | ⟨v, count⟩
    · simp [refCount, hm] at hne
    · simp only [refCount, hm, Option.map_some, Option.getD_some] at hne
      exact ⟨⟨h, v, count⟩, ⟨(hmem _).mp hm, Nat.pos_of_ne_zero hne⟩, rfl⟩

end MemoryDB
end XChain
