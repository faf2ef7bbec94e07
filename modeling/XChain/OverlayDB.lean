import XChain.MemoryDB

/-!
# The store over a disk

Writes go to memory; a commit moves every node of positive count and every live
auxiliary value to the disk in one atomic batch and empties the memory. Reads
fall through to the disk. Nothing is ever removed from the disk by a release.
-/
namespace XChain

/-- The disk as a map from keys to values. -/
abbrev Disk := Bytes → Option Bytes

/-- A batch of writes, applied as a whole. -/
abbrev WriteBatch := List (Bytes × Bytes)

def Disk.write (disk : Disk) (batch : WriteBatch) : Disk :=
  batch.foldl (fun d e => Function.update d e.1 (some e.2)) disk

/-- The memory part and, unless the store was built without one, the disk. -/
structure OverlayDB extends MemoryDB where
  db : Option Disk

namespace OverlayDB

/-- A store just opened on a disk. -/
def fresh (disk : Disk) : OverlayDB := ⟨MemoryDB.fresh, some disk⟩

/-- What the disk holds under a key, the empty string if nothing. -/
def get (odb : OverlayDB) (key : Bytes) : Bytes := ((odb.db.bind fun disk => disk key)).getD []

/-- The disk key of an auxiliary value. -/
def auxKey (h : H256) : Bytes := h.bytes ++ [255]

def mainBatch (m : MemoryDB) : WriteBatch :=
  (m.main.entries.filter fun e => 0 < e.2.2).map fun e => (e.1.bytes, e.2.1)

def auxBatch (m : MemoryDB) : WriteBatch :=
  (m.aux.entries.filter fun e => e.2.2).map fun e => (auxKey e.1, e.2.1)

def commit (odb : OverlayDB) : OverlayDB :=
  match odb.db with
  | some disk =>
    ⟨MemoryDB.fresh, some (disk.write (mainBatch odb.toMemoryDB ++ auxBatch odb.toMemoryDB))⟩
  | none => odb

def lookupAux (odb : OverlayDB) (enforceRefs : Bool) (h : H256) : Bytes :=
  let ret := odb.toMemoryDB.lookupAux enforceRefs h
  if ret ≠ [] ∨ odb.db = none then ret else odb.get (auxKey h)

/-- Forgets the uncommitted nodes, and keeps the auxiliary values. -/
def rollback (odb : OverlayDB) : OverlayDB := { odb with main := ∅ }

def lookup (odb : OverlayDB) (enforceRefs : Bool) (h : H256) : Bytes :=
  let ret := odb.toMemoryDB.lookup enforceRefs h
  if ret = [] then odb.get h.bytes else ret

def existsNode (odb : OverlayDB) (enforceRefs : Bool) (h : H256) : Bool :=
  if odb.toMemoryDB.existsNode enforceRefs h then true else odb.get h.bytes ≠ []

def insert (odb : OverlayDB) (h : H256) (v : Bytes) : OverlayDB :=
  { odb with toMemoryDB := odb.toMemoryDB.insert h v }

/-- Only the memory part is touched. -/
def kill (odb : OverlayDB) (h : H256) : OverlayDB :=
  { odb with toMemoryDB := (odb.toMemoryDB.kill h).2 }

def insertAux (odb : OverlayDB) (h : H256) (v : Bytes) : OverlayDB :=
  { odb with toMemoryDB := odb.toMemoryDB.insertAux h v }

def removeAux (odb : OverlayDB) (h : H256) : OverlayDB :=
  { odb with toMemoryDB := odb.toMemoryDB.removeAux h }

instance : ContentStore H256 Bytes OverlayDB where
  lookup odb := odb.lookup false
  insert := insert
  kill := kill
  refCount odb := odb.toMemoryDB.refCount

instance : LawfulContentStore H256 Bytes OverlayDB [] where
  lookup_insert_self odb h v hv := by
    change (odb.insert h v).lookup false h = v
    simp [lookup, insert, hv]
  lookup_insert_ne odb h h' v hne := by
    change (odb.insert h v).lookup false h' = odb.lookup false h'
    simp [lookup, insert, get, hne]
  lookup_kill odb h h' := by
    change (odb.kill h).lookup false h' = odb.lookup false h'
    simp [lookup, kill, get, MemoryDB.lookup_kill]
  refCount_insert odb h v h' := MemoryDB.refCount_insert odb.toMemoryDB h v h'
  refCount_kill odb h h' := MemoryDB.refCount_kill odb.toMemoryDB h h'

section Commit

/-- A key that the batch does not write keeps its value. -/
lemma write_of_not_mem {disk : Disk} {batch : WriteBatch} {key : Bytes}
    (h : ∀ v, (key, v) ∉ batch) : disk.write batch key = disk key := by
  induction batch generalizing disk with
  | nil => rfl
  | cons e batch ih =>
    have hrest := @ih (Function.update disk e.1 (some e.2))
      fun v hv => h v (List.mem_cons_of_mem _ hv)
    have hne : key ≠ e.1 := by
      rintro rfl
      exact h e.2 List.mem_cons_self
    exact hrest.trans (Function.update_of_ne hne _ _)

/-- A key that the batch writes once has that value. -/
lemma write_of_mem {disk : Disk} {batch : WriteBatch} {key v : Bytes} (h : (key, v) ∈ batch)
    (hunique : ∀ w, (key, w) ∈ batch → w = v) : disk.write batch key = some v := by
  induction batch generalizing disk with
  | nil => cases h
  | cons e batch ih =>
    by_cases hmem : (key, v) ∈ batch
    · exact ih hmem fun w hw => hunique w (List.mem_cons_of_mem _ hw)
    · have hnone : ∀ w, (key, w) ∉ batch := by
        intro w hw
        rw [hunique w (List.mem_cons_of_mem _ hw)] at hw
        exact hmem hw
      have he : e = (key, v) := ((List.mem_cons.mp h).resolve_right hmem).symm
      subst he
      exact (write_of_not_mem hnone).trans (Function.update_self _ _ _)

lemma auxKey_ne (h h' : H256) : auxKey h ≠ h'.bytes := by
  intro heq
  have hlen := congrArg List.length heq
  simp [auxKey, h.size, h'.size] at hlen

lemma auxKey_injective : Function.Injective auxKey := by
  rintro ⟨a, ha⟩ ⟨b, hb⟩ heq
  have : a = b := List.append_cancel_right heq
  subst this
  rfl

lemma bytes_injective : Function.Injective H256.bytes := by
  rintro ⟨a, ha⟩ ⟨b, hb⟩ heq
  simpa using heq

lemma mem_mainBatch {m : MemoryDB} {h : H256} {v : Bytes} :
    (h.bytes, v) ∈ mainBatch m ++ auxBatch m ↔
      ∃ count, m.main.lookup h = some (v, count) ∧ 0 < count := by
  have hlook (e : Bytes × ℕ) : m.main.lookup h = some e ↔ ⟨h, e⟩ ∈ m.main.entries :=
    AList.mem_lookup_iff
  simp only [mainBatch, auxBatch, List.mem_append, List.mem_map, List.mem_filter,
    decide_eq_true_eq, Prod.mk.injEq]
  constructor
  · rintro (⟨⟨h', w, count⟩, ⟨hin, hpos⟩, hb, rfl⟩ | ⟨e, -, hb, -⟩)
    · obtain rfl := bytes_injective hb
      exact ⟨count, (hlook _).mpr hin, hpos⟩
    · exact absurd hb (auxKey_ne _ _)
  · rintro ⟨count, hm, hpos⟩
    exact Or.inl ⟨⟨h, v, count⟩, ⟨(hlook _).mp hm, hpos⟩, rfl, rfl⟩

lemma mem_auxBatch {m : MemoryDB} {h : H256} {v : Bytes} :
    (auxKey h, v) ∈ mainBatch m ++ auxBatch m ↔ m.aux.lookup h = some (v, true) := by
  have hlook (e : Bytes × Bool) : m.aux.lookup h = some e ↔ ⟨h, e⟩ ∈ m.aux.entries :=
    AList.mem_lookup_iff
  simp only [mainBatch, auxBatch, List.mem_append, List.mem_map, List.mem_filter, Prod.mk.injEq]
  constructor
  · rintro (⟨e, -, hb, -⟩ | ⟨⟨h', w, alive⟩, ⟨hin, halive⟩, hb, rfl⟩)
    · exact absurd hb.symm (auxKey_ne _ _)
    · obtain rfl := auxKey_injective hb
      obtain rfl : alive = true := halive
      exact (hlook _).mpr hin
  · intro hm
    exact Or.inr ⟨⟨h, v, true⟩, ⟨(hlook _).mp hm, rfl⟩, rfl, rfl⟩

/-- After a commit the disk holds the nodes in use; other keys are as before. -/
theorem get_commit (odb : OverlayDB) (hdb : odb.db ≠ none) (h : H256) :
    odb.commit.get h.bytes =
      if odb.toMemoryDB.refCount h = 0 then odb.get h.bytes
      else odb.toMemoryDB.lookup false h := by
  obtain ⟨disk, hdisk⟩ := Option.ne_none_iff_exists'.mp hdb
  have hread (v : Bytes) := mem_mainBatch (m := odb.toMemoryDB) (h := h) (v := v)
  simp only [commit, get, hdisk, Option.bind_some]
  by_cases hcount : odb.toMemoryDB.refCount h = 0
  · rw [if_pos hcount, write_of_not_mem]
    intro v hv
    obtain ⟨count, hm, hpos⟩ := (hread v).mp hv
    simp only [MemoryDB.refCount, hm, Option.map_some, Option.getD_some] at hcount
    omega
  · rw [if_neg hcount]
    rcases hm : odb.toMemoryDB.main.lookup h with _ | ⟨v, count⟩
    · simp [MemoryDB.refCount, hm] at hcount
    · have hpos : 0 < count := by
        simp only [MemoryDB.refCount, hm, Option.map_some, Option.getD_some] at hcount
        exact Nat.pos_of_ne_zero hcount
      rw [write_of_mem ((hread v).mpr ⟨count, hm, hpos⟩)]
      · simp [MemoryDB.lookup, hm]
      · intro w hw
        obtain ⟨count', hm', -⟩ := (hread w).mp hw
        rw [hm] at hm'
        exact (congrArg Prod.fst (Option.some.inj hm')).symm

/-- After a commit the disk holds the live auxiliary values. -/
theorem get_commit_aux (odb : OverlayDB) (hdb : odb.db ≠ none) (h : H256) :
    odb.commit.get (auxKey h) =
      match odb.toMemoryDB.aux.lookup h with
      | some (v, true) => v
      | _ => odb.get (auxKey h) := by
  obtain ⟨disk, hdisk⟩ := Option.ne_none_iff_exists'.mp hdb
  have hread (v : Bytes) := mem_auxBatch (m := odb.toMemoryDB) (h := h) (v := v)
  simp only [commit, get, hdisk, Option.bind_some]
  split
  · next v hm =>
    rw [write_of_mem ((hread v).mpr hm)]
    · rfl
    · intro w hw
      rw [hread, hm] at hw
      exact (congrArg Prod.fst (Option.some.inj hw)).symm
  · next hm =>
    rw [write_of_not_mem]
    intro v hv
    exact hm v ((hread v).mp hv)

end Commit

end OverlayDB
end XChain
