import Mathlib.Algebra.BigOperators.Fin
import Mathlib.Algebra.Order.BigOperators.Group.Finset
import XChain.TrieDB

/-!
# Tries in the store

A trie is stored as items. A subtrie whose item is shorter than 32 bytes stands
inside its parent, a longer one is filed under its hash, which stands there
instead. `Stored` says that every node below the root of a trie is found in the
store, and `childRefs` counts how often a hash stands in the trie.
-/
namespace XChain

/-- A value; the empty string means that there is none. -/
abbrev Value := {b : Bytes // b ≠ []}

abbrev Trie := Patricia Nibble Value

namespace TrieDB

open StoreProg

variable (sha3 : Bytes → H256)

/-- What stands for an item inside its parent. -/
def embed (x : Item) : Item :=
  if (Rlp.encode x).length < 32 then x else .data (sha3 (Rlp.encode x)).bytes

def valueBytes (v : Option Value) : Bytes := v.elim [] Subtype.val

/-- The item of a trie. -/
def item : Trie → Item
  | .empty => .data []
  | .leaf k v => .list [.data (hexPrefix true k), .data v.val]
  | .ext k t => .list [.data (hexPrefix false k), embed sha3 (item t)]
  | .branch c v =>
    .list ((List.ofFn fun i => embed sha3 (item (c i))) ++ [.data (valueBytes v)])

/-- The node has its own entry in the store, unless it is the root. -/
def Long (t : Trie) : Prop := 32 ≤ (Rlp.encode (item sha3 t)).length

instance (t : Trie) : Decidable (Long sha3 t) := inferInstanceAs (Decidable (_ ≤ _))

def digest (t : Trie) : H256 := sha3 (Rlp.encode (item sha3 t))

def selfRef (t : Trie) (h : H256) : ℕ := if Long sha3 t ∧ digest sha3 t = h then 1 else 0

/-- How often a hash stands below the root of a trie. -/
def childRefs : Trie → H256 → ℕ
  | .empty, _ => 0
  | .leaf _ _, _ => 0
  | .ext _ t, h => selfRef sha3 t h + childRefs t h
  | .branch c _, h => ∑ i, (selfRef sha3 (c i) h + childRefs (c i) h)

def refs (t : Trie) (h : H256) : ℕ := selfRef sha3 t h + childRefs sha3 t h

/-- How often a hash stands in a trie, where the root counts whatever its size. -/
def rootRefs (t : Trie) (h : H256) : ℕ := (if digest sha3 t = h then 1 else 0) + childRefs sha3 t h

section Items

theorem item_branch (c : Nibble → Trie) (v : Option Value) :
    item sha3 (.branch c v) =
      .list ((List.ofFn fun i => embed sha3 (item sha3 (c i))) ++ [.data (valueBytes v)]) := rfl

@[simp] theorem isEmpty_item (t : Trie) : (item sha3 t).isEmpty = true ↔ t = .empty := by
  cases t with
  | branch c v => simp [item, Item.isEmpty, List.ofFn_succ]
  | _ => simp [item, Item.isEmpty]

lemma isList_item {t : Trie} (ht : t ≠ .empty) : (item sha3 t).isList = true := by
  cases t with
  | empty => contradiction
  | _ => rfl

lemma not_long_empty : ¬ Long sha3 .empty := by
  simp [Long, item]

lemma isList_embed {t : Trie} (ht : t ≠ .empty) :
    (embed sha3 (item sha3 t)).isList = true ↔ ¬ Long sha3 t := by
  unfold embed Long
  split_ifs with hlt
  · simp [isList_item sha3 ht, hlt]
  · simpa [Item.isList] using hlt

lemma embed_of_short {t : Trie} (h : ¬ Long sha3 t) : embed sha3 (item sha3 t) = item sha3 t :=
  if_pos (not_le.mp h)

lemma embed_of_long {t : Trie} (h : Long sha3 t) :
    embed sha3 (item sha3 t) = .data (digest sha3 t).bytes :=
  if_neg (not_lt.mpr h)

@[simp] theorem isEmpty_embed (t : Trie) :
    (embed sha3 (item sha3 t)).isEmpty = true ↔ t = .empty := by
  by_cases hl : Long sha3 t
  · have hsize := (digest sha3 t).size
    rw [embed_of_long sha3 hl]
    constructor
    · intro h
      cases hb : (digest sha3 t).bytes with
      | nil => simp [hb] at hsize
      | cons b bs => simp [hb, Item.isEmpty] at h
    · rintro rfl
      exact absurd hl (not_long_empty sha3)
  · rw [embed_of_short sha3 hl, isEmpty_item]

@[simp] theorem toHash_bytes (h : H256) : toHash (.data h.bytes) = some h := by
  obtain ⟨b, hb⟩ := h
  simp [toHash, hb]

lemma getElem?_slots (c : Nibble → Trie) (v : Option Value) (i : Nibble) :
    ((List.ofFn fun i => embed sha3 (item sha3 (c i))) ++ [Item.data (valueBytes v)])[i.val]? =
      some (embed sha3 (item sha3 (c i))) := by
  rw [List.getElem?_append_left (by simp), List.getElem?_ofFn]
  simp

lemma getElem?_value (c : Nibble → Trie) (v : Option Value) :
    ((List.ofFn fun i => embed sha3 (item sha3 (c i))) ++ [Item.data (valueBytes v)])[16]? =
      some (.data (valueBytes v)) := by
  rw [List.getElem?_append_right (by simp)]
  simp

lemma set_slots (c : Nibble → Trie) (v : Option Value) (i : Nibble) (t : Trie) :
    ((List.ofFn fun i => embed sha3 (item sha3 (c i))) ++ [Item.data (valueBytes v)]).set i.val
        (embed sha3 (item sha3 t)) =
      (List.ofFn fun j => embed sha3 (item sha3 (Function.update c i t j))) ++
        [Item.data (valueBytes v)] := by
  rw [List.set_append_left _ _ (by simp)]
  congr 1
  apply List.ext_getElem
  · simp
  · intro n h₁ h₂
    simp only [List.getElem_set, List.getElem_ofFn]
    by_cases hn : i.val = n
    · subst hn
      simp
    · rw [if_neg hn, Function.update_of_ne]
      exact fun h => hn (congrArg Fin.val h).symm

/-- A branch item has seventeen slots and so is not a pair. -/
lemma length_slots (c : Nibble → Trie) (x : Item) :
    ((List.ofFn fun i => embed sha3 (item sha3 (c i))) ++ [x]).length = 17 := by
  simp

@[simp] lemma nibbles_keyOf (k : List Nibble) (x : Item) (leaf : Bool) :
    (keyOf (.list [.data (hexPrefix leaf k), x])).nibbles = k := by
  simp [keyOf, Item.payload]

@[simp] lemma size_keyOf (k : List Nibble) (x : Item) (leaf : Bool) :
    (keyOf (.list [.data (hexPrefix leaf k), x])).size = k.length := by
  rw [← NibbleSlice.length_nibbles, nibbles_keyOf]

lemma valid_keyOf (k : List Nibble) (x : Item) (leaf : Bool) :
    (keyOf (.list [.data (hexPrefix leaf k), x])).Valid := valid_keyOfHpe leaf k

end Items

section References

lemma selfRef_of_short {t : Trie} (h : ¬ Long sha3 t) (x : H256) : selfRef sha3 t x = 0 := by
  simp [selfRef, h]

@[simp] lemma refs_empty (x : H256) : refs sha3 .empty x = 0 := by
  simp [refs, selfRef_of_short sha3 (not_long_empty sha3), childRefs]

theorem childRefs_branch (c : Nibble → Trie) (v : Option Value) (x : H256) :
    childRefs sha3 (.branch c v) x = ∑ i, refs sha3 (c i) x := rfl

theorem childRefs_ext (k : List Nibble) (t : Trie) (x : H256) :
    childRefs sha3 (.ext k t) x = refs sha3 t x := rfl

lemma refs_le_childRefs (c : Nibble → Trie) (v : Option Value) (i : Nibble) (x : H256) :
    refs sha3 (c i) x ≤ childRefs sha3 (.branch c v) x :=
  Finset.single_le_sum (f := fun i => refs sha3 (c i) x) (fun _ _ => Nat.zero_le _)
    (Finset.mem_univ i)

/-- Changing one slot of a branch exchanges that slot's references. -/
lemma childRefs_update (c : Nibble → Trie) (v w : Option Value) (i : Nibble) (t : Trie) (x : H256) :
    childRefs sha3 (.branch (Function.update c i t) v) x + refs sha3 (c i) x =
      childRefs sha3 (.branch c w) x + refs sha3 t x := by
  have hmem : i ∈ (Finset.univ : Finset Nibble) := Finset.mem_univ i
  rw [childRefs_branch, childRefs_branch, ← Finset.add_sum_erase _ _ hmem,
    ← Finset.add_sum_erase _ (fun i => refs sha3 (c i) x) hmem]
  have hrest : ∑ j ∈ Finset.univ.erase i, refs sha3 (Function.update c i t j) x =
      ∑ j ∈ Finset.univ.erase i, refs sha3 (c j) x := by
    apply Finset.sum_congr rfl
    intro j hj
    rw [Function.update_of_ne (Finset.ne_of_mem_erase hj)]
  rw [hrest, Function.update_self]
  omega

end References

section Store

variable {D : Type}

/-- A long node is found under its hash. -/
def Found [ContentStore H256 Bytes D] (db : D) (t : Trie) : Prop :=
  Long sha3 t → ContentStore.lookup db (digest sha3 t) = Rlp.encode (item sha3 t)

/-- Every node below the root is found. -/
def Stored [ContentStore H256 Bytes D] (db : D) : Trie → Prop
  | .empty => True
  | .leaf _ _ => True
  | .ext _ t => Found sha3 db t ∧ Stored db t
  | .branch c _ => ∀ i, Found sha3 db (c i) ∧ Stored db (c i)

/-- Every node of a trie is found, its root whatever its size. -/
def Rooted [ContentStore H256 Bytes D] (db : D) (t : Trie) : Prop :=
  ContentStore.lookup db (digest sha3 t) = Rlp.encode (item sha3 t) ∧ Stored sha3 db t

variable [LawfulContentStore H256 Bytes D []] {sha3} {db db' : D}

lemma Found.mono {t : Trie} (h : Found sha3 db t) (hext : Extends [] db db') :
    Found sha3 db' t := by
  intro hl
  have hdb := h hl
  rw [hext _ (by rw [hdb]; exact Rlp.encode_ne_nil _), hdb]

lemma Stored.mono {t : Trie} (h : Stored sha3 db t) (hext : Extends [] db db') :
    Stored sha3 db' t := by
  induction t with
  | empty => trivial
  | leaf k v => trivial
  | ext k t ih => exact ⟨h.1.mono hext, ih h.2⟩
  | branch c v ih => exact fun i => ⟨(h i).1.mono hext, ih i (h i).2⟩

lemma found_of_short {t : Trie} (h : ¬ Long sha3 t) : Found sha3 db t := fun hl => absurd hl h

lemma stored_update {c : Nibble → Trie} {v w : Option Value} {i : Nibble} {t : Trie}
    (h : Stored sha3 db (.branch c v)) (hfound : Found sha3 db t) (hstored : Stored sha3 db t) :
    Stored sha3 db (.branch (Function.update c i t) w) := by
  intro j
  by_cases hj : j = i
  · subst hj
    simpa using ⟨hfound, hstored⟩
  · rw [Function.update_of_ne hj]
    exact h j

lemma refCount_kill_selfRef {t : Trie} (h : Long sha3 t) (x : H256) :
    ContentStore.refCount (ContentStore.kill db (digest sha3 t)) x =
      ContentStore.refCount db x - selfRef sha3 t x := by
  rw [LawfulContentStore.refCount_kill]
  simp [selfRef, h]

theorem killNode_spec (t : Trie) :
    Ensures [] (killNode (item sha3 t) (digest sha3 t)) db fun _ db' => ∀ x,
      ContentStore.refCount db' x = ContentStore.refCount db x - selfRef sha3 t x := by
  unfold killNode
  split_ifs with hl
  · exact ensures_kill (ensures_pure (refCount_kill_selfRef hl))
  · exact ensures_pure fun x => by rw [selfRef_of_short sha3 hl, Nat.sub_zero]

/-- A release forgets no content. -/
lemma killNode_lookup (x : Item) (h : H256) :
    Ensures [] (killNode x h) db fun _ db' =>
      ∀ y, ContentStore.lookup db' y = ContentStore.lookup db y := by
  unfold killNode
  split_ifs
  · exact ensures_kill (ensures_pure fun y => LawfulContentStore.lookup_kill db h y)
  · exact ensures_pure fun _ => rfl

theorem streamNode_spec (t : Trie) :
    Ensures [] (streamNode sha3 (item sha3 t)) db fun x db' => x = embed sha3 (item sha3 t) ∧
      Found sha3 db' t ∧ ∀ h,
        ContentStore.refCount db' h = ContentStore.refCount db h + selfRef sha3 t h := by
  unfold streamNode
  split_ifs with hlt
  · have hshort : ¬ Long sha3 t := not_le.mpr hlt
    exact ensures_pure ⟨(embed_of_short sha3 hshort).symm, found_of_short hshort,
      fun h => by rw [selfRef_of_short sha3 hshort, Nat.add_zero]⟩
  · have hl : Long sha3 t := not_lt.mp hlt
    refine ensures_bind (ensures_insert fun hfound => ensures_pure fun _ => ensures_pure
      ⟨(embed_of_long sha3 hl).symm, fun _ => hfound, fun h => ?_⟩)
    rw [LawfulContentStore.refCount_insert]
    simp [selfRef, hl, digest]

lemma Rooted.mono {t : Trie} (h : Rooted sha3 db t) (hext : Extends [] db db') :
    Rooted sha3 db' t := by
  refine ⟨?_, h.2.mono hext⟩
  rw [hext _ (by rw [h.1]; exact Rlp.encode_ne_nil _), h.1]

theorem node_spec {t : Trie} (h : Rooted sha3 db t) :
    Ensures [] (node (digest sha3 t)) db fun r db' => r = some (item sha3 t) ∧ db' = db := by
  refine ensures_lookup ?_
  rw [h.1]
  exact ensures_pure ⟨Rlp.decode_encode _, rfl⟩

theorem forceInsertNode_spec (t : Trie) :
    Ensures [] (forceInsertNode sha3 (item sha3 t)) db fun r db' => r = digest sha3 t ∧
      ContentStore.lookup db' (digest sha3 t) = Rlp.encode (item sha3 t) ∧ ∀ h,
        ContentStore.refCount db' h =
          ContentStore.refCount db h + if digest sha3 t = h then 1 else 0 :=
  ensures_insert fun hfound => ensures_pure
    ⟨rfl, hfound, fun _ => LawfulContentStore.refCount_insert _ _ _ _⟩

/-- The root is released even when it is short. -/
lemma killRoot_spec {t : Trie} :
    Ensures [] (if size (some (item sha3 t)) < 32 then forceKillNode (digest sha3 t) else pure ())
      db fun _ db' => ∀ h, ContentStore.refCount db' h = ContentStore.refCount db h -
        if ¬ Long sha3 t ∧ digest sha3 t = h then 1 else 0 := by
  by_cases hl : Long sha3 t
  · have hsize : ¬ size (some (item sha3 t)) < 32 := not_lt.mpr hl
    rw [if_neg hsize]
    exact ensures_pure fun h => by simp [hl]
  · have hsize : size (some (item sha3 t)) < 32 := not_le.mp hl
    rw [if_pos hsize]
    refine ensures_kill (ensures_pure fun h => ?_)
    rw [LawfulContentStore.refCount_kill]
    simp [hl]

/-- The node behind a reference. -/
theorem deref_spec {t : Trie} (hl : Long sha3 t) (hfound : Found sha3 db t) :
    Ensures [] (deref (embed sha3 (item sha3 t))) db fun r db' =>
      r = some (item sha3 t) ∧ db' = db := by
  have hhash : toHash (embed sha3 (item sha3 t)) = some (digest sha3 t) := by
    rw [embed_of_long sha3 hl, toHash_bytes]
  refine ensures_bind (ensures_ofOption hhash fun _ => ensures_lookup ?_)
  rw [hfound hl]
  exact ensures_pure ⟨Rlp.decode_encode _, rfl⟩

/-- The node that a nonempty reference stands for. -/
theorem next_spec {t : Trie} (ht : t ≠ .empty) (hfound : Found sha3 db t) :
    Ensures [] (if (embed sha3 (item sha3 t)).isList then pure (some (embed sha3 (item sha3 t)))
      else deref (embed sha3 (item sha3 t))) db fun r db' =>
        r = some (item sha3 t) ∧ db' = db := by
  by_cases hl : Long sha3 t
  · rw [if_neg (by rw [isList_embed sha3 ht]; exact fun h => h hl)]
    exact deref_spec hl hfound
  · rw [if_pos ((isList_embed sha3 ht).mpr hl), embed_of_short sha3 hl]
    exact ensures_pure ⟨rfl, rfl⟩

end Store

end TrieDB
end XChain
