import XChain.TrieInsert

/-!
# Removal refines the abstract trie

`deleteAt` turns the item of a canonical trie into the item of the trie without
the word, and keeps the reference counts in step. The source goes wrong in three
situations, which `Removable` rules out: the word ends at a branch that has no
value, the word goes on behind a leaf, and the word is the last one behind a value
that is too long for a hash or names a stored two-item node.
-/
namespace XChain
namespace TrieDB

open StoreProg
open Patricia (Used Crowded collapse)

variable {sha3 : Bytes → H256} {D : Type}

/-- The word is absent and two words go on behind it with different letters. -/
def BranchPoint (f : List Nibble → Option Value) (k : List Nibble) : Prop :=
  f k = none ∧ ∃ i j x y, i ≠ j ∧ f (k ++ i :: x) ≠ none ∧ f (k ++ j :: y) ≠ none

/-- The word goes on behind a word that no other one goes on behind. -/
def BehindLeaf (f : List Nibble → Option Value) (k : List Nibble) : Prop :=
  ∃ p, p <+: k ∧ p ≠ k ∧ f p ≠ none ∧ ∀ p', f p' ≠ none → p <+: p' → p' = p

/-- The word is the only one that goes on behind `p`, which has the value `v`. -/
def LoneValue (f : List Nibble → Option Value) (k p : List Nibble) (v : Value) : Prop :=
  f p = some v ∧ p <+: k ∧ p ≠ k ∧ f k ≠ none ∧ ∀ p', f p' ≠ none → p <+: p' → p' = p ∨ p' = k

/-- The value is not taken for the hash of a stored two-item node. -/
def Harmless [ContentStore H256 Bytes D] (db : D) (v : Value) : Prop :=
  ∃ h, toHash (.data v.val) = some h ∧
    itemCount (Rlp.decode (ContentStore.lookup db h)) ≠ 2

/-- The removal of the word keeps clear of the three situations. -/
structure Removable [ContentStore H256 Bytes D] (db : D) (f : List Nibble → Option Value)
    (k : List Nibble) : Prop where
  not_branchPoint : ¬ BranchPoint f k
  not_behindLeaf : ¬ BehindLeaf f k
  harmless : ∀ p v, LoneValue f k p v → Harmless db v

variable [LawfulContentStore H256 Bytes D []]

section Situations

variable {f g : List Nibble → Option Value}

/-- A word behind a label is removable when it is so without the label. -/
lemma Removable.of_append {db : D} {l k : List Nibble} (h : Removable db f (l ++ k))
    (hfg : ∀ x, f (l ++ x) = g x) : Removable db g k where
  not_branchPoint := by
    rintro ⟨hk, i, j, x, y, hij, hx, hy⟩
    refine h.not_branchPoint ⟨by rw [hfg, hk], i, j, x, y, hij, ?_, ?_⟩
    · rwa [List.append_assoc, hfg]
    · rwa [List.append_assoc, hfg]
  not_behindLeaf := by
    rintro ⟨p, hp, hne, hfp, hout⟩
    refine h.not_behindLeaf ⟨l ++ p, (List.prefix_append_right_inj l).mpr hp, ?_, ?_, ?_⟩
    · simpa using hne
    · rwa [hfg]
    · rintro p' hp' ⟨r, rfl⟩
      rw [List.append_assoc, hfg] at hp'
      rw [List.append_assoc, hout (p ++ r) hp' (List.prefix_append p r)]
  harmless := by
    rintro p v ⟨hp, hpk, hne, hk, hout⟩
    refine h.harmless (l ++ p) v ⟨by rw [hfg, hp], (List.prefix_append_right_inj l).mpr hpk,
      by simpa using hne, by rwa [hfg], ?_⟩
    rintro p' hp' ⟨r, rfl⟩
    rw [List.append_assoc, hfg] at hp'
    rw [List.append_assoc, List.append_right_inj, List.append_right_inj]
    exact hout (p ++ r) hp' (List.prefix_append p r)

end Situations

section Nodes

/-- Whether a reference leads to a two-item node. -/
theorem isTwoItemNode_spec {db : D} {t : Trie} (ht : t ≠ .empty) (hfound : Found sha3 db t) :
    Ensures [] (isTwoItemNode (embed sha3 (item sha3 t))) db fun b db' =>
      (b = true ↔ ¬ t.IsBranch) ∧ db' = db := by
  have hcount : itemCount (some (item sha3 t)) = 2 ↔ ¬ t.IsBranch := by
    cases t with
    | empty => contradiction
    | leaf l v => simp [item, itemCount, Patricia.IsBranch]
    | ext l t => simp [item, itemCount, Patricia.IsBranch]
    | branch c v => simp [item, itemCount, Patricia.IsBranch]
  by_cases hl : Long sha3 t
  · have hderef := deref_spec hl hfound
    rw [embed_of_long sha3 hl] at hderef ⊢
    refine ensures_bind (hderef.mono fun r db₁ _ hr _ => ?_)
    obtain ⟨rfl, rfl⟩ := hr
    exact ensures_pure ⟨by rw [beq_iff_eq, hcount], rfl⟩
  · rw [embed_of_short sha3 hl]
    cases t with
    | empty => contradiction
    | leaf l v => exact ensures_pure ⟨by rw [beq_iff_eq, ← hcount]; rfl, rfl⟩
    | ext l t => exact ensures_pure ⟨by rw [beq_iff_eq, ← hcount]; rfl, rfl⟩
    | branch c v => exact ensures_pure ⟨by rw [beq_iff_eq, ← hcount]; rfl, rfl⟩

/-- A value in place of a reference is harmless or not. -/
lemma isTwoItemNode_value {db : D} {v : Value} (hv : Harmless db v) :
    Ensures [] (isTwoItemNode (.data v.val)) db fun b db' => b = false ∧ db' = db := by
  obtain ⟨h, hhash, hcount⟩ := hv
  refine ensures_bind (ensures_bind (ensures_ofOption hhash fun _ => ensures_lookup ?_))
  exact ensures_pure fun _ => ensures_pure ⟨by simpa using hcount, rfl⟩

/-- The node behind a reference that is dissolved into its parent. -/
lemma dissolve_spec {db : D} {t : Trie} (ht : t ≠ .empty) (hfound : Found sha3 db t) :
    Ensures [] (if (embed sha3 (item sha3 t)).isList then pure (some (embed sha3 (item sha3 t)))
      else do
        let lh ← ofOption (toHash (embed sha3 (item sha3 t)))
        let n ← node lh
        forceKillNode lh
        pure n) db fun r db' => r = some (item sha3 t) ∧ ∀ h,
          ContentStore.refCount db' h = ContentStore.refCount db h - selfRef sha3 t h := by
  by_cases hl : Long sha3 t
  · have hhash : toHash (embed sha3 (item sha3 t)) = some (digest sha3 t) := by
      rw [embed_of_long sha3 hl, toHash_bytes]
    rw [if_neg (by rw [isList_embed sha3 ht]; exact fun h => h hl)]
    refine ensures_bind (ensures_ofOption hhash fun _ => ensures_bind (ensures_lookup ?_))
    rw [hfound hl]
    refine ensures_pure fun _ => ensures_bind (ensures_kill (ensures_pure fun _ =>
      ensures_pure ⟨Rlp.decode_encode _, refCount_kill_selfRef hl⟩))
  · rw [if_pos ((isList_embed sha3 ht).mpr hl), embed_of_short sha3 hl]
    exact ensures_pure ⟨rfl, fun h => by rw [selfRef_of_short sha3 hl, Nat.sub_zero]⟩

/-- Joining a label with the two-item node behind it. -/
theorem graft_spec {db : D} {t : Trie} (p : List Nibble) (ht : t ≠ .empty) (hb : ¬ t.IsBranch)
    (hfound : Found sha3 db t) (hstored : Stored sha3 db t) :
    Ensures [] (graft (.list [.data (hexPrefix false p), embed sha3 (item sha3 t)])) db
      (Yields sha3 db (refs sha3 t) True (Patricia.graft p t)) := by
  refine ensures_bind ((dissolve_spec ht hfound).mono fun r db₁ hext hr _ => ?_)
  obtain ⟨rfl, hkill⟩ := hr
  cases t with
  | empty => contradiction
  | branch c v => exact absurd trivial hb
  | leaf l v =>
    refine ensures_bind (ensures_ofOption (isLeaf_hexPrefix _ _ _) fun _ => ?_)
    refine ensures_bind (ensures_ofOption (hexPrefixEncodePair_eq _ _ _) fun _ => ?_)
    rw [nibbles_keyOf, nibbles_keyOf]
    refine ensures_pure ⟨rfl, trivial, fun _ x n hn => ?_⟩
    rw [hkill, hn, refs, Patricia.graft]
    simp [childRefs]
  | ext l t =>
    refine ensures_bind (ensures_ofOption (isLeaf_hexPrefix _ _ _) fun _ => ?_)
    refine ensures_bind (ensures_ofOption (hexPrefixEncodePair_eq _ _ _) fun _ => ?_)
    rw [nibbles_keyOf, nibbles_keyOf]
    refine ensures_pure ⟨rfl, hstored.mono hext, fun _ x n hn => ?_⟩
    rw [hkill, hn, refs, Patricia.graft, childRefs_ext, childRefs_ext]
    omega

/-- A branch whose single slot holds a subtrie. -/
theorem rejig_child {db : D} {l : List Item} (hlen : l.length = 17) {i : Nibble} {t : Trie}
    (hslot : l[i.val]? = some (embed sha3 (item sha3 t))) (ht : t ≠ .empty)
    (hfound : Found sha3 db t) (hstored : Stored sha3 db t) :
    Ensures [] (rejig (.list l) i.val) db
      (Yields sha3 db (refs sha3 t) True (Patricia.graft [i] t)) := by
  have hmerge (db : D) : Ensures [] (merge (.list l) i.val) db fun x db' =>
      x = .list [.data (hexPrefix false [i]), embed sha3 (item sha3 t)] ∧ db' = db := by
    have hne16 : i.val ≠ 16 := by omega
    have hlabel : ∀ i : Nibble, hexPrefixEncodeData [UInt8.ofNat i.val] false 1 2 0 =
        some (hexPrefix false [i]) := by decide
    refine ensures_bind (ensures_assert hlen fun _ => ?_)
    refine ensures_bind (ensures_ofOption hslot fun _ => ?_)
    rw [if_pos hne16]
    refine ensures_bind (ensures_assert (by rw [isEmpty_embed]; exact ht) fun _ => ?_)
    exact ensures_bind (ensures_ofOption (hlabel i) fun _ => ensures_pure ⟨rfl, rfl⟩)
  refine ensures_bind (ensures_ofOption hslot fun _ => ?_)
  refine ensures_bind ((isTwoItemNode_spec ht hfound).mono fun two db₁ _ htwo _ => ?_)
  obtain ⟨htwo, rfl⟩ := htwo
  by_cases hb : t.IsBranch
  · rw [if_neg (by rw [htwo]; exact fun h => h hb)]
    refine (hmerge db₁).mono fun x db₂ _ hx => ?_
    obtain ⟨rfl, rfl⟩ := hx
    cases t with
    | branch c v => exact ⟨rfl, ⟨hfound, hstored⟩, fun _ x n hn => hn⟩
    | _ => exact hb.elim
  · rw [if_pos (htwo.mpr hb)]
    refine ensures_bind ((hmerge db₁).mono fun x db₂ _ hx _ => ?_)
    obtain ⟨rfl, rfl⟩ := hx
    exact graft_spec [i] ht hb hfound hstored

/-- A branch whose single slot holds a value. -/
theorem rejig_value {db : D} {l : List Item} (hlen : l.length = 17) {v : Value}
    (hslot : l[16]? = some (.data v.val)) (hv : Harmless db v) :
    Ensures [] (rejig (.list l) 16) db fun x db' =>
      x = .list [.data (hexPrefix true []), .data v.val] ∧ db' = db := by
  refine ensures_bind (ensures_ofOption hslot fun _ => ?_)
  refine ensures_bind ((isTwoItemNode_value hv).mono fun two db₁ _ htwo _ => ?_)
  obtain ⟨rfl, rfl⟩ := htwo
  rw [if_neg Bool.false_ne_true]
  refine ensures_bind (ensures_assert hlen fun _ => ?_)
  refine ensures_bind (ensures_ofOption hslot fun _ => ?_)
  rw [if_neg (by simp)]
  exact ensures_pure ⟨rfl, rfl⟩

end Nodes

section Slots

variable (sha3)

/-- The index of a slot in the item of a branch. -/
def slotIndex : Option Nibble → ℕ
  | some i => i.val
  | none => 16

lemma slotIndex_injective : Function.Injective slotIndex := by
  rintro (_ | i) (_ | j) h
  · rfl
  · exact absurd h.symm (by simp only [slotIndex]; omega)
  · exact absurd h (by simp only [slotIndex]; omega)
  · exact congrArg some (Fin.ext h)

lemma isEmpty_value (v : Option Value) :
    (Item.data (valueBytes v)).isEmpty = true ↔ v = none := by
  rcases v with _ | ⟨_ | ⟨b, bs⟩, hv⟩
  · simp [valueBytes, Item.isEmpty]
  · exact absurd rfl hv
  · simp [valueBytes, Item.isEmpty]

lemma inUse_slots (c : Nibble → Trie) (v : Option Value) (exc j : ℕ) :
    InUse exc ((List.ofFn fun i => embed sha3 (item sha3 (c i))) ++ [.data (valueBytes v)]) j ↔
      ∃ s, slotIndex s = j ∧ j ≠ exc ∧ Used c v s := by
  constructor
  · rintro ⟨hexc, x, hx, hempty⟩
    rcases lt_trichotomy j 16 with hj | rfl | hj
    · have hslot := getElem?_slots sha3 c v ⟨j, hj⟩
      rw [hx] at hslot
      obtain rfl := Option.some.inj hslot
      refine ⟨some ⟨j, hj⟩, rfl, hexc, ?_⟩
      rwa [isEmpty_embed] at hempty
    · rw [getElem?_value] at hx
      obtain rfl := Option.some.inj hx
      refine ⟨none, rfl, hexc, ?_⟩
      rwa [isEmpty_value] at hempty
    · rw [List.getElem?_eq_none (by rw [length_slots]; omega)] at hx
      cases hx
  · rintro ⟨_ | i, rfl, hexc, hs⟩
    · exact ⟨hexc, _, getElem?_value sha3 c v, by rw [isEmpty_value]; exact hs⟩
    · exact ⟨hexc, _, getElem?_slots sha3 c v i, by rw [isEmpty_embed]; exact hs⟩

/-- `uniqueInUse` finds the single used slot of a branch. -/
lemma uniqueInUse_slots (exc : ℕ) {c : Nibble → Trie} {v : Option Value} {s : Option Nibble}
    (hs : Used c v s) (hexc : slotIndex s ≠ exc)
    (hu : ∀ s', Used c v s' → slotIndex s' ≠ exc → s' = s) :
    uniqueInUse ((List.ofFn fun i => embed sha3 (item sha3 (c i))) ++ [.data (valueBytes v)]) exc =
      slotIndex s := by
  apply uniqueInUse_of_unique (by rw [length_slots]; omega)
  · exact (inUse_slots sha3 c v exc _).mpr ⟨s, rfl, hexc, hs⟩
  · intro j hj
    obtain ⟨s', rfl, hne, hs'⟩ := (inUse_slots sha3 c v exc j).mp hj
    rw [hu s' hs' hne]

lemma uniqueInUse_slots_two (exc : ℕ) {c : Nibble → Trie} {v : Option Value}
    {s s' : Option Nibble} (hne : s ≠ s') (hs : Used c v s) (hexc : slotIndex s ≠ exc) (hs' : Used c v s')
    (hexc' : slotIndex s' ≠ exc) :
    uniqueInUse ((List.ofFn fun i => embed sha3 (item sha3 (c i))) ++ [.data (valueBytes v)]) exc =
      255 :=
  uniqueInUse_of_two (by rw [length_slots]; omega) (fun h => hne (slotIndex_injective h))
    ((inUse_slots sha3 c v exc _).mpr ⟨s, rfl, hexc, hs⟩)
    ((inUse_slots sha3 c v exc _).mpr ⟨s', rfl, hexc', hs'⟩)

lemma slotIndex_ne (s : Option Nibble) : slotIndex s ≠ 255 := by
  cases s with
  | none => simp [slotIndex]
  | some i => simp only [slotIndex]; omega

/-- With a single used child, the references of a branch are those of the child. -/
lemma childRefs_of_unique {c : Nibble → Trie} {v w : Option Value} {i : Nibble}
    (hu : ∀ s', Used c v s' → s' = some i) (x : H256) :
    childRefs sha3 (.branch c w) x = refs sha3 (c i) x := by
  rw [childRefs_branch]
  apply Finset.sum_eq_single i
  · intro j _ hj
    have hempty : c j = .empty := by
      by_contra h
      exact hj (Option.some.inj (hu (some j) h))
    rw [hempty, refs_empty]
  · intro h
    exact absurd (Finset.mem_univ i) h

end Slots

section Deletion

/-- What a removal gives: nothing when the word is not there, and then the store is
as before; else the item of the smaller trie. A removal that leaves nothing writes
nothing. -/
def Deletes (sha3 : Bytes → H256) (db : D) (t : Trie) (k : List Nibble) (r : Option Item)
    (db' : D) : Prop :=
  match t.delete k with
  | none => r = none ∧ db' = db
  | some t' => (∃ x, r = some x ∧ Yields sha3 db (refs sha3 t) True t' x db') ∧
      (t' = .empty → ∀ h, ContentStore.lookup db' h = ContentStore.lookup db h)

/-- The same for the reference inside a parent. -/
def DeletesRef (sha3 : Bytes → H256) (db : D) (t : Trie) (k : List Nibble) (r : Option Item)
    (db' : D) : Prop :=
  match t.delete k with
  | none => r = none ∧ db' = db
  | some t' => (∃ x, r = some x ∧ Embeds sha3 db (refs sha3 t) True t' x db') ∧
      (t' = .empty → ∀ h, ContentStore.lookup db' h = ContentStore.lookup db h)

lemma deleteAt_pair (fuel : ℕ) (a b : Item) (k : NibbleSlice) :
    deleteAt sha3 (fuel + 1) (some (.list [a, b])) k = (do
      let key := keyOf (.list [a, b])
      let leaf ← ofOption (isLeaf (.list [a, b]))
      if key == k ∧ leaf then do
        killNode (.list [a, b]) (sha3 (Rlp.encode (.list [a, b])))
        pure (some (.data []))
      else if k.contains key then do
        let s ← deleteAtAux sha3 fuel b (k.mid key.size)
        match s with
        | none => pure none
        | some b' => do
          killNode (.list [a, b]) (sha3 (Rlp.encode (.list [a, b])))
          let two ← isTwoItemNode b'
          if two then some <$> graft (.list [a, b'])
          else pure (some (.list [a, b']))
      else pure none) := rfl

lemma deleteAt_list (fuel : ℕ) {l : List Item} (hl : l.length = 17) (k : NibbleSlice) :
    deleteAt sha3 (fuel + 1) (some (.list l)) k = (do
      let last ← ofOption l[16]?
      if k.size = 0 ∧ ¬ last.isEmpty then do
        killNode (.list l) (sha3 (Rlp.encode (.list l)))
        let used := uniqueInUse l 16
        if used ≠ 255 then some <$> rejig (.list l) used
        else pure (some (.list (l.take 16 ++ [.data []])))
      else do
        let n ← ofOption (k.at? 0)
        let slot ← ofOption l[n.val]?
        let s ← deleteAtAux sha3 fuel slot (k.mid 1)
        match s with
        | none => pure none
        | some slot' => do
          killNode (.list l) (sha3 (Rlp.encode (.list l)))
          let r := l.set n.val slot'
          let used := uniqueInUse r 255
          if used = 255 then pure (some (.list r))
          else some <$> rejig (.list r) used) := by
  match l, hl with
  | _ :: _ :: _ :: l, hl =>
    rw [deleteAt]
    · simp only [Item.isEmpty, assert, hl]
      rfl
    · simp

/-- A removal behind a reference. -/
lemma deleteAtAux_spec {fuel : ℕ} {t : Trie} {k : NibbleSlice} {db : D}
    (hfound : Found sha3 db t)
    (h : t ≠ .empty → Ensures [] (deleteAt sha3 fuel (some (item sha3 t)) k) db
      (Deletes sha3 db t k.nibbles)) :
    Ensures [] (deleteAtAux sha3 (fuel + 1) (embed sha3 (item sha3 t)) k) db
      (DeletesRef sha3 db t k.nibbles) := by
  rw [deleteAtAux]
  by_cases ht : t = .empty
  · rw [if_pos ((isEmpty_embed sha3 t).mpr ht), ht]
    exact ensures_pure ⟨rfl, rfl⟩
  · rw [if_neg (by rw [isEmpty_embed]; exact ht)]
    refine ensures_bind ((next_spec ht hfound).mono fun r db₁ _ hr _ => ?_)
    obtain ⟨rfl, rfl⟩ := hr
    refine ensures_bind ((h ht).mono fun b db₂ _ hb _ => ?_)
    unfold Deletes at hb
    unfold DeletesRef
    cases hdel : t.delete k.nibbles with
    | none =>
      rw [hdel] at hb
      obtain ⟨rfl, rfl⟩ := hb
      exact ensures_pure ⟨rfl, rfl⟩
    | some t' =>
      rw [hdel] at hb
      obtain ⟨⟨x, rfl, hx⟩, hsame⟩ := hb
      by_cases ht' : t' = .empty
      · obtain ⟨rfl, hs, hcount⟩ := hx
        have hshort : ¬ Long sha3 t' := by
          rw [ht']
          exact not_long_empty sha3
        refine ensures_map ?_
        rw [streamNode, if_pos (not_le.mp hshort)]
        refine ensures_pure ⟨⟨_, rfl, (embed_of_short sha3 hshort).symm, found_of_short hshort, hs,
          fun _ y n hn => ?_⟩, hsame⟩
        rw [hcount trivial y n hn, refs, selfRef_of_short sha3 hshort, Nat.zero_add]
      · refine ensures_map ((streamNode_embeds hx).mono fun y db₃ _ hy => ?_)
        exact ⟨⟨y, rfl, hy⟩, fun h => absurd h ht'⟩

/-- A word that is not there is not removed. -/
lemma ensures_absent {db : D} {t : Trie} {k : List Nibble} (h : t.delete k = none) :
    Ensures [] (pure none : Prog (Option Item)) db (Deletes sha3 db t k) := by
  refine ensures_pure ?_
  rw [Deletes, h]
  exact ⟨rfl, rfl⟩

/-- A word is removed where the trie and the references follow. -/
lemma deletes_of_yields {db db' : D} {t t' : Trie} {k : List Nibble} {x : Item}
    (h : t.delete k = some t') (ht' : t' ≠ .empty)
    (hx : Yields sha3 db (refs sha3 t) True t' x db') :
    Deletes sha3 db t k (some x) db' := by
  rw [Deletes, h]
  exact ⟨⟨x, rfl, hx⟩, fun h => absurd h ht'⟩

lemma deleteAt_leaf {db : D} {l : List Nibble} {w : Value} (fuel : ℕ) {k : NibbleSlice}
    (hok : Removable db (Patricia.leaf l w).get k.nibbles) :
    Ensures [] (deleteAt sha3 (fuel + 1) (some (item sha3 (.leaf l w))) k) db
      (Deletes sha3 db (.leaf l w) k.nibbles) := by
  rw [item, deleteAt_pair]
  refine ensures_bind (ensures_ofOption (isLeaf_hexPrefix _ _ _) fun _ => ?_)
  by_cases h : l = k.nibbles
  · have hdel : (Patricia.leaf l w).delete k.nibbles = some .empty := by simp [Patricia.delete, h]
    rw [if_pos (by rw [NibbleSlice.beq_iff, nibbles_keyOf]; exact ⟨h, rfl⟩)]
    refine ensures_bind (((killNode_spec (.leaf l w)).and (killNode_lookup _ _)).mono
      fun _ db₁ _ hkill _ => ensures_pure ?_)
    rw [Deletes, hdel]
    refine ⟨⟨_, rfl, rfl, trivial, fun _ x n hn => ?_⟩, fun _ => hkill.2⟩
    rw [hkill.1, hn, refs]
    simp [childRefs]
  · have hp : ¬ l <+: k.nibbles := by
      intro hp
      refine hok.not_behindLeaf ⟨l, hp, h, by simp, fun p' hp' _ => ?_⟩
      by_contra hne
      exact hp' (by simp [Ne.symm hne])
    rw [if_neg (by rw [NibbleSlice.beq_iff, nibbles_keyOf]; exact fun hc => h hc.1),
      if_neg (by rw [NibbleSlice.contains_iff, nibbles_keyOf]; exact hp)]
    exact ensures_absent (by simp [Patricia.delete, h])

/-- The step behind an extension, from the removal below it. -/
lemma deleteAt_ext {db : D} {l : List Nibble} {t : Trie} (ht : (Patricia.ext l t).Canonical)
    (hdb : Stored sha3 db (.ext l t)) (fuel : ℕ) {k : NibbleSlice}
    (h : l <+: k.nibbles → Ensures [] (deleteAt sha3 fuel (some (item sha3 t)) (k.mid l.length)) db
      (Deletes sha3 db t (k.mid l.length).nibbles)) :
    Ensures [] (deleteAt sha3 (fuel + 2) (some (item sha3 (.ext l t))) k) db
      (Deletes sha3 db (.ext l t) k.nibbles) := by
  rw [item, deleteAt_pair]
  refine ensures_bind (ensures_ofOption (isLeaf_hexPrefix _ _ _) fun _ => ?_)
  rw [if_neg (by simp)]
  by_cases hl : l <+: k.nibbles
  · rw [if_pos (by rw [NibbleSlice.contains_iff, nibbles_keyOf]; exact hl), size_keyOf]
    refine ensures_bind ((deleteAtAux_spec hdb.1 fun _ => h hl).mono fun s db₁ hext hs _ => ?_)
    rw [DeletesRef, NibbleSlice.nibbles_mid] at hs
    cases hdel : t.delete (k.nibbles.drop l.length) with
    | none =>
      rw [hdel] at hs
      obtain ⟨rfl, rfl⟩ := hs
      exact ensures_absent (by simp [Patricia.delete, hl, hdel])
    | some t' =>
      rw [hdel] at hs
      obtain ⟨⟨x, rfl, rfl, hfound, hstored, hcount⟩, -⟩ := hs
      have ht' : t' ≠ .empty := (ht.2.2.delete hdel).2 ht.2.1
      have hdel' : (Patricia.ext l t).delete k.nibbles = some (Patricia.graft l t') := by
        simp [Patricia.delete, hl, hdel]
      have hgraft : Patricia.graft l t' ≠ .empty :=
        (Patricia.canonical_graft ht.1 (ht.2.2.delete hdel).1 ht').2
      refine ensures_bind ((killNode_spec (.ext l t)).mono fun _ db₂ hext₂ hkill _ => ?_)
      have hbalance : ∀ y n, ContentStore.refCount db y = n + refs sha3 (.ext l t) y →
          ContentStore.refCount db₂ y = n + refs sha3 t' y := by
        intro y n hn
        have hmid := hcount trivial y (n + selfRef sha3 (.ext l t) y)
          (by rw [hn, refs, childRefs_ext]; omega)
        rw [hkill, hmid]
        omega
      refine ensures_bind ((isTwoItemNode_spec ht' (hfound.mono hext₂)).mono
        fun two db₃ _ htwo _ => ?_)
      obtain ⟨htwo, rfl⟩ := htwo
      by_cases hb : t'.IsBranch
      · rw [if_neg (by rw [htwo]; exact fun h => h hb)]
        refine ensures_pure (deletes_of_yields hdel' hgraft ?_)
        cases t' with
        | branch c v =>
          exact ⟨rfl, ⟨hfound.mono hext₂, hstored.mono hext₂⟩, fun _ => hbalance⟩
        | _ => exact hb.elim
      · rw [if_pos (htwo.mpr hb)]
        refine ensures_map ((graft_spec l ht' hb (hfound.mono hext₂) (hstored.mono hext₂)).mono
          fun y db₄ _ hy => deletes_of_yields hdel' hgraft ⟨hy.1, hy.2.1, fun _ x n hn => ?_⟩)
        exact hy.2.2 trivial x n (hbalance x n hn)
  · rw [if_neg (by rw [NibbleSlice.contains_iff, nibbles_keyOf]; exact hl)]
    exact ensures_absent (by simp [Patricia.delete, hl])

/-- The value of a branch is removed. -/
lemma deleteAt_value {db : D} {c : Nibble → Trie} {w : Value}
    (ht : (Patricia.branch c (some w)).Canonical) (hdb : Stored sha3 db (.branch c (some w)))
    (fuel : ℕ) {k : NibbleSlice} (hk : k.nibbles = []) :
    Ensures [] (deleteAt sha3 (fuel + 1) (some (item sha3 (.branch c (some w)))) k) db
      (Deletes sha3 db (.branch c (some w)) k.nibbles) := by
  have hsize : k.size = 0 := by
    rw [← NibbleSlice.length_nibbles, hk]
    rfl
  have hdel : (Patricia.branch c (some w)).delete k.nibbles = some (collapse c none) := by
    rw [hk]
    rfl
  have hne := (ht.delete hdel).2 trivial
  have hlast : k.size = 0 ∧ ¬ (Item.data (valueBytes (some w))).isEmpty = true :=
    ⟨hsize, by rw [isEmpty_value]; simp⟩
  rw [item_branch, deleteAt_list _ (length_slots sha3 c _)]
  refine ensures_bind (ensures_ofOption (getElem?_value sha3 c _) fun _ => ?_)
  rw [if_pos hlast]
  refine ensures_bind ((killNode_spec (.branch c (some w))).mono fun _ db₁ hext hkill _ => ?_)
  have hbalance : ∀ x n, ContentStore.refCount db x = n + refs sha3 (.branch c (some w)) x →
      ContentStore.refCount db₁ x = n + childRefs sha3 (.branch c none) x := by
    intro x n hn
    rw [hkill, hn, refs, childRefs_branch, childRefs_branch]
    omega
  have hstored := hdb.mono hext
  have hchild : ∀ {s}, Used c (none : Option Value) s → Used c (some w) s := by
    rintro (_ | i) hs
    · exact absurd rfl hs
    · exact hs
  have hexc : ∀ {s}, Used c (none : Option Value) s → slotIndex s ≠ 16 := by
    rintro (_ | i) hs
    · exact absurd rfl hs
    · simp only [slotIndex]
      omega
  obtain ⟨s, hsn, hs⟩ := ht.2.exists_used_ne none
  obtain ⟨i, rfl⟩ := Option.ne_none_iff_exists'.mp hsn
  have hi : Used c (none : Option Value) (some i) := hs
  by_cases hu : ∀ s', Used c (none : Option Value) s' → s' = some i
  · have hused := uniqueInUse_slots sha3 16 hs (hexc hi) (by
      rintro (_ | j) hs' hne'
      · exact absurd rfl hne'
      · exact hu (some j) hs')
    rw [hused]
    dsimp only
    rw [if_pos (slotIndex_ne _)]
    refine ensures_map ((rejig_child (length_slots sha3 c _) (getElem?_slots sha3 c _ i) hi
      (hstored i).1 (hstored i).2).mono fun x db₂ _ hx => ?_)
    refine deletes_of_yields hdel hne ?_
    rw [Patricia.collapse_child hi hu]
    refine ⟨hx.1, hx.2.1, fun _ y n hn => hx.2.2 trivial y n ?_⟩
    rw [hbalance y n hn, childRefs_of_unique sha3 hu]
  · push Not at hu
    obtain ⟨s', hs', hne'⟩ := hu
    have hused := uniqueInUse_slots_two sha3 16 hne' (hchild hs') (hexc hs') hs (hexc hi)
    rw [hused]
    dsimp only
    rw [if_neg (by simp), take_slots]
    refine ensures_pure (deletes_of_yields hdel hne ?_)
    rw [Patricia.collapse_crowded ⟨s', some i, hne', hs', hi⟩]
    exact ⟨rfl, hstored, fun _ => hbalance⟩

/-- The step behind a slot of a branch, from the removal in the slot. -/
lemma deleteAt_slot {db : D} {c : Nibble → Trie} {w : Option Value} {i : Nibble} {r : List Nibble}
    (ht : (Patricia.branch c w).Canonical) (hdb : Stored sha3 db (.branch c w)) (fuel : ℕ)
    {k : NibbleSlice} (hk : k.nibbles = i :: r)
    (hok : Removable db (Patricia.branch c w).get k.nibbles)
    (h : Ensures [] (deleteAt sha3 fuel (some (item sha3 (c i))) (k.mid 1)) db
      (Deletes sha3 db (c i) (k.mid 1).nibbles)) :
    Ensures [] (deleteAt sha3 (fuel + 2) (some (item sha3 (.branch c w))) k) db
      (Deletes sha3 db (.branch c w) k.nibbles) := by
  have hsize : ¬ (k.size = 0 ∧ ¬ (Item.data (valueBytes w)).isEmpty = true) := by
    rw [← NibbleSlice.length_nibbles, hk]
    simp
  have hfirst : k.at? 0 = some i := by
    rw [NibbleSlice.at?_eq, hk]
    rfl
  have hmid : (k.mid 1).nibbles = r := by simp [hk]
  rw [item_branch, deleteAt_list _ (length_slots sha3 c _)]
  refine ensures_bind (ensures_ofOption (getElem?_value sha3 c w) fun _ => ?_)
  rw [if_neg hsize]
  refine ensures_bind (ensures_ofOption hfirst fun _ => ?_)
  refine ensures_bind (ensures_ofOption (getElem?_slots sha3 c w i) fun _ => ?_)
  refine ensures_bind ((deleteAtAux_spec (hdb i).1 fun _ => h).mono fun s db₁ hext hs _ => ?_)
  rw [DeletesRef, hmid] at hs
  cases hdel : (c i).delete r with
  | none =>
    rw [hdel] at hs
    obtain ⟨rfl, rfl⟩ := hs
    exact ensures_absent (by simp [hk, Patricia.delete, hdel])
  | some t' =>
    rw [hdel] at hs
    obtain ⟨⟨x, rfl, rfl, hfound, hstored, hcount⟩, hsame⟩ := hs
    have hdel' : (Patricia.branch c w).delete k.nibbles =
        some (collapse (Function.update c i t') w) := by
      simp [hk, Patricia.delete, hdel]
    have hne := (ht.delete hdel').2 trivial
    refine ensures_bind (((killNode_spec (.branch c w)).and (killNode_lookup _ _)).mono
      fun _ db₂ hext₂ hkill _ => ?_)
    have hbalance : ∀ y n, ContentStore.refCount db y = n + refs sha3 (.branch c w) y →
        ContentStore.refCount db₂ y =
          n + childRefs sha3 (.branch (Function.update c i t') w) y := by
      intro y n hn
      have hupdate := childRefs_update sha3 c w w i t' y
      have hle := refs_le_childRefs sha3 c w i y
      rw [refs] at hn
      have hafter := hcount trivial y
        (n + selfRef sha3 (.branch c w) y + childRefs sha3 (.branch c w) y - refs sha3 (c i) y)
        (by omega)
      rw [hkill.1, hafter]
      omega
    have hstored₂ : Stored sha3 db₂ (.branch (Function.update c i t') w) :=
      stored_update ((hdb.mono hext).mono hext₂) (hfound.mono hext₂) (hstored.mono hext₂)
    obtain ⟨s, hsi, hs⟩ := ht.2.exists_used_ne (some i)
    have hsu : Used (Function.update c i t') w s := (Patricia.used_update_of_ne hsi).mpr hs
    rw [set_slots]
    dsimp only
    by_cases hu : ∀ s', Used (Function.update c i t') w s' → s' = s
    · rw [uniqueInUse_slots sha3 255 hsu (slotIndex_ne s) fun s' hs' _ => hu s' hs',
        if_neg (slotIndex_ne s)]
      cases s with
      | some j =>
        refine ensures_map ((rejig_child (length_slots sha3 _ _) (getElem?_slots sha3 _ w j) hsu
          (hstored₂ j).1 (hstored₂ j).2).mono fun x db₃ _ hx => ?_)
        refine deletes_of_yields hdel' hne ?_
        rw [Patricia.collapse_child hsu hu]
        refine ⟨hx.1, hx.2.1, fun _ y n hn => hx.2.2 trivial y n ?_⟩
        rw [hbalance y n hn, childRefs_of_unique sha3 hu]
      | none =>
        obtain ⟨v, rfl⟩ := Option.ne_none_iff_exists'.mp hs
        have hempty : t' = .empty := by
          by_contra hne'
          cases hu (some i) (Patricia.used_update_self.mpr hne')
        -- The value is the only word left, and nothing was written on the way.
        have hlone : LoneValue (Patricia.branch c (some v)).get k.nibbles [] v := by
          refine ⟨rfl, List.nil_prefix, by simp [hk], ?_, fun p' hp' _ => ?_⟩
          · rw [ne_eq, ← Patricia.delete_eq_none, hdel']
            simp
          · by_contra hcon
            push Not at hcon
            have hget := Patricia.get_delete hdel' p'
            rw [if_neg (Ne.symm hcon.2), Patricia.collapse_value hu, Patricia.get_leaf,
              if_neg (Ne.symm hcon.1)] at hget
            exact hp' hget.symm
        have hv : Harmless db₂ v := by
          obtain ⟨hash, hhash, hcnt⟩ := hok.harmless [] v hlone
          exact ⟨hash, hhash, by rwa [hkill.2, hsame hempty]⟩
        refine ensures_map ((rejig_value (length_slots sha3 _ _)
          (getElem?_value sha3 _ (some v)) hv).mono fun x db₃ _ hx => ?_)
        obtain ⟨rfl, rfl⟩ := hx
        refine deletes_of_yields hdel' hne ?_
        rw [Patricia.collapse_value hu]
        refine ⟨rfl, trivial, fun _ y n hn => ?_⟩
        have hnone : childRefs sha3 (.branch (Function.update c i t') (some v)) y = 0 := by
          rw [childRefs_branch]
          apply Finset.sum_eq_zero
          intro j _
          have hj : Function.update c i t' j = .empty := by
            by_contra hj
            cases hu (some j) hj
          rw [hj, refs_empty]
        rw [hbalance y n hn, hnone]
        rfl
    · push Not at hu
      obtain ⟨s', hs', hne'⟩ := hu
      rw [uniqueInUse_slots_two sha3 255 hne' hs' (slotIndex_ne s') hsu (slotIndex_ne s),
        if_pos rfl]
      refine ensures_pure (deletes_of_yields hdel' hne ?_)
      rw [Patricia.collapse_crowded ⟨s', s, hne', hs', hsu⟩]
      exact ⟨rfl, hstored₂, fun _ => hbalance⟩

/-- `deleteAt` removes the word. -/
theorem deleteAt_spec {t : Trie} (ht : t.Canonical) {db : D} (hdb : Stored sha3 db t) {fuel : ℕ}
    {k : NibbleSlice} (hk : k.Valid) (hfuel : 2 * k.size + 1 ≤ fuel)
    (hok : Removable db t.get k.nibbles) :
    Ensures [] (deleteAt sha3 fuel (some (item sha3 t)) k) db (Deletes sha3 db t k.nibbles) := by
  induction t generalizing fuel k with
  | empty =>
    obtain ⟨f, rfl⟩ : ∃ f, fuel = f + 1 := ⟨fuel - 1, by omega⟩
    exact ensures_absent rfl
  | leaf l w =>
    obtain ⟨f, rfl⟩ : ∃ f, fuel = f + 1 := ⟨fuel - 1, by omega⟩
    exact deleteAt_leaf f hok
  | ext l t ih =>
    by_cases hl : l <+: k.nibbles
    · obtain ⟨r, hr⟩ := hl
      have hlen : l.length + r.length = k.size := by
        rw [← NibbleSlice.length_nibbles, ← hr, List.length_append]
      have hpos := List.length_pos_of_ne_nil ht.1
      obtain ⟨f, rfl⟩ : ∃ f, fuel = f + 2 := ⟨fuel - 2, by omega⟩
      have hmid : (k.mid l.length).nibbles = r := by
        rw [NibbleSlice.nibbles_mid, ← hr, List.drop_left]
      refine deleteAt_ext ht hdb f fun _ => ih ht.2.2 hdb.2 (hk.mid (i := l.length) (by omega))
        (by rw [NibbleSlice.size_mid]; omega) ?_
      rw [hmid]
      rw [← hr] at hok
      exact hok.of_append fun x => Patricia.get_ext_append l x t
    · obtain ⟨f, rfl⟩ : ∃ f, fuel = f + 1 := ⟨fuel - 1, by omega⟩
      rw [item, deleteAt_pair]
      refine ensures_bind (ensures_ofOption (isLeaf_hexPrefix _ _ _) fun _ => ?_)
      rw [if_neg (by simp), if_neg (by rw [NibbleSlice.contains_iff, nibbles_keyOf]; exact hl)]
      exact ensures_absent (by simp [Patricia.delete, hl])
  | branch c w ih =>
    rcases hkn : k.nibbles with _ | ⟨i, r⟩
    · obtain ⟨f, rfl⟩ : ∃ f, fuel = f + 1 := ⟨fuel - 1, by omega⟩
      cases w with
      | some w =>
        rw [← hkn]
        exact deleteAt_value ht hdb f hkn
      | none =>
        obtain ⟨hc, a, b, hab, ha, hb⟩ := ht
        obtain ⟨i, rfl⟩ : ∃ i, a = some i :=
          Option.ne_none_iff_exists'.mp fun h => absurd (h ▸ ha) (by simp [Used])
        obtain ⟨j, rfl⟩ : ∃ j, b = some j :=
          Option.ne_none_iff_exists'.mp fun h => absurd (h ▸ hb) (by simp [Used])
        obtain ⟨x, v, hx⟩ := (hc i).exists_get ha
        obtain ⟨y, u, hy⟩ := (hc j).exists_get hb
        refine absurd ⟨?_, i, j, x, y, fun h => hab (congrArg some h), ?_, ?_⟩ hok.not_branchPoint
        · rw [hkn]
          rfl
        · rw [hkn, List.nil_append, Patricia.get_branch_cons, hx]
          simp
        · rw [hkn, List.nil_append, Patricia.get_branch_cons, hy]
          simp
    · have hsize : k.size = r.length + 1 := by
        rw [← NibbleSlice.length_nibbles, hkn]
        rfl
      have hmid : (k.mid 1).nibbles = r := by simp [hkn]
      obtain ⟨f, rfl⟩ : ∃ f, fuel = f + 2 := ⟨fuel - 2, by omega⟩
      rw [← hkn]
      refine deleteAt_slot ht hdb f hkn hok (ih i (ht.1 i) (hdb i).2 (hk.mid (i := 1) (by omega))
        (by rw [NibbleSlice.size_mid]; omega) ?_)
      rw [hmid]
      rw [hkn] at hok
      exact Removable.of_append (l := [i]) hok fun x => rfl

/-- `remove` takes the word out of the stored trie; a word that is not there leaves
the root and the store as they are. -/
theorem remove_spec {t : Trie} (ht : t.Canonical) {db : D} (hdb : Rooted sha3 db t) (key : Bytes)
    (hok : Removable db t.get (asNibbles key)) :
    Ensures [] (remove sha3 (digest sha3 t) key) db fun r db' =>
      match t.delete (asNibbles key) with
      | none => r = digest sha3 t ∧ db' = db
      | some t' => Replaces sha3 db t True t' r db' := by
  refine ensures_bind ((node_spec hdb).mono fun r db₁ _ hr _ => ?_)
  obtain ⟨rfl, rfl⟩ := hr
  have hk : NibbleSlice.Valid ⟨key, 0⟩ := Nat.zero_le _
  have hsize : 2 * NibbleSlice.size ⟨key, 0⟩ + 1 ≤ depth key := by
    change 2 * (key.length * 2 - 0) + 1 ≤ 4 * key.length + 8
    omega
  refine ensures_bind ((deleteAt_spec ht hdb.2 hk hsize hok).mono fun b db₂ _ hb _ => ?_)
  unfold Deletes at hb
  change match t.delete (asNibbles key) with | none => _ | some t' => _ at hb
  cases hdel : t.delete (asNibbles key) with
  | none =>
    rw [hdel] at hb
    obtain ⟨rfl, rfl⟩ := hb
    exact ensures_pure ⟨rfl, rfl⟩
  | some t' =>
    rw [hdel] at hb
    obtain ⟨⟨x, rfl, hx⟩, -⟩ := hb
    exact replaceRoot_spec hx

end Deletion

end TrieDB
end XChain
