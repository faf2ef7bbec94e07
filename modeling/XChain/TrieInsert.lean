import XChain.TrieNode

/-!
# Insertion refines the abstract trie

`mergeAt` turns the item of a canonical trie into the item of the trie with the
new word, and leaves every node of the new trie in the store. Where the new word
is no proper beginning of an old one, it also keeps the reference counts in step:
what stood in the old trie is released and what stands in the new one is counted.
-/
namespace XChain
namespace TrieDB

open StoreProg
open Patricia (shared wrap single fork attach)

variable {sha3 : Bytes → H256} {D : Type} [LawfulContentStore H256 Bytes D []]

/-- The item is that of `t`, whose inner nodes are stored; if `exact`, the
references counted by `before` are exchanged for those inside `t`. -/
def Yields (sha3 : Bytes → H256) (db : D) (before : H256 → ℕ) (exact : Prop) (t : Trie)
    (x : Item) (db' : D) : Prop :=
  x = item sha3 t ∧ Stored sha3 db' t ∧
    (exact → ∀ h n, ContentStore.refCount db h = n + before h →
      ContentStore.refCount db' h = n + childRefs sha3 t h)

/-- The same for what stands for `t` inside its parent. -/
def Embeds (sha3 : Bytes → H256) (db : D) (before : H256 → ℕ) (exact : Prop) (t : Trie)
    (x : Item) (db' : D) : Prop :=
  x = embed sha3 (item sha3 t) ∧ Found sha3 db' t ∧ Stored sha3 db' t ∧
    (exact → ∀ h n, ContentStore.refCount db h = n + before h →
      ContentStore.refCount db' h = n + refs sha3 t h)

/-- Streaming a node into its parent counts it. -/
lemma streamNode_embeds {db db₁ : D} {before : H256 → ℕ} {exact : Prop} {t : Trie} {x : Item}
    (h : Yields sha3 db before exact t x db₁) :
    Ensures [] (streamNode sha3 x) db₁ (Embeds sha3 db before exact t) := by
  obtain ⟨rfl, hstored, hcount⟩ := h
  refine (streamNode_spec t).mono fun y db' hext hpost => ?_
  obtain ⟨rfl, hfound, hrefs⟩ := hpost
  refine ⟨rfl, hfound, hstored.mono hext, fun hexact h n hn => ?_⟩
  rw [hrefs, hcount hexact h n hn, refs]
  omega

lemma place_empty (db : D) {k : NibbleSlice} (hk : k.Valid) (v : Value) :
    Ensures [] (place sha3 (.data []) k v.val) db
      (Yields sha3 db (fun _ => 0) True (.leaf k.nibbles v)) := by
  refine ensures_bind ((killNode_spec .empty).mono fun _ db₁ _ hkill _ => ?_)
  refine ensures_bind (ensures_ofOption (hexPrefixEncode_all k true hk 0) fun _ => ?_)
  refine ensures_pure ⟨by simp [item], trivial, fun _ h n hn => ?_⟩
  rw [hkill, hn, selfRef_of_short sha3 (not_long_empty sha3)]
  rfl

lemma place_leaf (db : D) (l : List Nibble) (w : Value) (k : NibbleSlice) (v : Value) :
    Ensures [] (place sha3 (item sha3 (.leaf l w)) k v.val) db
      (Yields sha3 db (refs sha3 (.leaf l w)) True (.leaf l v)) := by
  refine ensures_bind ((killNode_spec (.leaf l w)).mono fun _ db₁ _ hkill _ => ?_)
  refine ensures_pure ⟨rfl, trivial, fun _ h n hn => ?_⟩
  rw [hkill, hn, refs]
  simp [childRefs]

lemma place_list {l : List Item} (hl : l.length = 17) (k : NibbleSlice) (s : Bytes) :
    place sha3 (.list l) k s = (do
      killNode (.list l) (sha3 (Rlp.encode (.list l)))
      pure (.list (l.take 16 ++ [.data s]))) := by
  match l, hl with
  | _ :: _ :: _ :: l, hl =>
    unfold place
    simp only [Item.isEmpty, assert, hl]
    rfl

lemma take_slots (c : Nibble → Trie) (x : Item) :
    ((List.ofFn fun i => embed sha3 (item sha3 (c i))) ++ [x]).take 16 =
      List.ofFn fun i => embed sha3 (item sha3 (c i)) := by
  rw [List.take_append_of_le_length (by simp), List.take_of_length_le (by simp)]

/-- A value in the slot of a branch; the node may be one that was never stored. -/
lemma place_branch (db : D) (c : Nibble → Trie) (w : Option Value) (k : NibbleSlice) (v : Value)
    (hstored : Stored sha3 db (.branch c w)) :
    Ensures [] (place sha3 (item sha3 (.branch c w)) k v.val) db
      (Yields sha3 db (refs sha3 (.branch c w)) True (.branch c (some v))) := by
  rw [item_branch, place_list (length_slots sha3 c _), take_slots]
  refine ensures_bind ((killNode_spec (.branch c w)).mono fun _ db₁ hext hkill _ => ?_)
  refine ensures_pure ⟨rfl, hstored.mono hext, fun _ h n hn => ?_⟩
  rw [hkill, hn, refs, childRefs_branch, childRefs_branch]
  omega

lemma mergeAt_list (fuel : ℕ) {l : List Item} (hl : l.length = 17) (hash : H256)
    (k : NibbleSlice) (v : Bytes) (inLine : Bool) :
    mergeAt sha3 (fuel + 1) (.list l) hash k v inLine =
      (if k.size = 0 then place sha3 (.list l) k v
      else do
        (if inLine then pure () else killNode (.list l) hash)
        let n ← ofOption (k.at? 0)
        let slot ← ofOption l[n.val]?
        let slot' ← mergeAtAux sha3 fuel slot (k.mid 1) v
        pure (.list (l.set n.val slot'))) := by
  match l, hl with
  | _ :: _ :: _ :: l, hl =>
    rw [mergeAt]
    · simp only [Item.isEmpty, assert, hl]
      rfl
    · simp

lemma mergeAt_pair (fuel : ℕ) (a b : Item) (hash : H256) (k : NibbleSlice) (v : Bytes)
    (inLine : Bool) :
    mergeAt sha3 (fuel + 1) (.list [a, b]) hash k v inLine = (do
      let key := keyOf (.list [a, b])
      let leaf ← ofOption (isLeaf (.list [a, b]))
      if key == k ∧ leaf then place sha3 (.list [a, b]) k v
      else if k.contains key ∧ ¬ leaf then do
        (if inLine then pure () else killNode (.list [a, b]) hash)
        let b' ← mergeAtAux sha3 fuel b (k.mid key.size) v
        pure (.list [a, b'])
      else do
        let sh := k.shared key
        let split ← (if sh ≠ 0 then cleve sha3 (.list [a, b]) sh
          else branch sha3 (.list [a, b]))
        mergeAt sha3 fuel split (sha3 (Rlp.encode split)) k v true) := rfl

/-- An item that is empty or inlined is merged in place. -/
lemma mergeAtAux_short (fuel : ℕ) {t : Trie} (ht : ¬ Long sha3 t) (k : NibbleSlice) (v : Bytes) :
    mergeAtAux sha3 (fuel + 1) (embed sha3 (item sha3 t)) k v = (do
      let b ← mergeAt sha3 fuel (item sha3 t) (digest sha3 t) k v true
      streamNode sha3 b) := by
  have hcond : ¬ (¬ (item sha3 t).isList = true ∧ ¬ (item sha3 t).isEmpty = true) := by
    rintro ⟨hlist, hempty⟩
    rw [isEmpty_item] at hempty
    exact hlist (isList_item sha3 hempty)
  rw [embed_of_short sha3 ht, mergeAtAux, if_neg hcond]
  rfl

/-- A hashed item is looked up and merged as a stored node. -/
lemma mergeAtAux_long (fuel : ℕ) {t : Trie} (ht : Long sha3 t) (k : NibbleSlice) (v : Bytes) :
    mergeAtAux sha3 (fuel + 1) (embed sha3 (item sha3 t)) k v = (do
      let r ← deref (embed sha3 (item sha3 t))
      let r ← ofOption r
      let b ← mergeAt sha3 fuel r (sha3 (Rlp.encode r)) k v false
      streamNode sha3 b) := by
  have hne : t ≠ .empty := by
    rintro rfl
    exact not_long_empty sha3 ht
  have hcond : ¬ (embed sha3 (item sha3 t)).isList = true ∧
      ¬ (embed sha3 (item sha3 t)).isEmpty = true := by
    rw [isList_embed sha3 hne, isEmpty_embed]
    exact ⟨fun h => h ht, hne⟩
  rw [mergeAtAux, if_pos hcond]

/-- `mergeAt` turns `t` into `t'`, whether `t` is stored or inlined. -/
def Merges (sha3 : Bytes → H256) (D : Type) [LawfulContentStore H256 Bytes D []] (fuel : ℕ)
    (t : Trie) (k : NibbleSlice) (v : Value) (exact : Prop) (t' : Trie) : Prop :=
  ∀ (db : D) (inLine : Bool), Stored sha3 db t → (inLine = true → ¬ Long sha3 t) →
    Ensures [] (mergeAt sha3 fuel (item sha3 t) (digest sha3 t) k v.val inLine) db
      (Yields sha3 db (refs sha3 t) exact t')

lemma mergeAtAux_spec {fuel : ℕ} {t t' : Trie} {k : NibbleSlice} {v : Value} {exact : Prop}
    (h : Merges sha3 D fuel t k v exact t') (db : D) (hfound : Found sha3 db t)
    (hstored : Stored sha3 db t) :
    Ensures [] (mergeAtAux sha3 (fuel + 1) (embed sha3 (item sha3 t)) k v.val) db
      (Embeds sha3 db (refs sha3 t) exact t') := by
  by_cases hl : Long sha3 t
  · rw [mergeAtAux_long fuel hl]
    refine ensures_bind ((deref_spec hl hfound).mono fun r db₁ _ hr _ => ?_)
    obtain ⟨rfl, rfl⟩ := hr
    refine ensures_bind (ensures_ofOption rfl fun _ => ?_)
    exact ensures_bind ((h db₁ false hstored (by simp)).mono fun x db₂ _ hx _ =>
      streamNode_embeds hx)
  · rw [mergeAtAux_short fuel hl]
    exact ensures_bind ((h db true hstored fun _ => hl).mono fun x db₁ _ hx _ =>
      streamNode_embeds hx)

lemma merges_empty (fuel : ℕ) {k : NibbleSlice} (hk : k.Valid) (v : Value) :
    Merges sha3 D (fuel + 1) .empty k v True (.leaf k.nibbles v) := by
  intro db inLine _ _
  refine (place_empty db hk v).mono fun x db' _ hx => ?_
  obtain ⟨rfl, hs, hcount⟩ := hx
  refine ⟨rfl, hs, fun _ h n hn => hcount trivial h n ?_⟩
  rw [hn, refs_empty]

lemma Yields.weaken {db db' : D} {before : H256 → ℕ} {e e' : Prop} {t : Trie} {x : Item}
    (h : Yields sha3 db before e t x db') (he : e' → e) : Yields sha3 db before e' t x db' :=
  ⟨h.1, h.2.1, fun he' => h.2.2 (he he')⟩

lemma Yields.trans {db db₁ db₂ : D} {before : H256 → ℕ} {e e' : Prop} {t t' : Trie} {x y : Item}
    (h : Yields sha3 db before e t x db₁) (h' : Yields sha3 db₁ (childRefs sha3 t) e' t' y db₂) :
    Yields sha3 db before (e ∧ e') t' y db₂ :=
  ⟨h'.1, h'.2.1, fun he x n hn => h'.2.2 he.2 x n (h.2.2 he.1 x n hn)⟩

/-- The release of a node that is not in line. -/
lemma release_spec (db : D) (t : Trie) (hash : H256) (inLine : Bool)
    (hhash : inLine = false → hash = digest sha3 t) :
    Ensures [] (if inLine then pure () else killNode (item sha3 t) hash) db fun _ db' =>
      ∀ x n, ContentStore.refCount db x =
          n + (if inLine then childRefs sha3 t x else refs sha3 t x) →
        ContentStore.refCount db' x = n + childRefs sha3 t x := by
  cases inLine with
  | true => exact ensures_pure fun x n hn => by simpa using hn
  | false =>
    rw [if_neg Bool.false_ne_true, hhash rfl]
    refine (killNode_spec t).mono fun _ db' _ hkill x n hn => ?_
    rw [hkill, hn, if_neg Bool.false_ne_true, refs]
    omega

/-- Descent into the slot of a branch, which may be a node that was never stored. -/
lemma mergeAt_branch {fuel : ℕ} {c : Nibble → Trie} {w : Option Value} {i : Nibble}
    {r : List Nibble} {k : NibbleSlice} {v : Value} {exact : Prop} {t' : Trie}
    (hk : k.nibbles = i :: r) (h : Merges sha3 D fuel (c i) (k.mid 1) v exact t') (db : D)
    (hash : H256) (inLine : Bool) (hhash : inLine = false → hash = digest sha3 (.branch c w))
    (hstored : Stored sha3 db (.branch c w)) :
    Ensures [] (mergeAt sha3 (fuel + 2) (item sha3 (.branch c w)) hash k v.val inLine) db
      (Yields sha3 db (fun x => if inLine then childRefs sha3 (.branch c w) x
        else refs sha3 (.branch c w) x) exact (.branch (Function.update c i t') w)) := by
  have hsize : ¬ k.size = 0 := by
    rw [← NibbleSlice.length_nibbles, hk]
    simp
  have hfirst : k.at? 0 = some i := by
    rw [NibbleSlice.at?_eq, hk]
    rfl
  rw [item_branch, mergeAt_list _ (length_slots sha3 c _), if_neg hsize]
  refine ensures_bind ((release_spec db (.branch c w) hash inLine hhash).mono
    fun _ db₁ hext hcount _ => ?_)
  have hstored₁ := hstored.mono hext
  refine ensures_bind (ensures_ofOption hfirst fun _ => ?_)
  refine ensures_bind (ensures_ofOption (getElem?_slots sha3 c w i) fun _ => ?_)
  refine ensures_bind ((mergeAtAux_spec h db₁ (hstored₁ i).1 (hstored₁ i).2).mono
    fun y db₂ hext₂ hy _ => ?_)
  obtain ⟨rfl, hfound', hstored', hcount'⟩ := hy
  rw [set_slots]
  refine ensures_pure ⟨rfl, stored_update (hstored₁.mono hext₂) hfound' hstored',
    fun hexact x n hn => ?_⟩
  have hupdate := childRefs_update sha3 c w w i t' x
  have hslot := refs_le_childRefs sha3 c w i x
  have hbefore := hcount x n hn
  have hafter := hcount' hexact x (n + childRefs sha3 (.branch c w) x - refs sha3 (c i) x)
    (by omega)
  omega

/-- Descent behind the label of an extension, which may be a node that was never stored. -/
lemma mergeAt_ext {fuel : ℕ} {l : List Nibble} {t t' : Trie} {k : NibbleSlice} {v : Value}
    {exact : Prop} (hl : l <+: k.nibbles)
    (h : Merges sha3 D fuel t (k.mid l.length) v exact t') (db : D) (hash : H256) (inLine : Bool)
    (hhash : inLine = false → hash = digest sha3 (.ext l t))
    (hstored : Stored sha3 db (.ext l t)) :
    Ensures [] (mergeAt sha3 (fuel + 2) (item sha3 (.ext l t)) hash k v.val inLine) db
      (Yields sha3 db (fun x => if inLine then childRefs sha3 (.ext l t) x
        else refs sha3 (.ext l t) x) exact (.ext l t')) := by
  rw [item, mergeAt_pair]
  refine ensures_bind (ensures_ofOption (isLeaf_hexPrefix _ _ _) fun _ => ?_)
  rw [if_neg (by simp), if_pos (by simpa [NibbleSlice.contains_iff] using hl)]
  refine ensures_bind ((release_spec db (.ext l t) hash inLine hhash).mono
    fun _ db₁ hext hcount _ => ?_)
  have hstored₁ := hstored.mono hext
  rw [size_keyOf]
  refine ensures_bind ((mergeAtAux_spec h db₁ hstored₁.1 hstored₁.2).mono
    fun y db₂ _ hy _ => ?_)
  obtain ⟨rfl, hfound', hstored', hcount'⟩ := hy
  refine ensures_pure ⟨rfl, ⟨hfound', hstored'⟩, fun hexact x n hn => ?_⟩
  rw [childRefs_ext]
  exact hcount' hexact x n (hcount x n hn)

/-- Descent as a node of the trie. -/
lemma Merges.of_descent {fuel : ℕ} {t t' : Trie} {k : NibbleSlice} {v : Value} {exact : Prop}
    (h : ∀ (db : D) (hash : H256) (inLine : Bool), (inLine = false → hash = digest sha3 t) →
      Stored sha3 db t → Ensures [] (mergeAt sha3 fuel (item sha3 t) hash k v.val inLine) db
        (Yields sha3 db (fun x => if inLine then childRefs sha3 t x else refs sha3 t x) exact t')) :
    Merges sha3 D fuel t k v exact t' := by
  intro db inLine hstored hshort
  refine (h db _ inLine (fun _ => rfl) hstored).mono fun x db' _ hx => ?_
  refine ⟨hx.1, hx.2.1, fun hexact y n hn => hx.2.2 hexact y n ?_⟩
  cases inLine with
  | false => simpa using hn
  | true =>
    simp only [if_true, hn, refs, selfRef_of_short sha3 (hshort rfl), Nat.zero_add]

/-- A word that goes to a free slot of a branch; the branch was never stored. -/
lemma mergeAt_attach (fuel : ℕ) {c : Nibble → Trie} {w : Option Value} {k : NibbleSlice}
    (hk : k.Valid) (v : Value) (hfree : Patricia.Free c w k.nibbles) (db : D) (hash : H256)
    (hstored : Stored sha3 db (.branch c w)) :
    Ensures [] (mergeAt sha3 (fuel + 3) (item sha3 (.branch c w)) hash k v.val true) db
      (Yields sha3 db (childRefs sha3 (.branch c w)) (k.nibbles ≠ [])
        (attach (.branch c w) k.nibbles v)) := by
  rcases hkn : k.nibbles with _ | ⟨i, r⟩
  · have hsize : k.size = 0 := by
      rw [← NibbleSlice.length_nibbles, hkn]
      rfl
    rw [item_branch, mergeAt_list _ (length_slots sha3 c _), if_pos hsize]
    refine (place_branch db c w k v hstored).mono fun x db' _ hx => ?_
    exact ⟨hx.1, hx.2.1, fun hne => absurd rfl hne⟩
  · rw [hkn] at hfree
    have hslot : c i = .empty := hfree
    have hsize : 1 ≤ k.size := by
      rw [← NibbleSlice.length_nibbles, hkn]
      simp
    have hrest : (k.mid 1).nibbles = r := by simp [hkn]
    have hmerge : Merges sha3 D (fuel + 1) .empty (k.mid 1) v True (.leaf (k.mid 1).nibbles v) :=
      merges_empty fuel (hk.mid hsize) v
    rw [← hslot, hrest] at hmerge
    have h := mergeAt_branch (w := w) hkn hmerge db hash true (by simp) hstored
    refine h.mono fun x db' _ hx => hx.weaken fun _ => trivial

/-- Splitting the label of a two-item node; `u'` is the node with the lower part. -/
lemma cleve_spec {u u' : Trie} {leaf : Bool} {l : List Nibble} {b : Item} {s : ℕ} (db : D)
    (hu : item sha3 u = .list [.data (hexPrefix leaf l), b])
    (hu' : item sha3 u' = .list [.data (hexPrefix leaf (l.drop s)), b])
    (hs : s ≠ 0) (hsl : s ≤ l.length) (hstored : Stored sha3 db u')
    (hrefs : ∀ x, childRefs sha3 u' x = childRefs sha3 u x) :
    Ensures [] (cleve sha3 (item sha3 u) s) db
      (Yields sha3 db (refs sha3 u) True (.ext (l.take s) u')) := by
  refine ensures_bind ((killNode_spec u).mono fun _ db₁ hext hkill _ => ?_)
  have hsize : s ≤ (keyOf (.list [.data (hexPrefix leaf l), b])).size := by
    rw [size_keyOf]
    exact hsl
  have hlow := hexPrefixEncode_all _ leaf (valid_keyOf l b leaf) s
  have hhigh := hexPrefixEncode_eq _ false (valid_keyOf l b leaf) 0 s hsize
  rw [nibbles_keyOf] at hlow hhigh
  rw [hu]
  refine ensures_bind (ensures_assert ⟨hs, hsize⟩ fun _ => ?_)
  refine ensures_bind (ensures_ofOption (isLeaf_hexPrefix _ _ _) fun _ => ?_)
  refine ensures_bind (ensures_ofOption hlow fun _ => ?_)
  refine ensures_bind (ensures_ofOption hhigh fun _ => ?_)
  rw [← hu']
  refine ensures_bind ((streamNode_spec u').mono fun y db₂ hext₂ hy _ => ?_)
  obtain ⟨rfl, hfound, hcount⟩ := hy
  refine ensures_pure ⟨by simp [item], ⟨hfound, (hstored.mono hext).mono hext₂⟩,
    fun _ x n hn => ?_⟩
  rw [hcount, hkill, hn, childRefs_ext, refs, refs, hrefs]
  omega

lemma single_slots (i : Nibble) (u : Trie) :
    (List.replicate 16 (Item.data [])).set i.val (embed sha3 (item sha3 u)) ++ [.data []] =
      (List.ofFn fun j => embed sha3 (item sha3 (single i u j))) ++
        [Item.data (valueBytes none)] := by
  have hnone : (List.ofFn fun _ : Nibble => embed sha3 (item sha3 .empty)) =
      List.replicate 16 (Item.data []) := by
    rw [embed_of_short sha3 (not_long_empty sha3)]
    exact List.ofFn_const 16 (Item.data [])
  have h := set_slots sha3 (fun _ => .empty) none i u
  rw [hnone, List.set_append_left _ _ (by simp)] at h
  exact h

lemma childRefs_single (i : Nibble) (u : Trie) (v : Option Value) (x : H256) :
    childRefs sha3 (.branch (single i u) v) x = refs sha3 u x := by
  have h := childRefs_update sha3 (fun _ => .empty) v v i u x
  rw [childRefs_branch sha3 (fun _ => .empty)] at h
  simpa [single] using h

lemma stored_single {db : D} {i : Nibble} {u : Trie} {v : Option Value} (hfound : Found sha3 db u)
    (hstored : Stored sha3 db u) : Stored sha3 db (.branch (single i u) v) := by
  have hempty : Stored sha3 db (.branch (fun _ => .empty) v) :=
    fun _ => ⟨found_of_short (not_long_empty sha3), trivial⟩
  exact stored_update hempty hfound hstored

/-- A branch in place of a two-item node whose remainder `u'` is a node again. -/
lemma branch_stream {u u' : Trie} {leaf : Bool} {i : Nibble} {l : List Nibble} {b : Item} (db : D)
    (hu : item sha3 u = .list [.data (hexPrefix leaf (i :: l)), b])
    (hu' : item sha3 u' = .list [.data (hexPrefix leaf l), b]) (hnode : leaf = true ∨ l ≠ [])
    (hstored : Stored sha3 db u') (hrefs : ∀ x, childRefs sha3 u' x = childRefs sha3 u x) :
    Ensures [] (branch sha3 (item sha3 u)) db
      (Yields sha3 db (refs sha3 u) True (.branch (single i u') none)) := by
  have hkill : Ensures [] (killNode (item sha3 u) (digest sha3 u)) db fun _ db' => ∀ x,
      ContentStore.refCount db' x = ContentStore.refCount db x - selfRef sha3 u x :=
    killNode_spec u
  rw [digest, hu] at hkill
  rw [hu]
  refine ensures_bind (hkill.mono fun _ db₁ hext hkill _ => ?_)
  refine ensures_bind (ensures_ofOption (isLeaf_hexPrefix _ _ _) fun _ => ?_)
  have hsize : ¬ (keyOf (.list [.data (hexPrefix leaf (i :: l)), b])).size = 0 := by simp
  have hfirst : (keyOf (.list [.data (hexPrefix leaf (i :: l)), b])).at? 0 = some i := by
    simp [NibbleSlice.at?_eq]
  have hmany : leaf = true ∨ 1 < (keyOf (.list [.data (hexPrefix leaf (i :: l)), b])).size := by
    rcases hnode with h | h
    · exact Or.inl h
    · exact Or.inr (by simpa [List.length_pos_iff] using h)
  have hlabel := hexPrefixEncode_all _ leaf ((valid_keyOf (i :: l) b leaf).mid (i := 1) (by simp)) 0
  simp only [NibbleSlice.nibbles_mid, nibbles_keyOf, List.drop_one, List.tail_cons,
    List.drop_zero] at hlabel
  rw [if_neg hsize]
  refine ensures_bind (ensures_ofOption hfirst fun _ => ?_)
  rw [if_pos hmany]
  refine ensures_bind (ensures_bind (ensures_ofOption hlabel fun _ => ?_))
  rw [← hu']
  refine (streamNode_spec u').mono fun y db₂ hext₂ hy _ => ?_
  obtain ⟨rfl, hfound, hcount⟩ := hy
  rw [single_slots]
  refine ensures_pure ⟨rfl, stored_single hfound ((hstored.mono hext).mono hext₂),
    fun _ x n hn => ?_⟩
  rw [hcount, hkill, hn, childRefs_single, refs, refs, hrefs]
  omega

lemma branch_leaf (db : D) (l : List Nibble) (w : Value) :
    Ensures [] (branch sha3 (item sha3 (.leaf l w))) db
      (Yields sha3 db (refs sha3 (.leaf l w)) True (fork (.leaf l w))) := by
  cases l with
  | cons i l =>
    exact branch_stream db rfl (by rfl : item sha3 (.leaf l w) = _) (Or.inl rfl) trivial (fun _ => rfl)
  | nil =>
    refine ensures_bind ((killNode_spec (.leaf [] w)).mono fun _ db₁ hext hkill _ => ?_)
    refine ensures_bind (ensures_ofOption (isLeaf_hexPrefix _ _ _) fun _ => ?_)
    have hsize : (keyOf (.list [.data (hexPrefix true []), .data w.val])).size = 0 :=
      size_keyOf _ _ _
    rw [if_pos hsize]
    refine ensures_bind (ensures_assert rfl fun _ => ensures_pure ⟨?_, ?_, fun _ x n hn => ?_⟩)
    · have h := embed_of_short sha3 (not_long_empty sha3)
      simp only [fork, item_branch, h, valueBytes, Option.elim_some]
      rw [List.ofFn_const]
      rfl
    · exact fun _ => ⟨found_of_short (not_long_empty sha3), trivial⟩
    · rw [hkill, hn, refs, fork, childRefs_branch]
      simp [childRefs]

lemma branch_ext (db : D) {l : List Nibble} {t : Trie} (hl : l ≠ [])
    (hstored : Stored sha3 db (.ext l t)) :
    Ensures [] (branch sha3 (item sha3 (.ext l t))) db
      (Yields sha3 db (refs sha3 (.ext l t)) True (fork (.ext l t))) := by
  match l, hl with
  | i :: j :: l, _ =>
    exact branch_stream db rfl (by rfl : item sha3 (.ext (j :: l) t) = _) (Or.inr (by simp)) hstored
      (fun _ => rfl)
  | [i], _ =>
    refine ensures_bind ((killNode_spec (.ext [i] t)).mono fun _ db₁ hext hkill _ => ?_)
    refine ensures_bind (ensures_ofOption (isLeaf_hexPrefix _ _ _) fun _ => ?_)
    have hsize : (keyOf (.list [.data (hexPrefix false [i]), embed sha3 (item sha3 t)])).size = 1 :=
      size_keyOf _ _ _
    have hfirst : (keyOf (.list [.data (hexPrefix false [i]),
        embed sha3 (item sha3 t)])).at? 0 = some i := by simp [NibbleSlice.at?_eq]
    rw [if_neg (by rw [hsize]; simp)]
    refine ensures_bind (ensures_ofOption hfirst fun _ => ?_)
    rw [if_neg (by rw [hsize]; simp)]
    refine ensures_bind (ensures_pure fun _ => ?_)
    rw [single_slots]
    have hstored₁ := hstored.mono hext
    refine ensures_pure ⟨rfl, stored_single hstored₁.1 hstored₁.2, fun _ x n hn => ?_⟩
    have hfork : fork (.ext [i] t) = .branch (single i t) none := rfl
    rw [hkill, hn, hfork, childRefs_single, refs, childRefs_ext]
    omega

/-- A two-item node that is neither replaced nor entered is split. -/
lemma mergeAt_mismatch (fuel : ℕ) {leaf : Bool} {l : List Nibble} {b : Item} {k : NibbleSlice}
    (hleaf : leaf = true → l ≠ k.nibbles) (hext : leaf = false → ¬ l <+: k.nibbles)
    (hash : H256) (v : Bytes) (inLine : Bool) :
    mergeAt sha3 (fuel + 1) (.list [.data (hexPrefix leaf l), b]) hash k v inLine = (do
      let split ← (if shared k.nibbles l ≠ 0
        then cleve sha3 (.list [.data (hexPrefix leaf l), b]) (shared k.nibbles l)
        else branch sha3 (.list [.data (hexPrefix leaf l), b]))
      mergeAt sha3 fuel split (sha3 (Rlp.encode split)) k v true) := by
  have hplace : ¬ ((keyOf (.list [.data (hexPrefix leaf l), b]) == k) = true ∧ leaf = true) := by
    rw [NibbleSlice.beq_iff, nibbles_keyOf]
    exact fun h => hleaf h.2 h.1
  have hdown : ¬ (k.contains (keyOf (.list [.data (hexPrefix leaf l), b])) = true ∧
      ¬ leaf = true) := by
    rw [NibbleSlice.contains_iff, nibbles_keyOf]
    exact fun h => hext (by simpa using h.2) h.1
  rw [mergeAt_pair, isLeaf_hexPrefix]
  change (if _ then _ else _) = _
  rw [if_neg hplace, if_neg hdown, NibbleSlice.shared_eq, nibbles_keyOf]

/-- A two-item node that shares nothing with the word becomes a branch with both. -/
lemma merges_fork (fuel : ℕ) {u : Trie} {leaf : Bool} {l : List Nibble} {b : Item}
    {k : NibbleSlice} (hk : k.Valid) (v : Value)
    (hu : item sha3 u = .list [.data (hexPrefix leaf l), b])
    (hleaf : leaf = true → l ≠ k.nibbles) (hext : leaf = false → ¬ l <+: k.nibbles)
    (hshared : shared k.nibbles l = 0)
    (hbranch : ∀ db : D, Stored sha3 db u → Ensures [] (branch sha3 (item sha3 u)) db
      (Yields sha3 db (refs sha3 u) True (fork u)))
    (hfork : ∃ c w, fork u = .branch c w ∧ Patricia.Free c w k.nibbles) :
    Merges sha3 D (fuel + 4) u k v (k.nibbles ≠ []) (attach (fork u) k.nibbles v) := by
  intro db inLine hstored _
  rw [hu, mergeAt_mismatch (fuel + 3) hleaf hext, if_neg (by simp [hshared]), ← hu]
  refine ensures_bind ((hbranch db hstored).mono fun x db₁ _ hx _ => ?_)
  obtain ⟨c, w, hf, hfree⟩ := hfork
  obtain ⟨rfl, hs₁, -⟩ := id hx
  rw [hf] at hx hs₁ ⊢
  refine (mergeAt_attach fuel hk v hfree db₁ _ hs₁).mono fun y db₂ _ hy => ?_
  exact (hx.trans hy).weaken fun hne => ⟨trivial, hne⟩

/-- A two-item node that shares a beginning with the word is split there; `u'` is
its lower part and `t'` what the rest of the word makes of that. -/
lemma merges_cleve {fuel : ℕ} {u u' t' : Trie} {leaf : Bool} {l : List Nibble} {b : Item}
    {k : NibbleSlice} {v : Value} {exact : Prop}
    (hu : item sha3 u = .list [.data (hexPrefix leaf l), b])
    (hu' : item sha3 u' = .list [.data (hexPrefix leaf (l.drop (shared k.nibbles l))), b])
    (hleaf : leaf = true → l ≠ k.nibbles) (hext : leaf = false → ¬ l <+: k.nibbles)
    (hshared : shared k.nibbles l ≠ 0) (hst : ∀ db : D, Stored sha3 db u → Stored sha3 db u')
    (hrefs : ∀ x, childRefs sha3 u' x = childRefs sha3 u x)
    (h : Merges sha3 D fuel u' (k.mid (shared k.nibbles l)) v exact t') :
    Merges sha3 D (fuel + 3) u k v exact (.ext (l.take (shared k.nibbles l)) t') := by
  intro db inLine hstored _
  have hle := Patricia.shared_le_right k.nibbles l
  rw [hu, mergeAt_mismatch (fuel + 2) hleaf hext, if_pos hshared, ← hu]
  refine ensures_bind ((cleve_spec db hu hu' hshared hle (hst db hstored) hrefs).mono
    fun x db₁ _ hx _ => ?_)
  obtain ⟨rfl, hs₁, -⟩ := id hx
  have hprefix : l.take (shared k.nibbles l) <+: k.nibbles := by
    rw [← Patricia.take_shared]
    exact List.take_prefix _ _
  have hlen : (l.take (shared k.nibbles l)).length = shared k.nibbles l := by simp [hle]
  rw [← hlen] at h
  refine (mergeAt_ext hprefix h db₁ _ true (by simp) hs₁).mono fun y db₂ _ hy => ?_
  exact (hx.trans hy).weaken fun he => ⟨trivial, he⟩

/-- No word of the trie goes on behind `k`. -/
def Outermost (t : Trie) (k : List Nibble) : Prop :=
  ∀ k', t.get k' ≠ none → k <+: k' → k' = k

lemma take_of_drop_nil {k l : List Nibble} (h : k.drop (shared k l) = []) : k <+: l := by
  rw [← Patricia.shared_eq_left_iff]
  exact le_antisymm (Patricia.shared_le_left k l) (List.drop_eq_nil_iff.mp h)

/-- A two-item node `u l` that the word leaves is split where they part. -/
lemma merges_split (fuel : ℕ) {u : List Nibble → Trie} {leaf : Bool} {l : List Nibble} {b : Item}
    {k : NibbleSlice} (hk : k.Valid) (v : Value)
    (hu : ∀ l', item sha3 (u l') = .list [.data (hexPrefix leaf l'), b])
    (hleaf : leaf = true → l ≠ k.nibbles) (hext : leaf = false → ¬ l <+: k.nibbles)
    (hst : ∀ l' (db : D), Stored sha3 db (u l) → Stored sha3 db (u l'))
    (hrefs : ∀ l' x, childRefs sha3 (u l') x = childRefs sha3 (u l) x)
    (hbranch : ∀ db : D, Stored sha3 db (u (l.drop (shared k.nibbles l))) →
      Ensures [] (branch sha3 (item sha3 (u (l.drop (shared k.nibbles l))))) db
        (Yields sha3 db (refs sha3 (u (l.drop (shared k.nibbles l)))) True
          (fork (u (l.drop (shared k.nibbles l))))))
    (hfork : ∃ c w, fork (u (l.drop (shared k.nibbles l))) = .branch c w ∧
      Patricia.Free c w (k.nibbles.drop (shared k.nibbles l))) :
    Merges sha3 D (fuel + 7) (u l) k v (k.nibbles.drop (shared k.nibbles l) ≠ [])
      (wrap (l.take (shared k.nibbles l))
        (attach (fork (u (l.drop (shared k.nibbles l)))) (k.nibbles.drop (shared k.nibbles l)) v)) := by
  have hvalid := hk.mid (i := shared k.nibbles l) (by
    rw [← NibbleSlice.length_nibbles]
    exact Patricia.shared_le_left k.nibbles l)
  have hleaf' : leaf = true →
      l.drop (shared k.nibbles l) ≠ k.nibbles.drop (shared k.nibbles l) := by
    intro h heq
    apply hleaf h
    rw [← List.take_append_drop (shared k.nibbles l) l, ← Patricia.take_shared, heq,
      List.take_append_drop]
  have hext' : leaf = false →
      ¬ l.drop (shared k.nibbles l) <+: k.nibbles.drop (shared k.nibbles l) := by
    intro h hp
    rw [← Patricia.shared_eq_right_iff, Patricia.shared_drop] at hp
    exact Patricia.drop_shared_ne_nil (hext h) (List.length_eq_zero_iff.mp hp.symm)
  have hbottom (f : ℕ) : Merges sha3 D (f + 4) (u (l.drop (shared k.nibbles l)))
      (k.mid (shared k.nibbles l)) v (k.nibbles.drop (shared k.nibbles l) ≠ [])
      (attach (fork (u (l.drop (shared k.nibbles l)))) (k.nibbles.drop (shared k.nibbles l)) v) := by
    rw [← NibbleSlice.nibbles_mid] at hleaf' hext' hfork ⊢
    refine merges_fork f hvalid v (hu _) hleaf' hext' ?_ hbranch hfork
    rw [NibbleSlice.nibbles_mid]
    exact Patricia.shared_drop _ _
  by_cases hs : shared k.nibbles l = 0
  · have h := hbottom (fuel + 3)
    rw [hs] at h ⊢
    exact h
  · have htake : l.take (shared k.nibbles l) ≠ [] := by
      intro h
      rcases List.take_eq_nil_iff.mp h with h | h
      · exact hs h
      · simp [h, shared] at hs
    rw [wrap, if_neg htake]
    exact merges_cleve (hu _) (hu _) hleaf hext hs (hst _) (hrefs _) (hbottom fuel)

lemma merges_split_leaf (fuel : ℕ) {l : List Nibble} (w : Value) {k : NibbleSlice} (hk : k.Valid)
    (v : Value) (hne : l ≠ k.nibbles) :
    Merges sha3 D (fuel + 7) (.leaf l w) k v (k.nibbles.drop (shared k.nibbles l) ≠ [])
      (wrap (l.take (shared k.nibbles l))
        (attach (fork (.leaf (l.drop (shared k.nibbles l)) w))
          (k.nibbles.drop (shared k.nibbles l)) v)) :=
  merges_split fuel (u := fun l => .leaf l w) hk v (fun _ => rfl) (fun _ => hne) (by simp)
    (fun _ _ _ => trivial) (fun _ _ => rfl) (fun db _ => branch_leaf db _ w)
    (Patricia.leaf_split_free w hne)

lemma merges_split_ext (fuel : ℕ) {l : List Nibble} (t : Trie) {k : NibbleSlice} (hk : k.Valid)
    (v : Value) (hne : ¬ l <+: k.nibbles) :
    Merges sha3 D (fuel + 7) (.ext l t) k v (k.nibbles.drop (shared k.nibbles l) ≠ [])
      (wrap (l.take (shared k.nibbles l))
        (attach (fork (.ext (l.drop (shared k.nibbles l)) t))
          (k.nibbles.drop (shared k.nibbles l)) v)) :=
  merges_split fuel (u := fun l => .ext l t) hk v (fun _ => rfl) (by simp) (fun _ => hne)
    (fun _ _ hst => hst) (fun _ _ => rfl)
    (fun db hst => branch_ext db (Patricia.drop_shared_ne_nil hne) hst)
    (Patricia.ext_split_free t hne)

/-- `mergeAt` inserts the word. -/
theorem mergeAt_spec {t : Trie} (ht : t.Canonical) {fuel : ℕ} {k : NibbleSlice} (hk : k.Valid)
    (hfuel : 2 * k.size + 8 ≤ fuel) (v : Value) :
    Merges sha3 D fuel t k v (Outermost t k.nibbles) (t.insert k.nibbles v) := by
  induction t generalizing fuel k with
  | empty =>
    obtain ⟨f, rfl⟩ : ∃ f, fuel = f + 1 := ⟨fuel - 1, by omega⟩
    exact fun db inLine hs hi => (merges_empty f hk v db inLine hs hi).mono
      fun x db' _ hx => hx.weaken fun _ => trivial
  | leaf l w =>
    by_cases h : l = k.nibbles
    · obtain ⟨f, rfl⟩ : ∃ f, fuel = f + 1 := ⟨fuel - 1, by omega⟩
      intro db inLine _ _
      have hcond : (keyOf (.list [.data (hexPrefix true l), .data w.val]) == k) = true ∧
          true = true := by
        rw [NibbleSlice.beq_iff, nibbles_keyOf]
        exact ⟨h, rfl⟩
      rw [Patricia.insert, if_pos h, item, mergeAt_pair, isLeaf_hexPrefix]
      change Ensures [] (if _ then _ else _) db _
      rw [if_pos hcond]
      exact (place_leaf db l w k v).mono fun x db' _ hx => hx.weaken fun _ => trivial
    · obtain ⟨f, rfl⟩ : ∃ f, fuel = f + 7 := ⟨fuel - 7, by omega⟩
      rw [Patricia.insert, if_neg h]
      refine fun db inLine hs hi => (merges_split_leaf f w hk v h db inLine hs hi).mono
        fun x db' _ hx => hx.weaken fun hout hnil => h ?_
      exact hout l (by simp) (take_of_drop_nil hnil)
  | ext l t ih =>
    obtain ⟨hl, hb, hc⟩ := ht
    by_cases h : l <+: k.nibbles
    · obtain ⟨r, hr⟩ := h
      have hlen : l.length + r.length = k.size := by
        rw [← NibbleSlice.length_nibbles, ← hr, List.length_append]
      have hpos := List.length_pos_of_ne_nil hl
      obtain ⟨f, rfl⟩ : ∃ f, fuel = f + 2 := ⟨fuel - 2, by omega⟩
      have hmid : (k.mid l.length).nibbles = r := by
        rw [NibbleSlice.nibbles_mid, ← hr, List.drop_left]
      have hfuel : 2 * (k.mid l.length).size + 8 ≤ f := by
        rw [NibbleSlice.size_mid]
        omega
      have hrec := ih hc (hk.mid (i := l.length) (by omega)) hfuel
      rw [Patricia.insert, if_pos ⟨r, hr⟩, ← NibbleSlice.nibbles_mid]
      refine Merges.of_descent fun db hash inLine hhash hs =>
        (mergeAt_ext ⟨r, hr⟩ hrec db hash inLine hhash hs).mono
          fun x db' _ hx => hx.weaken fun hout => ?_
      intro k' hk' hp
      rw [hmid] at hp ⊢
      have hword := hout (l ++ k') (by rwa [Patricia.get_ext_append])
        (by rw [← hr]; exact (List.prefix_append_right_inj l).mpr hp)
      rw [← hr] at hword
      exact List.append_cancel_left hword
    · obtain ⟨f, rfl⟩ : ∃ f, fuel = f + 7 := ⟨fuel - 7, by omega⟩
      rw [Patricia.insert, if_neg h]
      refine fun db inLine hs hi => (merges_split_ext f t hk v h db inLine hs hi).mono
        fun x db' _ hx => hx.weaken fun hout hnil => h ?_
      have hkl := take_of_drop_nil hnil
      obtain ⟨k₀, w₀, hk₀⟩ := hc.exists_get (by rintro rfl; exact hb)
      have hword := hout (l ++ k₀) (by rw [Patricia.get_ext_append, hk₀]; simp)
        (hkl.trans (List.prefix_append l k₀))
      rw [← hword]
      exact List.prefix_append l k₀
  | branch c w ih =>
    obtain ⟨hc, -⟩ := ht
    rcases hkn : k.nibbles with _ | ⟨i, r⟩
    · have hsize : k.size = 0 := by
        rw [← NibbleSlice.length_nibbles, hkn]
        rfl
      obtain ⟨f, rfl⟩ : ∃ f, fuel = f + 1 := ⟨fuel - 1, by omega⟩
      intro db inLine hs _
      rw [item_branch, mergeAt_list _ (length_slots sha3 c _), if_pos hsize]
      exact (place_branch db c w k v hs).mono fun x db' _ hx => hx.weaken fun _ => trivial
    · have hsize : k.size = r.length + 1 := by
        rw [← NibbleSlice.length_nibbles, hkn]
        rfl
      obtain ⟨f, rfl⟩ : ∃ f, fuel = f + 2 := ⟨fuel - 2, by omega⟩
      have hmid : (k.mid 1).nibbles = r := by simp [hkn]
      have hfuel : 2 * (k.mid 1).size + 8 ≤ f := by
        rw [NibbleSlice.size_mid]
        omega
      have hrec := ih i (hc i) (hk.mid (i := 1) (by omega)) hfuel
      rw [hmid] at hrec
      refine Merges.of_descent fun db hash inLine hhash hs =>
        (mergeAt_branch hkn hrec db hash inLine hhash hs).mono
          fun x db' _ hx => hx.weaken fun hout => ?_
      intro k' hk' hp
      have hword := hout (i :: k') hk' (List.cons_prefix_cons.mpr ⟨rfl, hp⟩)
      exact (List.cons.inj hword).2

/-- The new root stands for `t'`, which is stored; if `exact`, the reference counts
have followed the change from `t` to `t'`. -/
def Replaces (sha3 : Bytes → H256) (db : D) (t : Trie) (exact : Prop) (t' : Trie) (root : H256)
    (db' : D) : Prop :=
  root = digest sha3 t' ∧ Rooted sha3 db' t' ∧
    (exact → ∀ h n, ContentStore.refCount db h = n + rootRefs sha3 t h →
      ContentStore.refCount db' h = n + rootRefs sha3 t' h)

/-- The end of an operation: the old root goes, the new one is stored. -/
lemma replaceRoot_spec {db db₁ : D} {t t' : Trie} {exact : Prop} {x : Item}
    (h : Yields sha3 db (refs sha3 t) exact t' x db₁) :
    Ensures [] (do
      (if size (some (item sha3 t)) < 32 then forceKillNode (digest sha3 t) else pure ())
      forceInsertNode sha3 x) db₁ (Replaces sha3 db t exact t') := by
  obtain ⟨rfl, hstored, hcount⟩ := h
  refine ensures_bind (killRoot_spec.mono fun _ db₂ hext₂ hkill _ => ?_)
  refine (forceInsertNode_spec t').mono fun r db₃ hext₃ hr => ?_
  obtain ⟨rfl, hfound, hins⟩ := hr
  refine ⟨rfl, ⟨hfound, (hstored.mono hext₂).mono hext₃⟩, fun hexact x n hn => ?_⟩
  -- The root counts once: in `refs` when it is long, on top of them when it is short.
  have hsplit : rootRefs sha3 t x =
      (if ¬ Long sha3 t ∧ digest sha3 t = x then 1 else 0) + refs sha3 t x := by
    unfold rootRefs refs selfRef
    by_cases hl : Long sha3 t <;> simp [hl]
  have hmid := hcount hexact x (n + if ¬ Long sha3 t ∧ digest sha3 t = x then 1 else 0)
    (by rw [hn, hsplit]; omega)
  rw [hins, hkill, hmid, rootRefs]
  omega

/-- `insert` puts the word into the stored trie. -/
theorem insert_spec {t : Trie} (ht : t.Canonical) {db : D} (hdb : Rooted sha3 db t) (key : Bytes)
    (v : Value) :
    Ensures [] (insert sha3 (digest sha3 t) key v.val) db
      (Replaces sha3 db t (Outermost t (asNibbles key)) (t.insert (asNibbles key) v)) := by
  refine ensures_bind ((node_spec hdb).mono fun r db₁ _ hr _ => ?_)
  obtain ⟨rfl, rfl⟩ := hr
  refine ensures_bind (ensures_ofOption rfl fun _ => ?_)
  have hk : NibbleSlice.Valid ⟨key, 0⟩ := Nat.zero_le _
  have hsize : 2 * NibbleSlice.size ⟨key, 0⟩ + 8 ≤ depth key := by
    change 2 * (key.length * 2 - 0) + 8 ≤ 4 * key.length + 8
    omega
  exact ensures_bind ((mergeAt_spec ht hk hsize v db₁ false hdb.2 (by simp)).mono
    fun x db₂ _ hx _ => replaceRoot_spec hx)

end TrieDB
end XChain
