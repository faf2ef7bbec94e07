import XChain.TrieNode

/-!
# Reading the trie

`at` finds the value of a word and changes nothing. The scan that the check of the
source makes meets exactly the hashes that the trie counts.
-/
namespace XChain
namespace TrieDB

open StoreProg

variable {sha3 : Bytes → H256} {D : Type} [LawfulContentStore H256 Bytes D []]

lemma atAux_pair (fuel : ℕ) (a b : Item) (key : NibbleSlice) :
    atAux (fuel + 1) (some (.list [a, b])) key = (do
      let k := keyOf (.list [a, b])
      let leaf ← ofOption (isLeaf (.list [a, b]))
      if key == k ∧ leaf then pure b.toBytes
      else if key.contains k ∧ ¬ leaf then do
        let next ← (if b.isList then pure (some b) else deref b)
        atAux fuel next (key.mid k.size)
      else pure []) := rfl

lemma atAux_list (fuel : ℕ) {l : List Item} (hl : l.length = 17) (key : NibbleSlice) :
    atAux (fuel + 1) (some (.list l)) key =
      (if key.size = 0 then do
        let v ← ofOption l[16]?
        pure v.toBytes
      else do
        let i ← ofOption (key.at? 0)
        let n ← ofOption l[i.val]?
        if n.isEmpty then pure []
        else do
          let next ← (if n.isList then pure (some n) else deref n)
          atAux fuel next (key.mid 1)) := by
  match l, hl with
  | _ :: _ :: _ :: l, hl =>
    rw [atAux]
    · simp only [Item.isEmpty, assert, hl]
      rfl
    · simp

theorem atAux_spec {t : Trie} (ht : t.Canonical) {db : D} (hdb : Stored sha3 db t) {fuel : ℕ}
    {k : NibbleSlice} (hk : k.Valid) (hfuel : k.size < fuel) :
    Ensures [] (atAux fuel (some (item sha3 t)) k) db fun x db' =>
      x = valueBytes (t.get k.nibbles) ∧ db' = db := by
  induction t generalizing fuel k with
  | empty =>
    obtain ⟨f, rfl⟩ : ∃ f, fuel = f + 1 := ⟨fuel - 1, by omega⟩
    exact ensures_pure ⟨rfl, rfl⟩
  | leaf l w =>
    obtain ⟨f, rfl⟩ : ∃ f, fuel = f + 1 := ⟨fuel - 1, by omega⟩
    rw [item, atAux_pair]
    refine ensures_bind (ensures_ofOption (isLeaf_hexPrefix _ _ _) fun _ => ?_)
    by_cases h : l = k.nibbles
    · rw [if_pos (by rw [NibbleSlice.beq_iff, nibbles_keyOf]; exact ⟨h.symm, rfl⟩),
        Patricia.get_leaf, if_pos h]
      exact ensures_pure ⟨rfl, rfl⟩
    · rw [if_neg (by rw [NibbleSlice.beq_iff, nibbles_keyOf]; exact fun hp => h hp.1.symm),
        if_neg (by simp), Patricia.get_leaf, if_neg h]
      exact ensures_pure ⟨rfl, rfl⟩
  | ext l t ih =>
    obtain ⟨hl, hb, hc⟩ := ht
    obtain ⟨f, rfl⟩ : ∃ f, fuel = f + 1 := ⟨fuel - 1, by omega⟩
    rw [item, atAux_pair]
    refine ensures_bind (ensures_ofOption (isLeaf_hexPrefix _ _ _) fun _ => ?_)
    rw [if_neg (by simp)]
    by_cases h : l <+: k.nibbles
    · have hlen := h.length_le
      rw [NibbleSlice.length_nibbles] at hlen
      have hpos := List.length_pos_of_ne_nil hl
      have hne : t ≠ .empty := by
        rintro rfl
        exact hb
      rw [if_pos (by simpa [NibbleSlice.contains_iff] using h)]
      refine ensures_bind ((next_spec hne hdb.1).mono fun r db₁ _ hr _ => ?_)
      obtain ⟨rfl, rfl⟩ := hr
      rw [size_keyOf]
      have hrec := ih hc hdb.2 (hk.mid hlen)
        (by rw [NibbleSlice.size_mid]; omega : (k.mid l.length).size < f)
      rw [NibbleSlice.nibbles_mid] at hrec
      rw [Patricia.get, if_pos h]
      exact hrec
    · rw [if_neg (by simpa [NibbleSlice.contains_iff] using h), Patricia.get_ext_eq_none _ h]
      exact ensures_pure ⟨rfl, rfl⟩
  | branch c w ih =>
    obtain ⟨f, rfl⟩ : ∃ f, fuel = f + 1 := ⟨fuel - 1, by omega⟩
    rw [item_branch, atAux_list _ (length_slots sha3 c _)]
    rcases hkn : k.nibbles with _ | ⟨i, r⟩
    · have hsize : k.size = 0 := by
        rw [← NibbleSlice.length_nibbles, hkn]
        rfl
      rw [if_pos hsize]
      exact ensures_bind (ensures_ofOption (getElem?_value sha3 c w) fun _ =>
        ensures_pure ⟨rfl, rfl⟩)
    · have hsize : k.size = r.length + 1 := by
        rw [← NibbleSlice.length_nibbles, hkn]
        rfl
      have hfirst : k.at? 0 = some i := by
        rw [NibbleSlice.at?_eq, hkn]
        rfl
      rw [if_neg (by omega)]
      refine ensures_bind (ensures_ofOption hfirst fun _ => ?_)
      refine ensures_bind (ensures_ofOption (getElem?_slots sha3 c w i) fun _ => ?_)
      rw [Patricia.get_branch_cons]
      by_cases hci : c i = .empty
      · rw [if_pos ((isEmpty_embed sha3 (c i)).mpr hci), hci]
        exact ensures_pure ⟨rfl, rfl⟩
      · rw [if_neg (by rw [isEmpty_embed]; exact hci)]
        refine ensures_bind ((next_spec hci (hdb i).1).mono fun x db₁ _ hx _ => ?_)
        obtain ⟨rfl, rfl⟩ := hx
        have hrec := ih i (ht.1 i) (hdb i).2 (hk.mid (i := 1) (by omega))
          (by rw [NibbleSlice.size_mid]; omega : (k.mid 1).size < f)
        rw [NibbleSlice.nibbles_mid, hkn] at hrec
        exact hrec

/-- `at` gives the value of the key, and the empty string when it has none. -/
theorem at_spec {t : Trie} (ht : t.Canonical) {db : D} (hdb : Rooted sha3 db t) (key : Bytes) :
    (atKey (digest sha3 t) key).run db = (some (valueBytes (t.get (asNibbles key))), db) := by
  have hk : NibbleSlice.Valid ⟨key, 0⟩ := Nat.zero_le _
  have hsize : NibbleSlice.size ⟨key, 0⟩ < depth key := by
    change key.length * 2 - 0 < 4 * key.length + 8
    omega
  have hspec : Ensures [] (atKey (digest sha3 t) key) db fun x db' =>
      x = valueBytes (t.get (asNibbles key)) ∧ db' = db := by
    refine ensures_bind ((node_spec hdb).mono fun r db₁ _ hr _ => ?_)
    obtain ⟨rfl, rfl⟩ := hr
    exact atAux_spec ht hdb.2 hk hsize
  obtain ⟨x, db', hrun, rfl, rfl⟩ := hspec ((readOnly_atKey _ _).safe db)
  exact hrun

/-- `root` gives the root. -/
theorem root_spec {t : Trie} {db : D} (hdb : Rooted sha3 db t) :
    (root (digest sha3 t)).run db = (some (digest sha3 t), db) := by
  have hspec : Ensures [] (root (digest sha3 t)) db fun r db' =>
      r = digest sha3 t ∧ db' = db := by
    refine ensures_bind ((node_spec hdb).mono fun r db₁ _ hr _ => ?_)
    obtain ⟨rfl, rfl⟩ := hr
    exact ensures_bind (ensures_assert rfl fun _ => ensures_pure ⟨rfl, rfl⟩)
  obtain ⟨x, db', hrun, rfl, rfl⟩ := hspec ((readOnly_root _).safe db)
  exact hrun

end TrieDB
end XChain
