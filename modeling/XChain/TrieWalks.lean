import XChain.PatriciaWords
import XChain.TrieCorrect
import XChain.TrieIterator

/-!
# Walks of the trie iterator

An iterator stands at a word of the trie, and its trail knows the words that come
after it: those of the children behind the one it is at, node by node. A turn of
`nextKey` at a node that is entered leads to the first word of its subtrie at or
above the key, and a turn at a node that was entered before to the next word. From
`begin()` a walk therefore visits the words of the trie in order, and from
`lower_bound` those at or above the key.
-/
namespace XChain
namespace TrieDB

open StoreProg Patricia Iterator

variable (sha3 : Bytes → H256)

/-- The node of the trail for a subtrie that is reached by the word `p`. -/
def nodeAt (p : List Nibble) (t : Trie) (i : Child) : Node :=
  ⟨some (item sha3 t), hexPrefix false p, i⟩

/-- The letters from the `n`th on. -/
def lettersFrom (n : ℕ) : List Nibble := (List.finRange 16).drop n

lemma letters_nibble : letters Nibble = List.finRange 16 := Fin.sort_univ 16

lemma lettersFrom_eq (i : Nibble) : lettersFrom i.val = i :: lettersFrom (i.val + 1) := by
  rw [lettersFrom, List.drop_eq_getElem_cons (by simp)]
  simp [lettersFrom]

lemma letters_split (i : Nibble) :
    letters Nibble = (List.finRange 16).take i.val ++ i :: lettersFrom (i.val + 1) := by
  rw [← lettersFrom_eq, letters_nibble, lettersFrom, List.take_append_drop]

/-- The trail `fs` below the node for `t`, which is reached by the word `p`, stands at
the entry `e`, and `es` are the entries of `t` that come after it. -/
inductive Visiting : List Nibble → Trie → List Node → List Nibble × Value →
    List (List Nibble × Value) → Prop where
  | leaf {p l : List Nibble} {v : Value} :
      Visiting p (.leaf l v) [nodeAt sha3 (p ++ l) (.leaf l v) (.slot 0)] (p ++ l, v) []
  | value {p : List Nibble} {c : Nibble → Trie} {v : Value} :
      Visiting p (.branch c (some v)) [nodeAt sha3 p (.branch c (some v)) .here] (p, v)
        (under p (wordsAt c (lettersFrom 0)))
  | child {p : List Nibble} {c : Nibble → Trie} {w : Option Value} {i : Nibble}
      {fs : List Node} {e : List Nibble × Value} {es : List (List Nibble × Value)} :
      Visiting (p ++ [i]) (c i) fs e es →
        Visiting p (.branch c w) (fs ++ [nodeAt sha3 p (.branch c w) (.slot i)]) e
          (es ++ under p (wordsAt c (lettersFrom (i.val + 1))))
  | ext {p l : List Nibble} {t : Trie} {fs : List Node} {e : List Nibble × Value}
      {es : List (List Nibble × Value)} :
      Visiting (p ++ l) t fs e es → Visiting p (.ext l t) fs e es

variable {sha3} {D : Type} [LawfulContentStore H256 Bytes D []]

section Lands

variable (sha3) (db : D) (root : H256)

/-- A turn of `nextKey` on the trail above `rest` leads to the first of the entries, or
leaves the subtrie when there is none. -/
def Lands (p : List Nibble) (t : Trie) (rest : List Node)
    (m : Prog (Turn Iterator (Iterator × NibbleSlice))) : List (List Nibble × Value) → Prop
  | [] => ∀ it, Returns nextKeyTurn db (nextKeyTurn (⟨some root, rest⟩, .clear)) it →
      Returns nextKeyTurn db m it
  | e :: es => ∃ fs, Visiting sha3 p t fs e es ∧
      Returns nextKeyTurn db m ⟨some root, fs ++ rest⟩

variable {sha3 db root} {p : List Nibble} {t : Trie} {rest : List Node}
  {m m' : Prog (Turn Iterator (Iterator × NibbleSlice))} {ws : List (List Nibble × Value)}

lemma Lands.trans (h : ∀ it, Returns nextKeyTurn db m' it → Returns nextKeyTurn db m it)
    (hm : Lands sha3 db root p t rest m' ws) : Lands sha3 db root p t rest m ws := by
  cases ws with
  | nil => exact fun it hit => h it (hm it hit)
  | cons e es =>
    obtain ⟨fs, hfs, hret⟩ := hm
    exact ⟨fs, hfs, h _ hret⟩

lemma Lands.of_run (h : m.run db = m'.run db) (hm : Lands sha3 db root p t rest m' ws) :
    Lands sha3 db root p t rest m ws :=
  hm.trans fun _ => Returns.of_run h

lemma Lands.of_again {s : Iterator × NibbleSlice} (h : m.run db = (some (.again s), db))
    (hm : Lands sha3 db root p t rest (nextKeyTurn s) ws) :
    Lands sha3 db root p t rest m ws :=
  hm.trans fun _ => .again h

lemma lands_pop {trail : List Node}
    (h : m.run db = (some (pop .clear ⟨some root, trail⟩ rest), db)) :
    Lands sha3 db root p t rest m [] :=
  fun _ hit => .again h hit

/-- An entry of a child is one of the branch, and behind the child come the entries of
the later children. -/
lemma Lands.child {c : Nibble → Trie} {w : Option Value} {i : Nibble}
    (h : Lands sha3 db root (p ++ [i]) (c i) (nodeAt sha3 p (.branch c w) (.slot i) :: rest) m ws)
    (hafter : Lands sha3 db root p (.branch c w) rest
      (nextKeyTurn (⟨some root, nodeAt sha3 p (.branch c w) (.slot i) :: rest⟩, .clear))
      (under p (wordsAt c (lettersFrom (i.val + 1))))) :
    Lands sha3 db root p (.branch c w) rest m
      (ws ++ under p (wordsAt c (lettersFrom (i.val + 1)))) := by
  cases ws with
  | nil => exact hafter.trans h
  | cons e es =>
    obtain ⟨fs, hfs, hret⟩ := h
    refine ⟨_, .child hfs, ?_⟩
    rw [List.append_assoc]
    exact hret

lemma Lands.ext {l : List Nibble} (h : Lands sha3 db root (p ++ l) t rest m ws) :
    Lands sha3 db root p (.ext l t) rest m ws := by
  cases ws with
  | nil => exact h
  | cons e es =>
    obtain ⟨fs, hfs, hret⟩ := h
    exact ⟨fs, .ext hfs, hret⟩

end Lands

section Turns

variable {db : D} {root : H256} {p : List Nibble} {rest trail : List Node}

/-- The node that an item inside its parent stands for. -/
lemma run_deref {t : Trie} (ht : t ≠ .empty) (hfound : Found sha3 db t) :
    (Iterator.deref ⟨some root, trail⟩ (embed sha3 (item sha3 t))).run db =
      (some (some (item sha3 t)), db) := by
  by_cases hl : Long sha3 t
  · have hlist : ¬ (embed sha3 (item sha3 t)).isList = true := by
      rw [isList_embed sha3 ht]
      exact fun h => h hl
    have hhash : toHash (embed sha3 (item sha3 t)) = some (digest sha3 t) := by
      rw [embed_of_long sha3 hl, toHash_bytes]
    have hnode : (node (digest sha3 t)).run db = (some (some (item sha3 t)), db) := by
      change (some (Rlp.decode (ContentStore.lookup db (digest sha3 t))), db) = _
      rw [hfound hl, Rlp.decode_encode]
    rw [Iterator.deref, run_bind, run_assert, if_neg hlist]
    simp only [Option.isSome_some, if_true, TrieDB.deref, run_bind, run_ofOption, hhash, hnode]
  · have hlist : (embed sha3 (item sha3 t)).isList = true := (isList_embed sha3 ht).mpr hl
    rw [Iterator.deref, run_bind, run_assert, if_pos hlist, embed_of_short sha3 hl]
    rfl

lemma nibbles_slot : ∀ i : Nibble,
    (⟨[UInt8.ofNat i.val], 1⟩ : NibbleSlice).nibbles = [i] := by decide

/-- The key of a child. -/
lemma key_child (i : Nibble) :
    hexPrefixEncodePair (keyOfHpe (hexPrefix false p)) ⟨[UInt8.ofNat i.val], 1⟩ false =
      some (hexPrefix false (p ++ [i])) := by
  rw [hexPrefixEncodePair_eq, nibbles_keyOfHpe, nibbles_slot]

/-- The position with a number, where sixteen is behind the children. -/
def childAt (n : ℕ) : Child := if h : n < 16 then .slot ⟨n, h⟩ else .exiting

lemma childAt_val (i : Nibble) : childAt i.val = .slot i := dif_pos i.isLt

lemma increment_slot (i : Nibble) : (Child.slot i).increment = childAt (i.val + 1) := by
  have hi := i.isLt
  by_cases h : i.val = 15
  · rw [Child.increment, dif_pos h, childAt, dif_neg (by omega)]
  · rw [Child.increment, dif_neg h, childAt, dif_pos (by omega)]

variable {c : Nibble → Trie} {w : Option Value} {k : NibbleSlice}

/-- The slots of a branch. -/
abbrev slots (sha3 : Bytes → H256) (c : Nibble → Trie) (w : Option Value) : List Item :=
  (List.ofFn fun i => embed sha3 (item sha3 (c i))) ++ [.data (valueBytes w)]

/-- The loop over the children of a branch, from a position on. -/
abbrev scanAt (sha3 : Bytes → H256) (root : H256) (trail : List Node) (p : List Nibble)
    (c : Nibble → Trie) (w : Option Value) (rest : List Node) (fuel : ℕ) (i : Child)
    (k : NibbleSlice) : Prog (Turn Iterator (Iterator × NibbleSlice)) :=
  scan .clear ⟨some root, trail⟩ (slots sha3 c w) rest fuel (nodeAt sha3 p (.branch c w) i) k

lemma run_scan_exiting (fuel : ℕ) :
    (scanAt sha3 root trail p c w rest (fuel + 1) .exiting k).run db =
      (some (pop .clear ⟨some root, trail⟩ rest), db) := by
  simp only [scanAt, scan, nodeAt, if_true]
  rfl

lemma run_scan_empty {i : Nibble} (hi : c i = .empty) (fuel : ℕ) :
    (scanAt sha3 root trail p c w rest (fuel + 1) (.slot i) k).run db =
      (scanAt sha3 root trail p c w rest fuel (childAt (i.val + 1)) .clear).run db := by
  have hslot : (embed sha3 (item sha3 (c i))).isEmpty = true := (isEmpty_embed sha3 _).mpr hi
  rw [scanAt, scan, if_neg (by simp [nodeAt]), run_bind, run_ofOption]
  simp only [nodeAt, Child.byte, getElem?_slots, hslot, if_true, Node.incrementChild,
    Node.setChild, increment_slot]
  rfl

lemma run_scan_child {i : Nibble} (hi : c i ≠ .empty) (hfound : Found sha3 db (c i)) (fuel : ℕ) :
    (scanAt sha3 root trail p c w rest (fuel + 1) (.slot i) k).run db =
      (some (.again (⟨some root, nodeAt sha3 (p ++ [i]) (c i) .entering ::
        nodeAt sha3 p (.branch c w) (.slot i) :: rest⟩, k)), db) := by
  have hslot : ¬ (embed sha3 (item sha3 (c i))).isEmpty = true := by
    rw [isEmpty_embed]
    exact hi
  rw [scanAt, scan, if_neg (by simp [nodeAt]), run_bind, run_ofOption]
  simp only [nodeAt, Child.byte, getElem?_slots, if_neg hslot, reduceCtorEq, if_false, run_bind,
    run_deref hi hfound, run_ofOption, key_child, run_pure]

lemma run_scan_value {v : Value} (fuel : ℕ) :
    (scanAt sha3 root trail p c (some v) rest (fuel + 1) .here k).run db =
      (some (.ret ⟨some root, nodeAt sha3 p (.branch c (some v)) .here :: rest⟩), db) := by
  have hslot : ¬ (Item.data (valueBytes (some v))).isEmpty = true := by
    obtain ⟨b, hb⟩ := v
    cases b with
    | nil => contradiction
    | cons x b => simp [valueBytes, Item.isEmpty]
  rw [scanAt, scan, if_neg (by simp [nodeAt]), run_bind, run_ofOption]
  simp only [nodeAt, Child.byte, getElem?_value, if_neg hslot, if_true, run_pure]

lemma run_scan_no_value (fuel : ℕ) :
    (scanAt sha3 root trail p c none rest (fuel + 1) .here k).run db =
      (scanAt sha3 root trail p c none rest fuel (childAt 0) .clear).run db := by
  rw [scanAt, scan, if_neg (by simp [nodeAt]), run_bind, run_ofOption]
  simp only [nodeAt, Child.byte, getElem?_value]
  rfl

/-- A branch that was entered before goes on to the next position. -/
lemma nextKeyTurn_branch {i : Child} (hi : i ≠ .entering) (k : NibbleSlice) :
    nextKeyTurn (⟨some root, nodeAt sha3 p (.branch c w) i :: rest⟩, k) =
      scanAt sha3 root (nodeAt sha3 p (.branch c w) i :: rest) p c w rest positions i.increment
        k := by
  rw [nextKeyTurn]
  simp only [nodeAt, if_neg hi, continuing, item_branch, length_slots, if_true]
  rfl

end Turns

section Enter

variable {db : D} {root : H256} {c : Nibble → Trie} {w : Option Value}

/-- The subtrie is entered at its first word at or above the key. -/
def Enters (sha3 : Bytes → H256) (db : D) (root : H256) (t : Trie) : Prop :=
  ∀ p rest k, Lands sha3 db root p t rest
    (nextKeyTurn (⟨some root, nodeAt sha3 p t .entering :: rest⟩, k))
    (under p (atOrAbove k.nibbles t.words))

lemma lands_scan_child {p : List Nibble} {rest : List Node} (trail : List Node) {i : Nibble}
    (k : NibbleSlice) (hi : c i ≠ .empty) (hfound : Found sha3 db (c i))
    (henter : Enters sha3 db root (c i))
    (hafter : Lands sha3 db root p (.branch c w) rest
      (nextKeyTurn (⟨some root, nodeAt sha3 p (.branch c w) (.slot i) :: rest⟩, .clear))
      (under p (wordsAt c (lettersFrom (i.val + 1))))) (fuel : ℕ) :
    Lands sha3 db root p (.branch c w) rest
      (scanAt sha3 root trail p c w rest (fuel + 1) (.slot i) k)
      (under (p ++ [i]) (atOrAbove k.nibbles (c i).words) ++
        under p (wordsAt c (lettersFrom (i.val + 1)))) :=
  (Lands.child (henter (p ++ [i]) _ k) hafter).of_again (run_scan_child hi hfound fuel)

/-- Without a key the loop over the children finds the first word behind a position. The
induction is on the number of children that are left. -/
lemma lands_scan (hfound : ∀ i, Found sha3 db (c i))
    (henter : ∀ i, c i ≠ .empty → Enters sha3 db root (c i)) {p : List Nibble}
    {rest trail : List Node} (left : ℕ) {n fuel : ℕ} (hn : n + left = 16) (hfuel : left < fuel) :
    Lands sha3 db root p (.branch c w) rest
      (scanAt sha3 root trail p c w rest fuel (childAt n) .clear)
      (under p (wordsAt c (lettersFrom n))) := by
  induction left generalizing n fuel trail with
  | zero =>
    obtain ⟨f, rfl⟩ : ∃ f, fuel = f + 1 := ⟨fuel - 1, by omega⟩
    have hlast : childAt n = .exiting := dif_neg (by omega)
    have hnil : lettersFrom n = [] := List.drop_of_length_le (by simp; omega)
    rw [hlast, hnil]
    exact lands_pop (run_scan_exiting f)
  | succ left ih =>
    obtain ⟨f, rfl⟩ : ∃ f, fuel = f + 1 := ⟨fuel - 1, by omega⟩
    obtain ⟨i, rfl⟩ : ∃ i : Nibble, n = i.val := ⟨⟨n, by omega⟩, rfl⟩
    have hwords : under p (wordsAt c (lettersFrom i.val)) =
        under (p ++ [i]) (c i).words ++ under p (wordsAt c (lettersFrom (i.val + 1))) := by
      rw [lettersFrom_eq, wordsAt_cons, under_append, under_under]
    rw [hwords, childAt_val]
    by_cases hi : c i = .empty
    · have hnone : under (p ++ [i]) (c i).words = [] := by
        rw [hi]
        rfl
      rw [hnone, List.nil_append]
      exact (ih (by omega) (by omega)).of_run (run_scan_empty hi f)
    · have hafter : Lands sha3 db root p (.branch c w) rest
          (scanAt sha3 root (nodeAt sha3 p (.branch c w) (.slot i) :: rest) p c w rest positions
            (childAt (i.val + 1)) .clear) (under p (wordsAt c (lettersFrom (i.val + 1)))) :=
        ih (by omega) (by rw [positions]; omega)
      rw [← increment_slot] at hafter
      rw [← nextKeyTurn_branch (by simp)] at hafter
      have hchild := lands_scan_child trail .clear hi (hfound i) (henter i hi) hafter f
      rw [NibbleSlice.nibbles_clear, atOrAbove_nil] at hchild
      exact hchild

/-- A branch goes on behind one of its children. -/
lemma lands_continuing (hfound : ∀ i, Found sha3 db (c i))
    (henter : ∀ i, c i ≠ .empty → Enters sha3 db root (c i)) {p : List Nibble}
    {rest : List Node} (i : Nibble) :
    Lands sha3 db root p (.branch c w) rest
      (nextKeyTurn (⟨some root, nodeAt sha3 p (.branch c w) (.slot i) :: rest⟩, .clear))
      (under p (wordsAt c (lettersFrom (i.val + 1)))) := by
  have hi := i.isLt
  rw [nextKeyTurn_branch (by simp), increment_slot]
  exact lands_scan hfound henter (15 - i.val) (by omega) (by rw [positions]; omega)

/-- A key behind a label leads behind the label, a smaller one to the first word behind
it, and a greater one past it. -/
lemma nextKeyTurn_pair {b : Node} {l : List Nibble} {leaf : Bool} {x : Item}
    (hb : b.rlp = some (.list [.data (hexPrefix leaf l), x])) (hc : b.child = .entering)
    (rest : List Node) (k : NibbleSlice) :
    nextKeyTurn (⟨some root, b :: rest⟩, k) =
      if l <+: k.nibbles then
        descend ⟨some root, b :: rest⟩ b rest (.data (hexPrefix leaf l)) x k
      else if k.nibbles < l then
        descend ⟨some root, b :: rest⟩ b rest (.data (hexPrefix leaf l)) x .clear
      else pure (pop .clear ⟨some root, b :: rest⟩ rest) := by
  simp only [nextKeyTurn, hc, if_true, enterKey, hb, Item.isEmpty, Bool.false_eq_true, if_false,
    NibbleSlice.contains_iff, NibbleSlice.isEarlierThan_iff, nibbles_keyOf]

/-- What is left of a key behind a label. -/
lemma nibbles_behind (l : List Nibble) (leaf : Bool) (x : Item) (k : NibbleSlice) :
    (k.mid (min k.size (keyOf (.list [.data (hexPrefix leaf l), x])).size)).nibbles =
      k.nibbles.drop l.length := by
  rw [NibbleSlice.nibbles_mid, size_keyOf, ← NibbleSlice.length_nibbles]
  by_cases h : k.nibbles.length ≤ l.length
  · rw [min_eq_left h, List.drop_of_length_le h, List.drop_of_length_le le_rfl]
  · rw [min_eq_right (by omega)]

lemma key_pair (p l : List Nibble) (leaf : Bool) (x : Item) :
    hexPrefixEncodePair (keyOfHpe (hexPrefix false p))
        (keyOf (.list [.data (hexPrefix leaf l), x])) false =
      some (hexPrefix false (p ++ l)) := by
  rw [hexPrefixEncodePair_eq, nibbles_keyOfHpe, nibbles_keyOf]

variable (sha3 db root) in
lemma run_descend_leaf (p l : List Nibble) (v : Value) (rest trail : List Node)
    (k : NibbleSlice) :
    (descend ⟨some root, trail⟩ (nodeAt sha3 p (.leaf l v) .entering) rest
        (.data (hexPrefix true l)) (.data v.val) k).run db =
      (some (if k.nibbles.drop l.length = [] then
        .ret ⟨some root, nodeAt sha3 (p ++ l) (.leaf l v) (.slot 0) :: rest⟩
      else pop .clear ⟨some root, trail⟩ rest), db) := by
  simp only [descend, nodeAt, run_bind, run_ofOption, key_pair, isLeaf_hexPrefix, if_true,
    NibbleSlice.empty_iff, nibbles_behind]
  split_ifs <;> rfl

variable (root) in
lemma run_descend_ext (p l : List Nibble) {t : Trie} (rest trail : List Node) (ht : t ≠ .empty)
    (hfound : Found sha3 db t) (k : NibbleSlice) :
    ∃ k' : NibbleSlice, k'.nibbles = k.nibbles.drop l.length ∧
      (descend ⟨some root, trail⟩ (nodeAt sha3 p (.ext l t) .entering) rest
        (.data (hexPrefix false l)) (embed sha3 (item sha3 t)) k).run db =
        (some (.again (⟨some root, nodeAt sha3 (p ++ l) t .entering :: rest⟩, k')), db) := by
  refine ⟨_, nibbles_behind l false (embed sha3 (item sha3 t)) k, ?_⟩
  simp only [descend, nodeAt, run_bind, run_ofOption, key_pair, isLeaf_hexPrefix,
    Bool.false_eq_true, if_false, run_deref ht hfound, run_pure]

lemma enters_leaf (l : List Nibble) (v : Value) : Enters sha3 db root (.leaf l v) := by
  intro p rest k
  have hwords : (Patricia.leaf l v : Trie).words = under l [([], v)] := by simp [words]
  have hvisit : Visiting sha3 p (.leaf l v) [nodeAt sha3 (p ++ l) (.leaf l v) (.slot 0)]
    (p ++ l, v) [] := .leaf
  have hrun (k : NibbleSlice) := run_descend_leaf sha3 db root p l v rest
    (nodeAt sha3 p (.leaf l v) .entering :: rest) k
  have hturn : nextKeyTurn (⟨some root, nodeAt sha3 p (.leaf l v) .entering :: rest⟩, k) = _ :=
    nextKeyTurn_pair rfl rfl rest k
  rw [hturn, hwords]
  by_cases hl : l <+: k.nibbles
  · rw [if_pos hl]
    obtain ⟨r, hr⟩ := hl
    have hleft := hrun k
    rw [← hr, List.drop_left] at hleft
    rw [← hr, atOrAbove_under]
    cases r with
    | nil =>
      rw [if_pos rfl] at hleft
      exact ⟨_, by simpa using hvisit, .ret hleft⟩
    | cons j r =>
      rw [if_neg (by simp)] at hleft
      exact lands_pop hleft
  · rw [if_neg hl]
    by_cases hlt : k.nibbles < l
    · rw [if_pos hlt, atOrAbove_under_of_lt hlt]
      have hleft := hrun .clear
      rw [NibbleSlice.nibbles_clear, List.drop_nil, if_pos rfl] at hleft
      exact ⟨_, by simpa using hvisit, .ret hleft⟩
    · rw [if_neg hlt, atOrAbove_under_of_not_prefix hl hlt]
      exact lands_pop rfl

lemma enters_ext {t : Trie} (l : List Nibble) (ht : t ≠ .empty) (hfound : Found sha3 db t)
    (henter : Enters sha3 db root t) : Enters sha3 db root (.ext l t) := by
  intro p rest k
  have hturn : nextKeyTurn (⟨some root, nodeAt sha3 p (.ext l t) .entering :: rest⟩, k) = _ :=
    nextKeyTurn_pair rfl rfl rest k
  have hstep (k : NibbleSlice) : Lands sha3 db root p (.ext l t) rest
      (descend ⟨some root, nodeAt sha3 p (.ext l t) .entering :: rest⟩
        (nodeAt sha3 p (.ext l t) .entering) rest (.data (hexPrefix false l))
        (embed sha3 (item sha3 t)) k)
      (under p (under l (atOrAbove (k.nibbles.drop l.length) t.words))) := by
    obtain ⟨k', hk', hrun⟩ := run_descend_ext root p l rest
      (nodeAt sha3 p (.ext l t) .entering :: rest) ht hfound k
    rw [← hk', under_under]
    exact (Lands.of_again hrun (henter (p ++ l) rest k')).ext
  rw [hturn, words]
  by_cases hl : l <+: k.nibbles
  · have h := hstep k
    rw [if_pos hl]
    obtain ⟨r, hr⟩ := hl
    rw [← hr, List.drop_left] at h
    rw [← hr, atOrAbove_under]
    exact h
  · rw [if_neg hl]
    by_cases hlt : k.nibbles < l
    · have h := hstep .clear
      rw [NibbleSlice.nibbles_clear, List.drop_nil, atOrAbove_nil] at h
      rw [if_pos hlt, atOrAbove_under_of_lt hlt]
      exact h
    · rw [if_neg hlt, atOrAbove_under_of_not_prefix hl hlt]
      exact lands_pop rfl

/-- Without a key a branch is entered at its value, with one at a child. -/
lemma nextKeyTurn_enter_branch (p : List Nibble) (rest : List Node) (k : NibbleSlice) :
    (nextKeyTurn (⟨some root, nodeAt sha3 p (.branch c w) .entering :: rest⟩, k)).run db =
      (match k.nibbles with
      | [] => scanAt sha3 root (nodeAt sha3 p (.branch c w) .entering :: rest) p c w rest
          positions .here k
      | i :: _ => scanAt sha3 root (nodeAt sha3 p (.branch c w) .entering :: rest) p c w rest
          positions (.slot i) (k.mid 1)).run db := by
  have hlist : ¬ (item sha3 (Patricia.branch c w)).isEmpty = true := by
    rw [isEmpty_item]
    simp
  have hpair : ∀ a x, slots sha3 c w ≠ [a, x] := by
    intro a x h
    have hlen := congrArg List.length h
    simp at hlen
  rw [nextKeyTurn]
  simp only [nodeAt, if_true, enterKey, if_neg hlist]
  rw [item_branch]
  split
  · rename_i a x heq
    exact absurd (Item.list.inj heq) (hpair a x)
  · rename_i l _ heq
    obtain rfl := Item.list.inj heq
    rw [if_pos (length_slots sha3 c _)]
    cases hk : k.nibbles with
    | nil =>
      rw [if_pos ((NibbleSlice.empty_iff k).mpr hk)]
      rfl
    | cons i r =>
      have hempty : ¬ k.empty = true := by simp [NibbleSlice.empty_iff, hk]
      rw [if_neg hempty, NibbleSlice.at?_eq, hk]
      rfl
  · rename_i heq
    cases heq

lemma enters_branch (hc : ∀ i, Found sha3 db (c i))
    (henter : ∀ i, c i ≠ .empty → Enters sha3 db root (c i)) :
    Enters sha3 db root (.branch c w) := by
  intro p rest k
  refine Lands.of_run (nextKeyTurn_enter_branch p rest k) ?_
  cases hk : k.nibbles with
  | nil =>
    have hzero : lettersFrom 0 = letters Nibble := letters_nibble.symm
    rw [atOrAbove_nil, words_branch, under_append, ← hzero]
    cases w with
    | none =>
      refine Lands.of_run (run_scan_no_value 17) ?_
      exact lands_scan hc henter 16 rfl (by omega)
    | some v => exact ⟨_, by simpa using Visiting.value, .ret (run_scan_value 17)⟩
  | cons i r =>
    have hmid : (k.mid 1).nibbles = r := by rw [NibbleSlice.nibbles_mid, hk, List.drop_one]; rfl
    rw [atOrAbove_branch c w i r (letters_split i), under_append, under_under]
    by_cases hi : c i = .empty
    · have hnone : under (p ++ [i]) (atOrAbove r (c i).words) = [] := by
        rw [hi]
        rfl
      have hpos := i.isLt
      rw [hnone, List.nil_append]
      refine Lands.of_run (run_scan_empty hi 17) ?_
      exact lands_scan hc henter (15 - i.val) (by omega) (by omega)
    · rw [← hmid]
      exact lands_scan_child _ (k.mid 1) hi (hc i) (henter i hi) (lands_continuing hc henter i) 17

variable (root) in
/-- Every subtrie in the store is entered at its first word at or above the key. -/
theorem enters {t : Trie} (ht : t.Canonical) (hdb : Stored sha3 db t) (hne : t ≠ .empty) :
    Enters sha3 db root t := by
  induction t with
  | empty => contradiction
  | leaf l v => exact enters_leaf l v
  | ext l t ih =>
    have hnet : t ≠ .empty := by
      rintro rfl
      exact ht.2.1
    exact enters_ext l hnet hdb.1 (ih ht.2.2 hdb.2 hnet)
  | branch c w ih =>
    exact enters_branch (fun i => (hdb i).1) fun i hi => ih i (ht.1 i) (hdb i).2 hi

variable (root) in
/-- From the entry it is at, the iterator goes on to the one after it. -/
theorem Visiting.lands {p : List Nibble} {t : Trie} {fs : List Node} {e : List Nibble × Value}
    {es : List (List Nibble × Value)} (h : Visiting sha3 p t fs e es) (ht : t.Canonical)
    (hdb : Stored sha3 db t) (rest : List Node) :
    Lands sha3 db root p t rest (nextKeyTurn (⟨some root, fs ++ rest⟩, .clear)) es := by
  induction h generalizing rest with
  | leaf => exact lands_pop rfl
  | @value p c v =>
    have henter : ∀ i, c i ≠ .empty → Enters sha3 db root (c i) :=
      fun i hi => enters root (ht.1 i) (hdb i).2 hi
    rw [List.singleton_append, nextKeyTurn_branch (by simp)]
    exact lands_scan (fun i => (hdb i).1) henter 16 rfl (by rw [positions]; omega)
  | @child p c w i fs e es _ ih =>
    have henter : ∀ i, c i ≠ .empty → Enters sha3 db root (c i) :=
      fun i hi => enters root (ht.1 i) (hdb i).2 hi
    rw [List.append_assoc, List.singleton_append]
    exact (ih (ht.1 i) (hdb i).2 _).child (lands_continuing (fun i => (hdb i).1) henter i)
  | ext _ ih => exact (ih ht.2.2 hdb.2 rest).ext

end Enter

section Walk

variable (sha3) in
/-- The iterator stands at the first of the entries, or at the end when there is none. -/
def Standing (root : H256) (t : Trie) (it : Iterator) : List (List Nibble × Value) → Prop
  | [] => it = theEnd
  | e :: es => ∃ fs, Visiting sha3 [] t fs e es ∧ it = ⟨some root, fs⟩

/-- From some fuel on the program gives the result, and the store stays as it is. -/
def Settles {α E : Type} [ContentStore H256 Bytes E] (m : ℕ → Prog α) (db : E) (a : α) : Prop :=
  ∃ n, ∀ fuel ≥ n, (m fuel).run db = (some a, db)

variable {db : D} {root : H256} {t : Trie} {it : Iterator} {e : List Nibble × Value}
  {es ws : List (List Nibble × Value)}

lemma Lands.standing {s : Iterator × NibbleSlice}
    (h : Lands sha3 db root [] t [] (nextKeyTurn s) ws) :
    ∃ it, Standing sha3 root t it ws ∧ Settles (fun fuel => forever nextKeyTurn fuel s) db it := by
  cases ws with
  | nil => exact ⟨theEnd, rfl, (h theEnd (.ret rfl)).run_forever⟩
  | cons e es =>
    obtain ⟨fs, hfs, hret⟩ := h
    rw [List.append_nil] at hret
    exact ⟨_, ⟨fs, hfs, rfl⟩, hret.run_forever⟩

variable (root) in
lemma lands_root (ht : t.Canonical) (hdb : Stored sha3 db t) (k : NibbleSlice) :
    Lands sha3 db root [] t [] (nextKeyTurn (⟨some root, [nodeAt sha3 [] t .entering]⟩, k))
      (atOrAbove k.nibbles t.words) := by
  by_cases hne : t = .empty
  · subst hne
    exact lands_pop rfl
  · have h := enters root ht hdb hne [] [] k
    rwa [nil_under] at h

/-- An entry in bytes. -/
def bytesOf (e : List Nibble × Value) : Bytes × Bytes := (pack e.1, e.2.val)

/-- The last node of the trail has the key and the value. -/
lemma Visiting.head {p : List Nibble} {fs : List Node} (h : Visiting sha3 p t fs e es) :
    ∃ b l fs', fs = b :: fs' ∧ b.key = hexPrefix false e.1 ∧ b.rlp = some (.list l) ∧
      l[if l.length = 2 then 1 else 16]? = some (.data e.2.val) := by
  induction h with
  | leaf => exact ⟨_, _, _, rfl, rfl, rfl, rfl⟩
  | @value p c v =>
    refine ⟨_, _, _, rfl, rfl, congrArg some (item_branch sha3 c (some v)), ?_⟩
    rw [length_slots]
    exact getElem?_value sha3 c (some v)
  | child _ ih =>
    obtain ⟨b, l, fs', rfl, hkey, hrlp, hval⟩ := ih
    exact ⟨b, l, _, rfl, hkey, hrlp, hval⟩
  | ext _ ih => exact ih

lemma hexPrefix_asNibbles (k : Bytes) : hexPrefix false (asNibbles k) = 0 :: k := by
  rw [hexPrefix, length_asNibbles, if_neg (by omega), pack_asNibbles]
  rfl

/-- The iterator gives the entry it stands at. -/
lemma Standing.at?_eq (h : Standing sha3 root t it ws)
    (hws : ∀ e ∈ ws, ∃ k, asNibbles k = e.1) : it.at? = (ws.map bytesOf).head? := by
  cases ws with
  | nil =>
    obtain rfl : it = theEnd := h
    rfl
  | cons e es =>
    obtain ⟨fs, hfs, rfl⟩ := h
    obtain ⟨b, l, fs', rfl, hkey, hrlp, hval⟩ := hfs.head
    obtain ⟨k, hk⟩ := hws e List.mem_cons_self
    rw [← hk, hexPrefix_asNibbles] at hkey
    have heven : (0 : UInt8) &&& 0x10 = 0 := by decide
    simp only [Iterator.at?, hkey, hrlp, heven, if_true, hval, Option.map_some, Item.payload,
      List.map_cons, List.head?_cons, bytesOf, ← hk, pack_asNibbles]

lemma Standing.isEnd_iff (h : Standing sha3 root t it ws) : it.isEnd = true ↔ ws = [] := by
  cases ws with
  | nil =>
    obtain rfl : it = theEnd := h
    exact ⟨fun _ => rfl, fun _ => rfl⟩
  | cons e es =>
    obtain ⟨fs, hfs, rfl⟩ := h
    obtain ⟨b, l, fs', rfl, -⟩ := hfs.head
    simp [isEnd]

/-- `next` goes on to the next entry. -/
theorem Standing.next (ht : t.Canonical) (hdb : Stored sha3 db t)
    (h : Standing sha3 root t it (e :: es)) :
    ∃ it', Standing sha3 root t it' es ∧ Settles (fun fuel => Iterator.next fuel it) db it' := by
  obtain ⟨fs, hfs, rfl⟩ := h
  have hlands := hfs.lands root ht hdb []
  rw [List.append_nil] at hlands
  simp only [next_eq]
  exact hlands.standing

/-- A walk to the end visits the entries one by one. -/
theorem Standing.visit (ht : t.Canonical) (hdb : Stored sha3 db t)
    (h : Standing sha3 root t it ws) (hws : ∀ e ∈ ws, ∃ k, asNibbles k = e.1) :
    ∃ n, ∀ fuel ≥ n, ∀ visits > ws.length,
      (TrieDB.visit fuel visits it).run db = (some (ws.map bytesOf), db) := by
  induction ws generalizing it with
  | nil =>
    refine ⟨0, fun fuel _ visits hvisits => ?_⟩
    obtain ⟨v, rfl⟩ : ∃ v, visits = v + 1 := ⟨visits - 1, by omega⟩
    rw [TrieDB.visit, if_pos (h.isEnd_iff.mpr rfl)]
    rfl
  | cons e es ih =>
    obtain ⟨it', hit', n, hn⟩ := h.next ht hdb
    obtain ⟨n', hn'⟩ := ih hit' fun e' he' => hws e' (List.mem_cons_of_mem _ he')
    refine ⟨max n n', fun fuel hfuel visits hvisits => ?_⟩
    obtain ⟨v, rfl⟩ : ∃ v, visits = v + 1 := ⟨visits - 1, by omega⟩
    have hend : ¬ it.isEnd = true := by
      rw [h.isEnd_iff]
      exact List.cons_ne_nil e es
    have hrest := hn' fuel (le_of_max_le_right hfuel) v (by simpa using hvisits)
    rw [TrieDB.visit, if_neg hend, h.at?_eq hws, run_bind, run_ofOption]
    simp only [List.map_cons, List.head?_cons, run_bind, hn fuel (le_of_max_le_left hfuel), hrest,
      run_pure]

lemma run_rootTrail (hdb : Rooted sha3 db t) :
    (rootTrail (digest sha3 t)).run db =
      (some ⟨some (digest sha3 t), [nodeAt sha3 [] t .entering]⟩, db) := by
  have hnode : (node (digest sha3 t)).run db = (some (some (item sha3 t)), db) := by
    change (some (Rlp.decode (ContentStore.lookup db (digest sha3 t))), db) = _
    rw [hdb.1, Rlp.decode_encode]
  rw [rootTrail, run_bind, hnode]
  rfl

/-- The walk from `begin()` sees all entries. -/
lemma Rooted.begin (hdb : Rooted sha3 db t) (ht : t.Canonical)
    (hws : ∀ e ∈ t.words, ∃ k, asNibbles k = e.1) :
    Settles (fun fuel => do
      let it ← TrieDB.begin fuel (digest sha3 t)
      TrieDB.visit fuel fuel it) db (t.words.map bytesOf) := by
  have hlands := lands_root (digest sha3 t) ht hdb.2 .clear
  rw [NibbleSlice.nibbles_clear, atOrAbove_nil] at hlands
  obtain ⟨it, hit, n, hn⟩ := hlands.standing
  obtain ⟨n', hn'⟩ := hit.visit ht hdb.2 hws
  refine ⟨n + n' + t.words.length + 1, fun fuel hfuel => ?_⟩
  have hbegin : (TrieDB.begin fuel (digest sha3 t)).run db = (some it, db) := by
    rw [TrieDB.begin, run_bind, run_rootTrail hdb]
    simp only [next_eq]
    exact hn fuel (by omega)
  rw [run_bind, hbegin]
  exact hn' fuel (by omega) fuel (by omega)

/-- `lower_bound` stands at the first entry at or above the key, and the walk from there
sees the entries at or above it. -/
lemma Rooted.lowerBound (hdb : Rooted sha3 db t) (ht : t.Canonical) (k : Bytes) :
    ∃ it, Standing sha3 (digest sha3 t) t it (atOrAbove (asNibbles k) t.words) ∧
      Settles (fun fuel => TrieDB.lowerBound fuel (digest sha3 t) k) db it := by
  have hkey : (⟨k, 0⟩ : NibbleSlice).nibbles = asNibbles k := rfl
  have hlands := lands_root (digest sha3 t) ht hdb.2 ⟨k, 0⟩
  rw [hkey] at hlands
  obtain ⟨it, hit, n, hn⟩ := hlands.standing
  refine ⟨it, hit, n, fun fuel hfuel => ?_⟩
  change (TrieDB.lowerBound fuel (digest sha3 t) k).run db = _
  rw [TrieDB.lowerBound, run_bind, run_rootTrail hdb]
  exact hn fuel hfuel

end Walk

section Entries

/-- The entries of a map in ascending order of their keys, each of them once. -/
structure Lists (m : Bytes → Option Value) (es : List (Bytes × Bytes)) : Prop where
  ascending : es.Pairwise fun e e' => e.1 < e'.1
  mem : ∀ k v, (k, v) ∈ es ↔ (m k).map Subtype.val = some v

/-- The iterators of a trie enumerate a list of entries: those from `begin()` see the
whole list, and those from `lower_bound` stand at its first entry that is not less than
the key and see that entry and all behind it. -/
structure Iterates {D : Type} [ContentStore H256 Bytes D] (db : D) (root : H256)
    (es : List (Bytes × Bytes)) : Prop where
  begin : Settles (fun fuel => do
    let it ← TrieDB.begin fuel root
    visit fuel fuel it) db es
  lowerBound : ∀ k, ∃ it, Settles (fun fuel => TrieDB.lowerBound fuel root k) db it ∧
    it.at? = (es.filter fun e => ¬ e.1 < k).head? ∧
    (it.isEnd = true ↔ ∀ e ∈ es, e.1 < k) ∧
    Settles (fun fuel => visit fuel fuel it) db (es.filter fun e => ¬ e.1 < k)

variable {db : D} {root : H256} {m : BytesMap} {t : Trie}

lemma Represents.exists_key (h : Represents m t) {e : List Nibble × Value} (he : e ∈ t.words) :
    ∃ k, asNibbles k = e.1 := by
  obtain ⟨k, hk, -⟩ := (h e.1 e.2).mp (mem_words.mp he)
  exact ⟨k, hk⟩

lemma Represents.lists (h : Represents m t) {f : Bytes → Option Value}
    (hf : ∀ k, m.lookup k = (f k).map Subtype.val) : Lists f (t.words.map bytesOf) where
  ascending := by
    refine List.pairwise_map.mpr ((ascending_words t).imp_of_mem fun {a b} ha hb hlt => ?_)
    obtain ⟨x, hx⟩ := h.exists_key ha
    obtain ⟨y, hy⟩ := h.exists_key hb
    rw [bytesOf, bytesOf, ← hx, ← hy, pack_asNibbles, pack_asNibbles]
    rwa [← hx, ← hy, asNibbles_lt_iff] at hlt
  mem := by
    intro k v
    rw [List.mem_map, ← hf]
    constructor
    · rintro ⟨e, he, heq⟩
      obtain ⟨k', hk', hv⟩ := (h e.1 e.2).mp (mem_words.mp he)
      rw [bytesOf, ← hk', pack_asNibbles] at heq
      obtain ⟨rfl, rfl⟩ := Prod.mk.inj heq
      exact hv
    · intro hv
      rw [hf] at hv
      obtain ⟨w, hw, rfl⟩ := Option.map_eq_some_iff.mp hv
      have hget : t.get (asNibbles k) = some w :=
        (h _ w).mpr ⟨k, rfl, by rw [hf, hw]; rfl⟩
      exact ⟨(asNibbles k, w), mem_words.mpr hget, by rw [bytesOf, pack_asNibbles]⟩

/-- The entries at or above a key, in nibbles and in bytes. -/
lemma Represents.map_atOrAbove (h : Represents m t) (k : Bytes) :
    (atOrAbove (asNibbles k) t.words).map bytesOf =
      (t.words.map bytesOf).filter fun e => ¬ e.1 < k := by
  rw [List.filter_map, atOrAbove]
  congr 1
  refine List.filter_congr fun e he => ?_
  obtain ⟨x, hx⟩ := h.exists_key he
  simp only [Function.comp_apply, bytesOf, ← hx, pack_asNibbles, asNibbles_lt_iff]

theorem Tracks.iterates (h : Tracks sha3 db root m t) :
    Iterates db root (t.words.map bytesOf) := by
  rw [h.root_eq]
  refine ⟨h.rooted.begin h.canonical fun e he => h.represents.exists_key he, fun k => ?_⟩
  obtain ⟨it, hit, hbound⟩ := h.rooted.lowerBound h.canonical k
  have heven : ∀ e ∈ atOrAbove (asNibbles k) t.words, ∃ k', asNibbles k' = e.1 :=
    fun e he => h.represents.exists_key (List.mem_of_mem_filter he)
  obtain ⟨n, hn⟩ := hit.visit h.canonical h.rooted.2 heven
  have hat := hit.at?_eq heven
  rw [h.represents.map_atOrAbove] at hat hn
  refine ⟨it, hbound, hat, ?_, n + (atOrAbove (asNibbles k) t.words).length + 1,
    fun fuel hfuel => hn fuel (by omega) fuel (by omega)⟩
  rw [hit.isEnd_iff, ← List.map_eq_nil_iff (f := bytesOf), h.represents.map_atOrAbove,
    List.filter_eq_nil_iff]
  simp

/-- The iterators over a trie of insertions enumerate the values last inserted. -/
theorem iterates_inserts (sha3 : Bytes → H256) (entries : List (Bytes × Value))
    (hsha : Set.InjOn sha3 {b | b ∈ (history sha3 (inserts entries)).writes MemoryDB.fresh}) :
    ∃ root db es, (history sha3 (inserts entries)).run MemoryDB.fresh = (some root, db) ∧
      Lists (lastInserted entries) es ∧ Iterates db root es := by
  obtain ⟨root, db, hrun, t, ht⟩ := history_tracks (clear_inserts entries MemoryDB.fresh)
    (history_safe lookup_fresh _ hsha)
  exact ⟨root, db, _, hrun, ht.represents.lists (lookup_contents_inserts entries), ht.iterates⟩

theorem iterates_inserts_letters : ∃ root db es,
    (history knownDigest (inserts [([0x12], letterA), ([], letterB), ([0x12], letterB)])).run
      MemoryDB.fresh = (some root, db) ∧
      Lists (lastInserted [([0x12], letterA), ([], letterB), ([0x12], letterB)]) es ∧
      Iterates db root es :=
  iterates_inserts knownDigest [([0x12], letterA), ([], letterB), ([0x12], letterB)]
    (injOn_of_list (by decide +kernel))

end Entries

end TrieDB
end XChain
