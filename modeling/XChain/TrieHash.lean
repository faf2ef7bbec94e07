import Mathlib.Data.List.AList
import Mathlib.Data.List.FinRange
import Mathlib.Data.List.Lex
import Mathlib.Order.Fin.Basic
import XChain.PatriciaWords
import XChain.TrieNode

/-!
# The root computed from the map

`hash256` computes the root of a whole map by one recursion over the ordered map of
its keys in nibbles. The node it builds is the item of the canonical trie of the
map, so its hash is the digest of every canonical trie that represents the map.
-/
namespace XChain
namespace TrieDB

variable (sha3 : Bytes → H256)

/-- A map from keys to values. -/
abbrev BytesMap := AList fun _ : Bytes => Bytes

abbrev HexEntry := List Nibble × Bytes

/-- A map from keys in nibbles to values, in increasing order of the keys. -/
abbrev HexMap := List HexEntry

/-- `map[k] = v`. -/
def HexMap.set : HexMap → List Nibble → Bytes → HexMap
  | [], k, v => [(k, v)]
  | (k', v') :: m, k, v =>
    if k < k' then (k, v) :: (k', v') :: m
    else if k = k' then (k, v) :: m
    else (k', v') :: HexMap.set m k v

/-- The comparison loop over two keys, from `shared` on for at most `n` nibbles. -/
def sharedLoop (k i : List Nibble) : ℕ → ℕ → ℕ
  | 0, shared => shared
  | n + 1, shared => if k[shared]? = i[shared]? then sharedLoop k i n (shared + 1) else shared

/-- One round of the loop that compares the first key `k` with another one. -/
def sharedStep (k : List Nibble) (preLen sharedPre : ℕ) (i : HexEntry) : ℕ :=
  min (sharedLoop k i.1 (min sharedPre (min k.length i.1.length) - preLen) preLen) sharedPre

/-- How many nibbles the first key has in common with every other one. The source
starts from the largest `unsigned`; the length of the first key bounds every step. -/
def sharedPrefix (k : List Nibble) (preLen : ℕ) (others : HexMap) : ℕ :=
  others.foldl (sharedStep k preLen) k.length

/-- The sixteen slots of a branch: each takes the entries with its nibble from the
front of the range. -/
def branchSlots (aux : HexMap → Option Item) (preLen : ℕ) : List Nibble → HexMap →
    Option (List Item)
  | [], _ => some []
  | i :: is, b => do
    let n := b.takeWhile fun e => e.1[preLen]? = some i
    let slot ← (if n = [] then some (.data []) else aux n)
    let slots ← branchSlots aux preLen is (b.dropWhile fun e => e.1[preLen]? = some i)
    some (slot :: slots)

mutual

/-- The node of the entries of a range, whose keys agree in `preLen` nibbles. -/
def hash256rlp : ℕ → HexMap → ℕ → Option Item
  | 0, _, _ => none
  | _ + 1, [], _ => some (.data [])
  | _ + 1, [(k, v)], preLen =>
    some (.list [.data (hexPrefixEncodeHex k true preLen (-1)), .data v])
  | fuel + 1, (k, v) :: e :: s, preLen => do
    let sharedPre := sharedPrefix k preLen (e :: s)
    if preLen < sharedPre then do
      let child ← hash256aux fuel ((k, v) :: e :: s) sharedPre
      some (.list [.data (hexPrefixEncodeHex k false preLen sharedPre), child])
    else do
      let b := if preLen = k.length then e :: s else (k, v) :: e :: s
      let slots ← branchSlots (fun n => hash256aux fuel n (preLen + 1)) preLen (List.finRange 16) b
      some (.list (slots ++ [.data (if preLen = k.length then v else [])]))

def hash256aux : ℕ → HexMap → ℕ → Option Item
  | 0, _, _ => none
  | fuel + 1, s, preLen => (hash256rlp fuel s preLen).map (embed sha3)

end

/-- The ordered map of the keys in nibbles. -/
def hexMap (m : BytesMap) : HexMap :=
  m.entries.foldr (fun e h => h.set (asNibbles e.1) e.2) []

def rlp256 (m : BytesMap) : Option Item :=
  if m.entries = [] then some (.data [])
  else hash256rlp sha3 (2 * ((hexMap m).map fun e => e.1.length).sum + 1) (hexMap m) 0

def hash256 (m : BytesMap) : Option H256 := (rlp256 sha3 m).map fun x => sha3 (Rlp.encode x)

section Order

/-- The keys of the range increase. -/
def Increasing (m : HexMap) : Prop := m.Pairwise fun a b => a.1 < b.1

lemma mem_set {m : HexMap} (hm : Increasing m) {k k' : List Nibble} {v v' : Bytes} :
    (k', v') ∈ m.set k v ↔ (k' = k ∧ v' = v) ∨ (k' ≠ k ∧ (k', v') ∈ m) := by
  induction m with
  | nil => simp [HexMap.set]
  | cons e m ih =>
    obtain ⟨l, w⟩ := e
    obtain ⟨hlt, hm⟩ := List.pairwise_cons.mp hm
    have hnot : ∀ u, k ≤ l → (k, u) ∉ m := fun u hle hu => absurd (hlt _ hu) (not_lt.mpr hle)
    unfold HexMap.set
    split_ifs with h₁ h₂
    · simp only [List.mem_cons, Prod.mk.injEq]
      constructor
      · rintro (h | ⟨rfl, rfl⟩ | h)
        · exact Or.inl h
        · exact Or.inr ⟨h₁.ne', Or.inl ⟨rfl, rfl⟩⟩
        · refine Or.inr ⟨?_, Or.inr h⟩
          rintro rfl
          exact hnot v' h₁.le h
      · rintro (h | ⟨-, h⟩)
        · exact Or.inl h
        · exact Or.inr h
    · subst h₂
      simp only [List.mem_cons, Prod.mk.injEq]
      constructor
      · rintro (h | h)
        · exact Or.inl h
        · refine Or.inr ⟨?_, Or.inr h⟩
          rintro rfl
          exact hnot v' le_rfl h
      · rintro (h | ⟨hne, ⟨h, -⟩ | h⟩)
        · exact Or.inl h
        · exact absurd h hne
        · exact Or.inr h
    · simp only [List.mem_cons, Prod.mk.injEq, ih hm]
      constructor
      · rintro (⟨rfl, rfl⟩ | h | ⟨hne, h⟩)
        · exact Or.inr ⟨fun h => h₂ h.symm, Or.inl ⟨rfl, rfl⟩⟩
        · exact Or.inl h
        · exact Or.inr ⟨hne, Or.inr h⟩
      · rintro (h | ⟨hne, h | h⟩)
        · exact Or.inr (Or.inl h)
        · exact Or.inl h
        · exact Or.inr (Or.inr ⟨hne, h⟩)

lemma increasing_set {m : HexMap} (hm : Increasing m) (k : List Nibble) (v : Bytes) :
    Increasing (m.set k v) := by
  induction m with
  | nil => simp [HexMap.set, Increasing]
  | cons e m ih =>
    obtain ⟨l, w⟩ := e
    obtain ⟨hlt, hm'⟩ := List.pairwise_cons.mp hm
    unfold HexMap.set
    split_ifs with h₁ h₂
    · refine List.pairwise_cons.mpr ⟨?_, hm⟩
      rintro e he
      rcases List.mem_cons.mp he with rfl | he
      · exact h₁
      · exact h₁.trans (hlt e he)
    · subst h₂
      exact List.pairwise_cons.mpr ⟨hlt, hm'⟩
    · refine List.pairwise_cons.mpr ⟨?_, ih hm'⟩
      rintro ⟨k', v'⟩ he
      rcases (mem_set hm').mp he with ⟨rfl, rfl⟩ | ⟨-, he⟩
      · exact lt_of_le_of_ne (not_lt.mp h₁) (fun h => h₂ h.symm)
      · exact hlt _ he

lemma foldr_set_spec (l : List (Sigma fun _ : Bytes => Bytes)) (hl : l.NodupKeys) :
    Increasing (l.foldr (fun e h => HexMap.set h (asNibbles e.1) e.2) []) ∧
      ∀ n v, (n, v) ∈ l.foldr (fun e h => HexMap.set h (asNibbles e.1) e.2) [] ↔
        ∃ k, asNibbles k = n ∧ ⟨k, v⟩ ∈ l := by
  induction l with
  | nil => simp [Increasing]
  | cons e l ih =>
    obtain ⟨k₀, v₀⟩ := e
    obtain ⟨hnot, hl'⟩ := List.nodupKeys_cons.mp hl
    obtain ⟨hinc, hmem⟩ := ih hl'
    refine ⟨increasing_set hinc _ _, fun n v => ?_⟩
    rw [List.foldr_cons, mem_set hinc, hmem]
    constructor
    · rintro (⟨rfl, rfl⟩ | ⟨hne, k, rfl, hk⟩)
      · exact ⟨k₀, rfl, List.mem_cons_self⟩
      · exact ⟨k, rfl, List.mem_cons_of_mem _ hk⟩
    · rintro ⟨k, rfl, hk⟩
      rcases List.mem_cons.mp hk with h | h
      · simp only [Sigma.mk.injEq, heq_eq_eq] at h
        exact Or.inl ⟨congrArg asNibbles h.1, h.2⟩
      · refine Or.inr ⟨fun heq => ?_, k, rfl, h⟩
        obtain rfl := asNibbles_injective heq
        have hkey : k ∈ l.keys := List.mem_keys_of_mem h
        exact hnot hkey

lemma increasing_hexMap (m : BytesMap) : Increasing (hexMap m) :=
  (foldr_set_spec m.entries m.nodupKeys).1

lemma mem_hexMap {m : BytesMap} {n : List Nibble} {v : Bytes} :
    (n, v) ∈ hexMap m ↔ ∃ k, asNibbles k = n ∧ m.lookup k = some v := by
  rw [hexMap, (foldr_set_spec m.entries m.nodupKeys).2]
  constructor
  · rintro ⟨k, hn, hk⟩
    exact ⟨k, hn, AList.mem_lookup_iff.mpr hk⟩
  · rintro ⟨k, hn, hk⟩
    exact ⟨k, hn, AList.mem_lookup_iff.mp hk⟩

end Order

section Shared

/-- The loop finds the agreement of two keys behind `shared`, up to `n` nibbles. -/
lemma sharedLoop_spec (k i : List Nibble) (n shared : ℕ) :
    shared ≤ sharedLoop k i n shared ∧ sharedLoop k i n shared ≤ shared + n ∧
      (∀ j, shared ≤ j → j < sharedLoop k i n shared → k[j]? = i[j]?) ∧
      (sharedLoop k i n shared < shared + n →
        k[sharedLoop k i n shared]? ≠ i[sharedLoop k i n shared]?) := by
  induction n generalizing shared with
  | zero => simp [sharedLoop]; omega
  | succ n ih =>
    unfold sharedLoop
    split_ifs with h
    · obtain ⟨h₁, h₂, h₃, h₄⟩ := ih (shared + 1)
      refine ⟨by omega, by omega, fun j hj hlt => ?_, fun hlt => h₄ (by omega)⟩
      rcases Nat.eq_or_lt_of_le hj with rfl | hj
      · exact h
      · exact h₃ j hj hlt
    · exact ⟨le_rfl, by omega, fun j hj hlt => by omega, fun _ => h⟩

/-- What the rounds over the other keys find, from any bound `p` on. -/
lemma sharedStep_foldl (k : List Nibble) (preLen : ℕ) (others : HexMap) (p : ℕ) (hp : preLen ≤ p)
    (hpk : p ≤ k.length) (hothers : ∀ e ∈ others, preLen ≤ e.1.length) :
    preLen ≤ others.foldl (sharedStep k preLen) p ∧ others.foldl (sharedStep k preLen) p ≤ p ∧
      (∀ e ∈ others, others.foldl (sharedStep k preLen) p ≤ e.1.length ∧
        ∀ j, preLen ≤ j → j < others.foldl (sharedStep k preLen) p → k[j]? = e.1[j]?) ∧
      (others.foldl (sharedStep k preLen) p < p → ∃ e ∈ others,
        e.1.length = others.foldl (sharedStep k preLen) p ∨
          k[others.foldl (sharedStep k preLen) p]? ≠ e.1[others.foldl (sharedStep k preLen) p]?) := by
  induction others generalizing p with
  | nil => exact ⟨hp, le_rfl, by simp, fun h => absurd h (lt_irrefl _)⟩
  | cons e others ih =>
    obtain ⟨l, w⟩ := e
    have hl : preLen ≤ l.length := hothers (l, w) List.mem_cons_self
    obtain ⟨h₁, h₂, h₃, h₄⟩ := sharedLoop_spec k l (min p (min k.length l.length) - preLen) preLen
    have hx : preLen + (min p (min k.length l.length) - preLen) = min p (min k.length l.length) := by
      omega
    rw [hx] at h₂ h₄
    have hstep : sharedStep k preLen p (l, w) =
        sharedLoop k l (min p (min k.length l.length) - preLen) preLen := by
      simp only [sharedStep]
      omega
    rw [List.foldl_cons, hstep]
    obtain ⟨g₁, g₂, g₃, g₄⟩ := ih _ h₁ (by omega)
      fun e he => hothers e (List.mem_cons_of_mem _ he)
    refine ⟨g₁, by omega, fun e he => ?_, fun hlt => ?_⟩
    · rcases List.mem_cons.mp he with rfl | he
      · exact ⟨by simp only; omega, fun j hj hlt => h₃ j hj (by omega)⟩
      · exact g₃ e he
    · rcases Nat.eq_or_lt_of_le g₂ with heq | hlt'
      · refine ⟨(l, w), List.mem_cons_self, ?_⟩
        rw [heq] at hlt ⊢
        clear g₃ g₄
        by_cases hll : l.length = sharedLoop k l (min p (min k.length l.length) - preLen) preLen
        · exact Or.inl hll
        · exact Or.inr (h₄ (by omega))
      · obtain ⟨e, he, hdiff⟩ := g₄ hlt'
        exact ⟨e, List.mem_cons_of_mem _ he, hdiff⟩

end Shared

section Ranges

/-- Entries in increasing order whose keys begin with `pre`; no value is empty. -/
structure Range (pre : List Nibble) (s : HexMap) : Prop where
  increasing : Increasing s
  begins : ∀ e ∈ s, pre <+: e.1
  values : ∀ e ∈ s, e.2 ≠ []

/-- The trie holds the entries of the range, without the common beginning. -/
def Holds (pre : List Nibble) (s : HexMap) (t : Trie) : Prop :=
  ∀ n v, t.get n = some v ↔ (pre ++ n, v.val) ∈ s

lemma Range.sublist {pre : List Nibble} {s s' : HexMap} (h : Range pre s) (hs : s'.Sublist s) :
    Range pre s' where
  increasing := h.increasing.sublist hs
  begins e he := h.begins e (hs.subset he)
  values e he := h.values e (hs.subset he)

/-- The first key of a range occurs once. -/
lemma Range.head_unique {pre k : List Nibble} {v w : Bytes} {others : HexMap}
    (h : Range pre ((k, v) :: others)) (hw : (k, w) ∈ (k, v) :: others) : w = v := by
  rcases List.mem_cons.mp hw with heq | hw
  · exact congrArg Prod.snd heq
  · exact absurd ((List.pairwise_cons.mp h.increasing).1 _ hw) (lt_irrefl k)

lemma getElem?_of_begins {pre k : List Nibble} (h : pre <+: k) {j : ℕ} (hj : j < pre.length) :
    k[j]? = pre[j]? := by
  obtain ⟨r, rfl⟩ := h
  exact List.getElem?_append_left hj

/-- Where the keys of a range part: they agree up to `sharedPrefix`, and there the
first key differs from another one. -/
lemma sharedPrefix_spec {pre k : List Nibble} {v : Bytes} {others : HexMap}
    (h : Range pre ((k, v) :: others)) (hne : others ≠ []) :
    pre.length ≤ sharedPrefix k pre.length others ∧
      sharedPrefix k pre.length others ≤ k.length ∧
      (∀ e ∈ others, k.take (sharedPrefix k pre.length others) <+: e.1) ∧
      ∃ e ∈ others, k[sharedPrefix k pre.length others]? ≠
        e.1[sharedPrefix k pre.length others]? := by
  have hk : pre <+: k := h.begins (k, v) List.mem_cons_self
  have hothers : ∀ e ∈ others, pre <+: e.1 := fun e he => h.begins e (List.mem_cons_of_mem _ he)
  obtain ⟨h₁, h₂, h₃, h₄⟩ := sharedStep_foldl k pre.length others k.length hk.length_le le_rfl
    fun e he => (hothers e he).length_le
  change pre.length ≤ sharedPrefix k pre.length others at h₁
  change sharedPrefix k pre.length others ≤ k.length at h₂
  have hprefix : ∀ e ∈ others, k.take (sharedPrefix k pre.length others) <+: e.1 := by
    intro e he
    obtain ⟨hlen, hagree⟩ := h₃ e he
    change sharedPrefix k pre.length others ≤ e.1.length at hlen
    have htake : k.take (sharedPrefix k pre.length others) =
        e.1.take (sharedPrefix k pre.length others) := by
      apply List.ext_getElem?
      intro j
      by_cases hj : j < sharedPrefix k pre.length others
      · rw [List.getElem?_take_of_lt hj, List.getElem?_take_of_lt hj]
        by_cases hpre : j < pre.length
        · rw [getElem?_of_begins hk hpre, getElem?_of_begins (hothers e he) hpre]
        · exact hagree j (by omega) hj
      · rw [List.getElem?_eq_none (by simp; omega), List.getElem?_eq_none (by simp; omega)]
    rw [htake]
    exact List.take_prefix _ _
  refine ⟨h₁, h₂, hprefix, ?_⟩
  rcases Nat.eq_or_lt_of_le h₂ with heq | hlt
  · obtain ⟨e, others', rfl⟩ := List.exists_cons_of_ne_nil hne
    refine ⟨e, List.mem_cons_self, ?_⟩
    have hp := hprefix e List.mem_cons_self
    have hlt : k < e.1 := (List.pairwise_cons.mp h.increasing).1 e List.mem_cons_self
    rw [heq, List.take_length] at hp
    obtain ⟨r, hr⟩ := hp
    rw [heq, ← hr]
    cases r with
    | nil =>
      rw [List.append_nil] at hr
      rw [← hr] at hlt
      exact absurd hlt (lt_irrefl _)
    | cons x r => simp
  · obtain ⟨e, he, hdiff⟩ := h₄ hlt
    change e.1.length = sharedPrefix k pre.length others ∨ k[sharedPrefix k pre.length others]? ≠
      e.1[sharedPrefix k pre.length others]? at hdiff
    refine ⟨e, he, ?_⟩
    rcases hdiff with hlen | hdiff
    · rw [List.getElem?_eq_getElem hlt, List.getElem?_eq_none hlen.le]
      simp
    · exact hdiff

/-- Each slot gets exactly the entries with its nibble. -/
lemma branchSlots_eq (aux : HexMap → Option Item) (preLen : ℕ) (slot : Nibble → Item)
    (is : List Nibble) (his : is.Pairwise (· < ·)) (b : HexMap)
    (hb : b.Pairwise fun x y => ∀ i j, x.1[preLen]? = some i → y.1[preLen]? = some j → i ≤ j)
    (hin : ∀ e ∈ b, ∃ i ∈ is, e.1[preLen]? = some i)
    (hslot : ∀ i ∈ is, (if b.filter (fun e => e.1[preLen]? = some i) = [] then
        some (.data []) else aux (b.filter fun e => e.1[preLen]? = some i)) = some (slot i)) :
    branchSlots aux preLen is b = some (is.map slot) := by
  induction is generalizing b with
  | nil => rfl
  | cons i is ih =>
    obtain ⟨hi, his⟩ := List.pairwise_cons.mp his
    have hsplit : b.takeWhile (fun e => e.1[preLen]? = some i) =
          b.filter (fun e => e.1[preLen]? = some i) ∧
        b.dropWhile (fun e => e.1[preLen]? = some i) =
          b.filter (fun e => ¬ e.1[preLen]? = some i) := by
      clear hslot ih
      induction b with
      | nil => simp
      | cons e b ihb =>
        obtain ⟨he, hb⟩ := List.pairwise_cons.mp hb
        by_cases hei : e.1[preLen]? = some i
        · obtain ⟨h₁, h₂⟩ := ihb hb fun e' he' => hin e' (List.mem_cons_of_mem _ he')
          simp [hei, h₁, h₂]
        · -- The nibbles do not decrease, so nothing behind `e` has nibble `i`.
          have hnone : ∀ e' ∈ b, ¬ e'.1[preLen]? = some i := by
            intro e' he' hei'
            obtain ⟨j, hj, hej⟩ := hin e List.mem_cons_self
            have hle := he e' he' j i hej hei'
            rcases List.mem_cons.mp hj with rfl | hj
            · exact hei hej
            · exact absurd (hi j hj) (not_lt.mpr hle)
          constructor
          · simp only [List.takeWhile_cons, hei, decide_false, Bool.false_eq_true, if_false,
              List.filter_cons]
            exact (List.filter_eq_nil_iff.mpr (by simpa using hnone)).symm
          · simp only [List.dropWhile_cons, hei, decide_false, Bool.false_eq_true, if_false,
              List.filter_cons, not_false_eq_true, decide_true, if_true]
            rw [List.filter_eq_self.mpr (by simpa using hnone)]
    have hrest := ih his (b.filter fun e => ¬ e.1[preLen]? = some i)
      (hb.sublist List.filter_sublist) (by
        intro e he
        obtain ⟨hmem, hne⟩ := List.mem_filter.mp he
        obtain ⟨j, hj, hej⟩ := hin e hmem
        rcases List.mem_cons.mp hj with rfl | hj
        · exact absurd hej (by simpa using hne)
        · exact ⟨j, hj, hej⟩) (by
        intro j hj
        have hji : j ≠ i := (hi j hj).ne'
        have hfilter : (b.filter fun e => ¬ e.1[preLen]? = some i).filter
            (fun e => e.1[preLen]? = some j) = b.filter fun e => e.1[preLen]? = some j := by
          rw [List.filter_filter]
          apply List.filter_congr
          intro e _
          by_cases hej : e.1[preLen]? = some j <;> simp [hej, hji]
        rw [hfilter]
        exact hslot j (List.mem_cons_of_mem _ hj))
    rw [branchSlots, hsplit.1, hsplit.2, hrest, hslot i List.mem_cons_self]
    rfl

/-- A key with the beginning `pre` and the nibble `i` behind it. -/
lemma prefix_snoc_iff {pre k : List Nibble} {i : Nibble} (h : pre <+: k) :
    pre ++ [i] <+: k ↔ k[pre.length]? = some i := by
  obtain ⟨r, rfl⟩ := h
  rw [List.prefix_append_right_inj, List.getElem?_append_right le_rfl, Nat.sub_self]
  cases r with
  | nil => simp
  | cons j r => simp [List.cons_prefix_cons, eq_comm]

/-- The entries that go into the slots of a branch: the first key goes into the
value slot when it ends here. -/
lemma branch_entries {pre k : List Nibble} {v : Bytes} {others : HexMap}
    (h : Range pre ((k, v) :: others)) {e : HexEntry} :
    e ∈ (if pre.length = k.length then others else (k, v) :: others) ↔
      e ∈ (k, v) :: others ∧ e.1 ≠ pre := by
  have hk : pre <+: k := h.begins (k, v) List.mem_cons_self
  have hlt := (List.pairwise_cons.mp h.increasing).1
  split_ifs with hlen
  · obtain rfl := hk.eq_of_length hlen
    constructor
    · exact fun he => ⟨List.mem_cons_of_mem _ he, (hlt e he).ne'⟩
    · rintro ⟨he, hne⟩
      rcases List.mem_cons.mp he with rfl | he
      · exact absurd rfl hne
      · exact he
  · refine ⟨fun he => ⟨he, ?_⟩, fun he => he.1⟩
    rintro rfl
    rcases List.mem_cons.mp he with rfl | he
    · exact hlen rfl
    · exact absurd (hlt e he) hk.le

/-- The nibbles behind the common beginning do not decrease along a range. -/
lemma Range.nibbles_sorted {pre : List Nibble} {s : HexMap} (h : Range pre s) :
    s.Pairwise fun x y => ∀ i j, x.1[pre.length]? = some i → y.1[pre.length]? = some j →
      i ≤ j := by
  refine h.increasing.imp_of_mem fun {x y} hx hy hlt i j hi hj => ?_
  obtain ⟨r, hr⟩ := (prefix_snoc_iff (h.begins x hx)).mpr hi
  obtain ⟨r', hr'⟩ := (prefix_snoc_iff (h.begins y hy)).mpr hj
  rw [← hr, ← hr', List.append_assoc, List.append_assoc, Patricia.append_lt_append] at hlt
  rcases List.cons_lt_cons_iff.mp hlt with hlt | ⟨rfl, -⟩
  · exact hlt.le
  · exact le_rfl

/-- The canonical trie of a range. The keys may part right behind the beginning:
then the trie is a branch. -/
def Builds (pre : List Nibble) (s : HexMap) (t : Trie) : Prop :=
  t.Canonical ∧ Holds pre s t ∧
    ((∃ e ∈ s, ∃ e' ∈ s, e.1[pre.length]? ≠ e'.1[pre.length]?) → t.IsBranch)

lemma builds_single {pre k : List Nibble} {v : Bytes} (h : Range pre [(k, v)]) :
    Builds pre [(k, v)] (.leaf (k.drop pre.length) ⟨v, h.values (k, v) List.mem_cons_self⟩) := by
  refine ⟨trivial, fun n w => ?_, ?_⟩
  · obtain ⟨r, rfl⟩ := h.begins (k, v) List.mem_cons_self
    rw [List.drop_left, Patricia.get_leaf]
    constructor
    · intro heq
      split_ifs at heq with hr
      obtain rfl := Option.some.inj heq
      subst hr
      exact List.mem_cons_self
    · intro hmem
      obtain ⟨hr, hw⟩ := Prod.mk.inj (List.mem_singleton.mp hmem)
      rw [if_pos (List.append_cancel_left hr).symm]
      exact congrArg some (Subtype.ext hw.symm)
  · rintro ⟨e, he, e', he', hne⟩
    rw [List.mem_singleton.mp he, List.mem_singleton.mp he'] at hne
    exact absurd rfl hne

/-- An edge in front of the trie of a range whose keys agree further. -/
lemma builds_ext {pre l : List Nibble} {s : HexMap} {t : Trie} (hl : l ≠ [])
    (hall : ∀ e ∈ s, pre ++ l <+: e.1) (h : Builds (pre ++ l) s t) (hb : t.IsBranch) :
    Builds pre s (.ext l t) := by
  refine ⟨⟨hl, hb, h.1⟩, fun n v => ?_, ?_⟩
  · by_cases hp : l <+: n
    · obtain ⟨r, rfl⟩ := hp
      rw [Patricia.get_ext_append, h.2.1 r v, List.append_assoc]
    · rw [Patricia.get_ext_eq_none _ hp]
      refine ⟨fun hv => (Option.some_ne_none v hv.symm).elim, fun hmem => absurd ?_ hp⟩
      exact (List.prefix_append_right_inj pre).mp (hall _ hmem)
  · rintro ⟨e, he, e', he', hne⟩
    have hpos := List.length_pos_of_ne_nil hl
    have hlen : pre.length < (pre ++ l).length := by simp [hpos]
    rw [getElem?_of_begins (hall e he) hlen, getElem?_of_begins (hall e' he') hlen] at hne
    exact absurd rfl hne

/-- A branch over the tries of the sixteen ranges. -/
lemma builds_branch {pre k : List Nibble} {v : Bytes} {others : HexMap} {c : Nibble → Trie}
    (h : Range pre ((k, v) :: others))
    (hpart : ∃ e ∈ others, k[pre.length]? ≠ e.1[pre.length]?)
    (hc : ∀ i, Builds (pre ++ [i]) (((k, v) :: others).filter fun e => e.1[pre.length]? = some i)
      (c i)) :
    Builds pre ((k, v) :: others) (.branch c (if pre.length = k.length then
      some ⟨v, h.values (k, v) List.mem_cons_self⟩ else none)) := by
  have hk : pre <+: k := h.begins (k, v) List.mem_cons_self
  have hlt := (List.pairwise_cons.mp h.increasing).1
  have hholds : Holds pre ((k, v) :: others) (.branch c (if pre.length = k.length then
      some ⟨v, h.values (k, v) List.mem_cons_self⟩ else none)) := by
    rintro (_ | ⟨i, n⟩) w
    · rw [Patricia.get_branch_nil, List.append_nil]
      split_ifs with hlen
      · obtain rfl := hk.eq_of_length hlen
        constructor
        · rintro heq
          obtain rfl := Option.some.inj heq
          exact List.mem_cons_self
        · exact fun hmem => congrArg some (Subtype.ext (h.head_unique hmem).symm)
      · refine ⟨fun hv => hv.elim, fun hmem => ?_⟩
        rcases List.mem_cons.mp hmem with heq | hmem
        · exact absurd (congrArg (fun e => e.1.length) heq) hlen
        · exact absurd (hlt _ hmem) hk.le
    · have happ : pre ++ i :: n = pre ++ [i] ++ n := by simp
      rw [Patricia.get_branch_cons, (hc i).2.1 n w, ← happ, List.mem_filter]
      simp
  -- Every key of the range occupies the slot of its nibble.
  have hused : ∀ e ∈ (k, v) :: others, Patricia.Used c (if pre.length = k.length then
      some ⟨v, h.values (k, v) List.mem_cons_self⟩ else none) e.1[pre.length]? := by
    intro e he
    obtain ⟨r, hr⟩ := h.begins e he
    have hget := (hholds r ⟨e.2, h.values e he⟩).mpr (by rw [hr]; exact he)
    cases r with
    | nil =>
      have hnone : e.1[pre.length]? = none := by
        rw [← hr, List.append_nil]
        simp
      rw [hnone]
      intro hval
      rw [Patricia.get_branch_nil, hval] at hget
      cases hget
    | cons i r =>
      have hsome : e.1[pre.length]? = some i := by
        rw [← hr]
        simp
      rw [hsome]
      intro hempty
      rw [Patricia.get_branch_cons, hempty] at hget
      cases hget
  obtain ⟨e, he, hne⟩ := hpart
  exact ⟨⟨fun i => (hc i).1, _, _, hne, hused (k, v) List.mem_cons_self,
    hused e (List.mem_cons_of_mem _ he)⟩, hholds, fun _ => trivial⟩

end Ranges

section Root

variable {sha3}

lemma range_filter {pre : List Nibble} {s : HexMap} (h : Range pre s) (i : Nibble) :
    Range (pre ++ [i]) (s.filter fun e => e.1[pre.length]? = some i) where
  increasing := h.increasing.sublist List.filter_sublist
  begins e he := by
    obtain ⟨hmem, hi⟩ := List.mem_filter.mp he
    exact (prefix_snoc_iff (h.begins e hmem)).mpr (by simpa using hi)
  values e he := h.values e (List.mem_filter.mp he).1

/-- All keys agree further: an edge, and the same range behind it. -/
lemma hash256rlp_edge {f : ℕ} {pre r : List Nibble} {v : Bytes} {e : HexEntry} {s : HexMap}
    (h : Range pre ((pre ++ r, v) :: e :: s))
    (hext : pre.length < sharedPrefix (pre ++ r) pre.length (e :: s))
    (ih : ∀ pre', pre'.length = sharedPrefix (pre ++ r) pre.length (e :: s) →
      Range pre' ((pre ++ r, v) :: e :: s) → ∃ t : Trie, Builds pre' ((pre ++ r, v) :: e :: s) t ∧
        hash256rlp sha3 f ((pre ++ r, v) :: e :: s) pre'.length = some (item sha3 t)) :
    ∃ t : Trie, Builds pre ((pre ++ r, v) :: e :: s) t ∧
      hash256rlp sha3 (f + 2) ((pre ++ r, v) :: e :: s) pre.length = some (item sha3 t) := by
  obtain ⟨-, hlek, hagree, e', he', hne⟩ := sharedPrefix_spec h (by simp)
  rw [List.length_append] at hlek
  have hsplit : (pre ++ r).take (sharedPrefix (pre ++ r) pre.length (e :: s)) =
      pre ++ r.take (sharedPrefix (pre ++ r) pre.length (e :: s) - pre.length) := by
    rw [List.take_append, List.take_of_length_le hext.le]
  have hlen : (pre ++ r.take (sharedPrefix (pre ++ r) pre.length (e :: s) - pre.length)).length =
      sharedPrefix (pre ++ r) pre.length (e :: s) := by
    rw [List.length_append, List.length_take]
    omega
  have hall : ∀ e' ∈ (pre ++ r, v) :: e :: s,
      pre ++ r.take (sharedPrefix (pre ++ r) pre.length (e :: s) - pre.length) <+: e'.1 := by
    intro e' he'
    rw [← hsplit]
    rcases List.mem_cons.mp he' with rfl | he'
    · exact List.take_prefix _ _
    · exact hagree e' he'
  obtain ⟨t, hbuilds, hrlp⟩ := ih _ hlen ⟨h.increasing, hall, h.values⟩
  have hb : t.IsBranch := hbuilds.2.2 ⟨(pre ++ r, v), List.mem_cons_self, e',
    List.mem_cons_of_mem _ he', by rw [hlen]; exact hne⟩
  have hlabel : r.take (sharedPrefix (pre ++ r) pre.length (e :: s) - pre.length) ≠ [] := by
    intro hnil
    rw [hnil, List.append_nil] at hlen
    omega
  refine ⟨_, builds_ext hlabel hall hbuilds hb, ?_⟩
  rw [hlen] at hrlp
  rw [hash256rlp]
  dsimp only
  rw [if_pos hext, hash256aux, hrlp, hexPrefixEncodeHex_eq _ _ _ _ (by simpa using hlek),
    List.drop_left]
  rfl

/-- The slots of a branch are the items of the tries behind them. -/
lemma branchSlots_builds {f : ℕ} {pre k : List Nibble} {v : Bytes} {others : HexMap}
    {c : Nibble → Trie} (h : Range pre ((k, v) :: others))
    (hc : ∀ i, Builds (pre ++ [i]) (((k, v) :: others).filter fun e => e.1[pre.length]? = some i)
      (c i))
    (hrlp : ∀ i : Nibble,
      hash256rlp sha3 f (((k, v) :: others).filter fun e => e.1[pre.length]? = some i)
        (pre.length + 1) = some (item sha3 (c i))) :
    branchSlots (fun n => hash256aux sha3 (f + 1) n (pre.length + 1)) pre.length
      (List.finRange 16) (if pre.length = k.length then others else (k, v) :: others) =
        some ((List.finRange 16).map fun i => embed sha3 (item sha3 (c i))) := by
  have hb : (if pre.length = k.length then others else (k, v) :: others).Sublist
      ((k, v) :: others) := by
    split_ifs
    · exact List.sublist_cons_self _ _
    · exact List.Sublist.refl _
  have hfilter : ∀ i : Nibble, (if pre.length = k.length then others
      else (k, v) :: others).filter (fun e => e.1[pre.length]? = some i) =
        ((k, v) :: others).filter fun e => e.1[pre.length]? = some i := by
    intro i
    split_ifs with hlen
    · have hnone : k[pre.length]? = none := by rw [hlen]; simp
      simp [hnone]
    · rfl
  apply branchSlots_eq
  · exact List.pairwise_lt_finRange 16
  · exact (h.sublist hb).nibbles_sorted
  · intro e he
    obtain ⟨hmem, hne⟩ := (branch_entries h).mp he
    obtain ⟨r, hr⟩ := h.begins e hmem
    cases r with
    | nil =>
      rw [List.append_nil] at hr
      exact absurd hr.symm hne
    | cons i r => exact ⟨i, List.mem_finRange i, by rw [← hr]; simp⟩
  · intro i _
    rw [hfilter]
    split_ifs with hnil
    · have hempty : c i = .empty := by
        by_contra hne
        obtain ⟨n, w, hn⟩ := (hc i).1.exists_get hne
        have hmem := ((hc i).2.1 n w).mp hn
        rw [hnil] at hmem
        cases hmem
      rw [hempty, embed_of_short sha3 (not_long_empty sha3)]
      rfl
    · rw [hash256aux, hrlp]
      rfl

/-- Two keys part right behind the beginning: a branch. -/
lemma hash256rlp_branch {f : ℕ} {pre k : List Nibble} {v : Bytes} {e : HexEntry} {s : HexMap}
    (h : Range pre ((k, v) :: e :: s)) (heq : sharedPrefix k pre.length (e :: s) = pre.length)
    (ih : ∀ i : Nibble, ∃ t : Trie,
      Builds (pre ++ [i]) (((k, v) :: e :: s).filter fun e => e.1[pre.length]? = some i) t ∧
        hash256rlp sha3 f (((k, v) :: e :: s).filter fun e => e.1[pre.length]? = some i)
          (pre.length + 1) = some (item sha3 t)) :
    ∃ t : Trie, Builds pre ((k, v) :: e :: s) t ∧
      hash256rlp sha3 (f + 2) ((k, v) :: e :: s) pre.length = some (item sha3 t) := by
  obtain ⟨-, -, -, hpart⟩ := sharedPrefix_spec h (by simp)
  rw [heq] at hpart
  choose c hc hrlp using ih
  refine ⟨_, builds_branch h hpart hc, ?_⟩
  rw [hash256rlp]
  dsimp only
  rw [if_neg heq.not_gt, branchSlots_builds h hc hrlp, item_branch]
  have hvalue : valueBytes (if pre.length = k.length then
      some ⟨v, h.values (k, v) List.mem_cons_self⟩ else none) =
        if pre.length = k.length then v else [] := by
    split_ifs <;> rfl
  rw [hvalue, List.ofFn_eq_map]
  rfl

/-- A range gives the item of its canonical trie; the keys are at most `bound` long. -/
theorem hash256rlp_spec {bound fuel : ℕ} {pre : List Nibble} {s : HexMap} (h : Range pre s)
    (hbound : ∀ e ∈ s, e.1.length ≤ bound) (hfuel : 2 * (bound - pre.length) + 1 ≤ fuel) :
    ∃ t : Trie, Builds pre s t ∧ hash256rlp sha3 fuel s pre.length = some (item sha3 t) := by
  induction fuel using Nat.strong_induction_on generalizing pre s with
  | _ fuel ih =>
    obtain ⟨f, rfl⟩ : ∃ f, fuel = f + 1 := ⟨fuel - 1, by omega⟩
    match s, h, hbound with
    | [], _, _ => exact ⟨.empty, ⟨trivial, by simp [Holds], by simp⟩, rfl⟩
    | [(k, v)], h, _ =>
      refine ⟨_, builds_single h, ?_⟩
      rw [hash256rlp, hexPrefixEncodeHex_all]
      rfl
    | (k, v) :: e :: s, h, hbound =>
      have hk : pre <+: k := h.begins (k, v) List.mem_cons_self
      have hklen : k.length ≤ bound := hbound (k, v) List.mem_cons_self
      obtain ⟨hle, hlek, -, e', he', hne⟩ := sharedPrefix_spec h (by simp)
      have hlong : pre.length < bound := by
        -- Two keys that part behind the beginning do not both end there.
        have hlen' := hbound e' (List.mem_cons_of_mem _ he')
        by_contra hshort
        apply hne
        rw [List.getElem?_eq_none (by omega), List.getElem?_eq_none (by omega)]
      obtain ⟨f', rfl⟩ : ∃ f', f = f' + 1 := ⟨f - 1, by omega⟩
      by_cases hext : pre.length < sharedPrefix k pre.length (e :: s)
      · obtain ⟨r, rfl⟩ := hk
        exact hash256rlp_edge h hext fun pre' hlen h' =>
          ih f' (by omega) h' hbound (by rw [hlen]; omega)
      · refine hash256rlp_branch h (by omega) fun i => ?_
        have hrec := ih f' (by omega) (range_filter h i)
          (fun e' he' => hbound e' (List.mem_filter.mp he').1)
          (by rw [List.length_append, List.length_singleton]; omega)
        rwa [List.length_append, List.length_singleton] at hrec

/-- The trie holds exactly the entries of the map. -/
def Represents (m : BytesMap) (t : Trie) : Prop :=
  ∀ n v, t.get n = some v ↔ ∃ k, asNibbles k = n ∧ m.lookup k = some v.val

/-- `hash256` gives the root of every canonical trie that represents the map. -/
theorem hash256_eq {m : BytesMap} (hm : ∀ k v, m.lookup k = some v → v ≠ []) {t : Trie}
    (ht : t.Canonical) (hrep : Represents m t) : hash256 sha3 m = some (digest sha3 t) := by
  have hrange : Range [] (hexMap m) := by
    refine ⟨increasing_hexMap m, fun _ _ => List.nil_prefix, ?_⟩
    rintro ⟨n, v⟩ he
    obtain ⟨k, -, hk⟩ := mem_hexMap.mp he
    exact hm k v hk
  have hbound : ∀ e ∈ hexMap m, e.1.length ≤ ((hexMap m).map fun e => e.1.length).sum :=
    fun e he => List.single_le_sum (by simp) _ (List.mem_map_of_mem he)
  obtain ⟨u, hu, hrlp⟩ : ∃ u : Trie, Builds [] (hexMap m) u ∧ hash256rlp sha3
      (2 * ((hexMap m).map fun e => e.1.length).sum + 1) (hexMap m) 0 = some (item sha3 u) :=
    hash256rlp_spec hrange hbound le_rfl
  have hut : u = t := by
    apply hu.1.unique ht
    intro n
    apply Option.ext
    intro v
    rw [hu.2.1 n v, hrep n v, List.nil_append, mem_hexMap]
  subst hut
  unfold hash256 rlp256
  split_ifs with hnil
  · have hempty : u = .empty := by
      by_contra hne
      obtain ⟨n, v, hn⟩ := ht.exists_get hne
      obtain ⟨k, -, hk⟩ := (hrep n v).mp hn
      have hmem : (⟨k, v.val⟩ : Sigma fun _ : Bytes => Bytes) ∈ m.entries :=
        AList.mem_lookup_iff.mp hk
      rw [hnil] at hmem
      cases hmem
    rw [hempty]
    rfl
  · rw [hrlp]
    rfl

end Root

end TrieDB
end XChain
