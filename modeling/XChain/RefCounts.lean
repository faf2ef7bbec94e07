import Mathlib.Order.Lattice.Nat
import XChain.TrieCorrect

/-!
# Reference counts

Over keys of which none begins another one, every operation keeps the counts in
the store equal to the number of places at which a hash stands in the trie. The
scan of the source, which strikes the hashes it meets off the list of live ones,
then strikes off all of them.
-/
namespace XChain
namespace TrieDB

open StoreProg

section Scan

variable (sha3 : Bytes → H256)

/-- `c_shaNull`, the root of the empty trie. -/
def shaNull : H256 := sha3 (Rlp.encode RLPNull)

/-- The slots of a branch one after another, empty ones aside. -/
def descendSlots {α : Type} (f : Item → α → Prog α) : List Item → α → Prog α
  | [], mask => pure mask
  | x :: xs, mask => do
    let mask' ← (if x.isEmpty then pure mask else f x mask)
    descendSlots f xs mask'

mutual

/-- The mask without the hashes met from a hash on. -/
def descendKey (mRoot : H256) : ℕ → H256 → List H256 → Bool → Prog (List H256)
  | 0, _, _, _ => .fail
  | fuel + 1, k, mask, wasExt =>
    if k = mRoot ∧ k = shaNull sha3 then pure (mask.filter (· ≠ k))
    else do
      let n ← node k
      let r ← ofOption n
      descendList mRoot fuel r (mask.filter (· ≠ k)) wasExt

def descendEntry (mRoot : H256) : ℕ → Item → List H256 → Bool → Prog (List H256)
  | 0, _, _, _ => .fail
  | fuel + 1, .data b, mask, wasExt => do
    assert (b.length = 32)
    let h ← ofOption (toHash (.data b))
    descendKey mRoot fuel h mask wasExt
  | fuel + 1, .list l, mask, wasExt => descendList mRoot fuel (.list l) mask wasExt

/-- An edge behind an edge, and an item that is no node, end the scan. -/
def descendList (mRoot : H256) : ℕ → Item → List H256 → Bool → Prog (List H256)
  | 0, _, _, _ => .fail
  | _ + 1, .data _, _, _ => .fail
  | fuel + 1, .list [a, b], mask, wasExt => do
    assert (wasExt = false)
    let leaf ← ofOption (isLeaf (.list [a, b]))
    if leaf then pure mask else descendEntry mRoot fuel b mask true
  | fuel + 1, .list l, mask, _ => do
    assert (l.length = 17)
    descendSlots (fun x mask => descendEntry mRoot fuel x mask false) (l.take 16) mask

end

/-- The live hashes that the scan from the root does not meet. -/
def leftOvers (fuel : ℕ) (root : H256) (db : MemoryDB) : Option (List H256) :=
  ((descendKey sha3 root fuel root db.keys false).run db).1

def check (fuel : ℕ) (root : H256) (db : MemoryDB) (requireNoLeftOvers : Bool) : Bool :=
  match leftOvers sha3 fuel root db with
  | some k => k.isEmpty || !requireNoLeftOvers
  | none => false

end Scan

/-- The hashes at which the unfolding of a slot meets nodes, once for each time. -/
def unfoldItem : ℕ → Item → List H256 → Prog (List H256)
  | 0, _, _ => .fail
  | fuel + 1, x, met =>
    match x with
    | .data b => do
      let h ← ofOption (toHash (.data b))
      let n ← node h
      let r ← ofOption n
      unfoldItem fuel r (h :: met)
    | .list [a, b] => do
      let leaf ← ofOption (isLeaf (.list [a, b]))
      if leaf then pure met else unfoldItem fuel b met
    | .list l => descendSlots (fun x met => unfoldItem fuel x met) (l.take 16) met

/-- The hashes of the tree unfolded from a root, the root with them. -/
def unfold (fuel : ℕ) (root : H256) : Prog (List H256) := do
  let n ← node root
  let r ← ofOption n
  if r.isEmpty then pure [root] else unfoldItem fuel r [root]

section Height

/-- The number of nodes on a longest way down. -/
def height : Trie → ℕ
  | .empty => 0
  | .leaf _ _ => 1
  | .ext _ t => height t + 1
  | .branch c _ => (Finset.univ.sup fun i => height (c i)) + 1

lemma height_lt_branch (c : Nibble → Trie) (v : Option Value) (i : Nibble) :
    height (c i) < height (.branch c v) :=
  Nat.lt_succ_of_le (Finset.le_sup (f := fun i => height (c i)) (Finset.mem_univ i))

end Height

variable {sha3 : Bytes → H256} {D : Type} [LawfulContentStore H256 Bytes D []] {db : D}

section Slots

variable {α : Type} {R : (H256 → ℕ) → α → α → Prop}

/-- What holds between the result of a slot and the slot's references holds, summed
up, for all slots of a branch. -/
lemma descendSlots_spec (hzero : ∀ a, R 0 a a)
    (hadd : ∀ {m n a b c}, R m a b → R n b c → R (m + n) a c) {f : Item → α → Prog α}
    {c : Nibble → Trie}
    (hf : ∀ i, c i ≠ .empty → ∀ a, ∃ a', (f (embed sha3 (item sha3 (c i))) a).run db =
      (some a', db) ∧ R (refs sha3 (c i)) a a') (v : Option Value) (a : α) :
    ∃ a', (descendSlots f (((List.ofFn fun i => embed sha3 (item sha3 (c i))) ++
      [Item.data (valueBytes v)]).take 16) a).run db = (some a', db) ∧
        R (childRefs sha3 (.branch c v)) a a' := by
  have hlist (l : List Nibble) (a : α) :
      ∃ a', (descendSlots f (l.map fun i => embed sha3 (item sha3 (c i))) a).run db =
        (some a', db) ∧ R (fun h => (l.map fun i => refs sha3 (c i) h).sum) a a' := by
    induction l generalizing a with
    | nil => exact ⟨a, rfl, hzero a⟩
    | cons i l ih =>
      have hstep : ∃ b, (if (embed sha3 (item sha3 (c i))).isEmpty then pure a
          else f (embed sha3 (item sha3 (c i))) a).run db = (some b, db) ∧
            R (refs sha3 (c i)) a b := by
        by_cases hempty : c i = .empty
        · rw [if_pos ((isEmpty_embed sha3 _).mpr hempty), hempty]
          refine ⟨a, rfl, ?_⟩
          rw [show refs sha3 .empty = 0 from funext (refs_empty sha3)]
          exact hzero a
        · rw [if_neg ((isEmpty_embed sha3 _).not.mpr hempty)]
          exact hf i hempty a
      obtain ⟨b, hb, hRb⟩ := hstep
      obtain ⟨a', ha', hR⟩ := ih b
      refine ⟨a', ?_, hadd hRb hR⟩
      rw [List.map_cons, descendSlots, run_bind, hb]
      exact ha'
  have hslots : ((List.ofFn fun i => embed sha3 (item sha3 (c i))) ++
      [Item.data (valueBytes v)]).take 16 =
        (List.finRange 16).map fun i => embed sha3 (item sha3 (c i)) := by
    rw [List.take_left' (by simp), List.ofFn_eq_map]
  obtain ⟨a', ha', hR⟩ := hlist (List.finRange 16) a
  refine ⟨a', by rw [hslots, ha'], ?_⟩
  have hsum : childRefs sha3 (.branch c v) =
      fun h => ((List.finRange 16).map fun i => refs sha3 (c i) h).sum := by
    funext h
    rw [childRefs_branch, ← List.ofFn_eq_map, List.sum_ofFn]
  rw [hsum]
  exact hR

end Slots

lemma run_node {h : H256} {x : Item} (hx : ContentStore.lookup db h = Rlp.encode x) :
    (node h).run db = (some (some x), db) := by
  change (some (Rlp.decode (ContentStore.lookup db h)), db) = _
  rw [hx, Rlp.decode_encode]

section Descend

variable {mRoot : H256}

/-- The mask without the hashes that occur. -/
def Strikes (n : H256 → ℕ) (mask mask' : List H256) : Prop :=
  mask' = mask.filter fun h => n h = 0

lemma strikes_zero (mask : List H256) : Strikes 0 mask mask := by
  simp [Strikes]

lemma Strikes.add {m n : H256 → ℕ} {a b c : List H256} (hab : Strikes m a b)
    (hbc : Strikes n b c) : Strikes (m + n) a c := by
  rw [Strikes] at hab hbc ⊢
  rw [hbc, hab, List.filter_filter]
  apply List.filter_congr
  intro h _
  simp [Nat.add_eq_zero_iff, Bool.and_comm]

lemma strikes_one (mask : List H256) (k : H256) :
    Strikes (fun h => if k = h then 1 else 0) mask (mask.filter (· ≠ k)) := by
  apply List.filter_congr
  intro h _
  by_cases hk : k = h <;> simp [hk, Ne.symm]

lemma descendList_branch (fuel : ℕ) {l : List Item} (hl : l.length = 17) (mask : List H256)
    (wasExt : Bool) :
    descendList sha3 mRoot (fuel + 1) (.list l) mask wasExt =
      descendSlots (fun x mask => descendEntry sha3 mRoot fuel x mask false) (l.take 16) mask := by
  match l, hl with
  | _ :: _ :: _ :: l, hl =>
    rw [descendList]
    · simp only [assert, hl]
      rfl
    · simp

/-- The scan below a node strikes off what the trie counts there. -/
def Descends (sha3 : Bytes → H256) (db : D) (mRoot : H256) (t : Trie) (wasExt : Bool) : Prop :=
  ∀ fuel, 3 * height t ≤ fuel → ∀ mask, ∃ mask',
    (descendList sha3 mRoot fuel (item sha3 t) mask wasExt).run db = (some mask', db) ∧
      Strikes (childRefs sha3 t) mask mask'

lemma descendEntry_spec (hroot : mRoot ≠ shaNull sha3) {t : Trie} (hne : t ≠ .empty)
    (hfound : Found sha3 db t) {wasExt : Bool} (h : Descends sha3 db mRoot t wasExt) {fuel : ℕ}
    (hfuel : 3 * height t + 2 ≤ fuel) (mask : List H256) :
    ∃ mask', (descendEntry sha3 mRoot fuel (embed sha3 (item sha3 t)) mask wasExt).run db =
      (some mask', db) ∧ Strikes (refs sha3 t) mask mask' := by
  obtain ⟨f, rfl⟩ : ∃ f, fuel = f + 2 := ⟨fuel - 2, by omega⟩
  by_cases hl : Long sha3 t
  · obtain ⟨mask', hrun, hstrikes⟩ := h f (by omega) (mask.filter (· ≠ digest sha3 t))
    refine ⟨mask', ?_, ?_⟩
    · have hkey : ¬ (digest sha3 t = mRoot ∧ digest sha3 t = shaNull sha3) := by
        rintro ⟨hm, hn⟩
        exact hroot (hm.symm.trans hn)
      rw [embed_of_long sha3 hl, descendEntry, run_bind, run_assert, if_pos (digest sha3 t).size]
      simp only [run_bind, toHash_bytes, run_ofOption]
      rw [descendKey, if_neg hkey]
      simp only [run_bind, run_node (hfound hl), run_ofOption]
      exact hrun
    · have hone : refs sha3 t = (fun h => if digest sha3 t = h then 1 else 0) + childRefs sha3 t := by
        funext x
        simp [refs, selfRef, hl]
      rw [hone]
      exact (strikes_one mask _).add hstrikes
  · obtain ⟨mask', hrun, hstrikes⟩ := h (f + 1) (by omega) mask
    refine ⟨mask', ?_, ?_⟩
    · rw [embed_of_short sha3 hl]
      cases t with
      | empty => contradiction
      | _ => exact hrun
    · have hzero : refs sha3 t = childRefs sha3 t := by
        funext x
        simp [refs, selfRef, hl]
      rwa [hzero]

theorem descends (hroot : mRoot ≠ shaNull sha3) {t : Trie} (ht : t.Canonical) (hne : t ≠ .empty)
    (hdb : Stored sha3 db t) {wasExt : Bool} (hw : wasExt = true → t.IsBranch) :
    Descends sha3 db mRoot t wasExt := by
  induction t generalizing wasExt with
  | empty => contradiction
  | leaf k v =>
    intro fuel hfuel mask
    obtain ⟨f, rfl⟩ : ∃ f, fuel = f + 1 := ⟨fuel - 1, by simp only [height] at hfuel; omega⟩
    have hext : wasExt = false := by
      cases wasExt with
      | false => rfl
      | true => exact (hw rfl).elim
    refine ⟨mask, ?_, strikes_zero mask⟩
    simp [item, descendList, hext]
  | ext k t ih =>
    intro fuel hfuel mask
    simp only [height] at hfuel
    obtain ⟨f, rfl⟩ : ∃ f, fuel = f + 1 := ⟨fuel - 1, by omega⟩
    have hext : wasExt = false := by
      cases wasExt with
      | false => rfl
      | true => exact (hw rfl).elim
    have hte : t ≠ .empty := by
      rintro rfl
      exact ht.2.1
    have hbelow : Descends sha3 db mRoot t true := ih ht.2.2 hte hdb.2 fun _ => ht.2.1
    obtain ⟨mask', hrun, hstrikes⟩ := descendEntry_spec hroot hte hdb.1 hbelow
      (by omega : 3 * height t + 2 ≤ f) mask
    refine ⟨mask', ?_, hstrikes⟩
    simp [item, descendList, hext, hrun]
  | branch c v ih =>
    intro fuel hfuel mask
    obtain ⟨f, rfl⟩ : ∃ f, fuel = f + 1 := ⟨fuel - 1, by simp only [height] at hfuel; omega⟩
    have hslot (i : Nibble) (hi : c i ≠ .empty) (mask : List H256) :
        ∃ mask', (descendEntry sha3 mRoot f (embed sha3 (item sha3 (c i))) mask false).run db =
          (some mask', db) ∧ Strikes (refs sha3 (c i)) mask mask' := by
      have hheight := height_lt_branch c v i
      have hbelow : Descends sha3 db mRoot (c i) false :=
        ih i (ht.1 i) hi (hdb i).2 fun h => by cases h
      exact descendEntry_spec hroot hi (hdb i).1 hbelow (by omega) mask
    obtain ⟨mask', hrun, hstrikes⟩ := descendSlots_spec strikes_zero Strikes.add
      (f := fun x mask => descendEntry sha3 mRoot f x mask false) hslot v mask
    refine ⟨mask', ?_, hstrikes⟩
    rw [item, descendList_branch _ (length_slots sha3 c _), hrun]

/-- The scan from the root strikes off every hash of the trie. -/
theorem descendKey_root {t : Trie} (ht : t.Canonical) (hdb : Rooted sha3 db t)
    (hempty : Rooted sha3 db .empty) {fuel : ℕ} (hfuel : 3 * height t + 1 ≤ fuel)
    (mask : List H256) :
    ∃ mask', (descendKey sha3 (digest sha3 t) fuel (digest sha3 t) mask false).run db =
      (some mask', db) ∧ Strikes (rootRefs sha3 t) mask mask' := by
  obtain ⟨f, rfl⟩ : ∃ f, fuel = f + 1 := ⟨fuel - 1, by omega⟩
  by_cases hne : t = .empty
  · subst hne
    refine ⟨mask.filter (· ≠ digest sha3 .empty), ?_, strikes_one mask _⟩
    rw [descendKey, if_pos ⟨rfl, rfl⟩, run_pure]
  · have hroot : digest sha3 t ≠ shaNull sha3 := by
      intro h
      have hsame : Rlp.encode (item sha3 t) = Rlp.encode (item sha3 .empty) := by
        rw [← hdb.1, ← hempty.1, h]
        rfl
      have hitem := Rlp.encode_injective hsame
      have hlist := isList_item sha3 hne
      rw [hitem] at hlist
      cases hlist
    have hextension : false = true → t.IsBranch := fun h => by cases h
    obtain ⟨mask', hrun, hstrikes⟩ := descends hroot ht hne hdb.2 hextension f (by omega)
      (mask.filter (· ≠ digest sha3 t))
    refine ⟨mask', ?_, (strikes_one mask _).add hstrikes⟩
    rw [descendKey, if_neg fun h => hroot h.2]
    simp only [run_bind, run_node hdb.1, run_ofOption]
    exact hrun

end Descend

section Unfold

/-- The list with the hashes that occur put in front. -/
def Counts (n : H256 → ℕ) (met met' : List H256) : Prop := ∀ h, met'.count h = met.count h + n h

lemma Counts.add {m n : H256 → ℕ} {a b c : List H256} (hab : Counts m a b)
    (hbc : Counts n b c) : Counts (m + n) a c := by
  intro h
  rw [hbc h, hab h, Pi.add_apply, Nat.add_assoc]

lemma counts_one (k : H256) (met : List H256) :
    Counts (fun h => if k = h then 1 else 0) met (k :: met) := by
  intro h
  by_cases hk : k = h <;> simp [hk]

lemma unfoldItem_branch (fuel : ℕ) {l : List Item} (hl : l.length = 17) (met : List H256) :
    unfoldItem (fuel + 1) (.list l) met =
      descendSlots (fun x met => unfoldItem fuel x met) (l.take 16) met := by
  match l, hl with
  | _ :: _ :: _ :: l, hl => rfl

/-- The unfolding of an item meets what the trie counts below it. -/
def Unfolds (sha3 : Bytes → H256) (db : D) (t : Trie) : Prop :=
  ∀ fuel, 2 * height t ≤ fuel → ∀ met, ∃ met',
    (unfoldItem fuel (item sha3 t) met).run db = (some met', db) ∧
      Counts (childRefs sha3 t) met met'

lemma unfoldItem_embed {t : Trie} (hfound : Found sha3 db t) (h : Unfolds sha3 db t) {fuel : ℕ}
    (hfuel : 2 * height t + 1 ≤ fuel) (met : List H256) :
    ∃ met', (unfoldItem fuel (embed sha3 (item sha3 t)) met).run db = (some met', db) ∧
      Counts (refs sha3 t) met met' := by
  by_cases hl : Long sha3 t
  · obtain ⟨f, rfl⟩ : ∃ f, fuel = f + 1 := ⟨fuel - 1, by omega⟩
    obtain ⟨met', hrun, hcounts⟩ := h f (by omega) (digest sha3 t :: met)
    refine ⟨met', ?_, ?_⟩
    · rw [embed_of_long sha3 hl, unfoldItem]
      simp only [run_bind, toHash_bytes, run_ofOption, run_node (hfound hl)]
      exact hrun
    · have hone : refs sha3 t = (fun h => if digest sha3 t = h then 1 else 0) + childRefs sha3 t := by
        funext x
        simp [refs, selfRef, hl]
      rw [hone]
      exact (counts_one _ met).add hcounts
  · obtain ⟨met', hrun, hcounts⟩ := h fuel (by omega) met
    refine ⟨met', by rwa [embed_of_short sha3 hl], ?_⟩
    have hzero : refs sha3 t = childRefs sha3 t := by
      funext x
      simp [refs, selfRef, hl]
    rwa [hzero]

theorem unfolds {t : Trie} (ht : t.Canonical) (hne : t ≠ .empty) (hdb : Stored sha3 db t) :
    Unfolds sha3 db t := by
  induction t with
  | empty => contradiction
  | leaf k v =>
    intro fuel hfuel met
    obtain ⟨f, rfl⟩ : ∃ f, fuel = f + 1 := ⟨fuel - 1, by simp only [height] at hfuel; omega⟩
    refine ⟨met, ?_, fun h => rfl⟩
    simp [item, unfoldItem]
  | ext k t ih =>
    intro fuel hfuel met
    simp only [height] at hfuel
    obtain ⟨f, rfl⟩ : ∃ f, fuel = f + 1 := ⟨fuel - 1, by omega⟩
    have hte : t ≠ .empty := by
      rintro rfl
      exact ht.2.1
    obtain ⟨met', hrun, hcounts⟩ := unfoldItem_embed hdb.1 (ih ht.2.2 hte hdb.2)
      (by omega : 2 * height t + 1 ≤ f) met
    refine ⟨met', ?_, hcounts⟩
    simp [item, unfoldItem, hrun]
  | branch c v ih =>
    intro fuel hfuel met
    obtain ⟨f, rfl⟩ : ∃ f, fuel = f + 1 := ⟨fuel - 1, by simp only [height] at hfuel; omega⟩
    have hslot (i : Nibble) (hi : c i ≠ .empty) (met : List H256) :
        ∃ met', (unfoldItem f (embed sha3 (item sha3 (c i))) met).run db = (some met', db) ∧
          Counts (refs sha3 (c i)) met met' := by
      have hheight := height_lt_branch c v i
      exact unfoldItem_embed (hdb i).1 (ih i (ht.1 i) hi (hdb i).2) (by omega) met
    obtain ⟨met', hrun, hcounts⟩ := descendSlots_spec (fun _ _ => rfl) Counts.add
      (f := fun x met => unfoldItem f x met) hslot v met
    refine ⟨met', ?_, hcounts⟩
    rw [item, unfoldItem_branch _ (length_slots sha3 c _), hrun]

/-- The unfolding of the root meets every hash as often as the trie counts it. -/
theorem unfold_root {t : Trie} (ht : t.Canonical) (hdb : Rooted sha3 db t) {fuel : ℕ}
    (hfuel : 2 * height t ≤ fuel) :
    ∃ met, (unfold fuel (digest sha3 t)).run db = (some met, db) ∧
      ∀ h, met.count h = rootRefs sha3 t h := by
  simp only [unfold, run_bind, run_node hdb.1, run_ofOption]
  by_cases hne : t = .empty
  · subst hne
    refine ⟨[digest sha3 .empty], rfl, fun h => ?_⟩
    rw [counts_one _ [] h]
    simp [rootRefs, childRefs]
  · rw [if_neg ((isEmpty_item sha3 t).not.mpr hne)]
    obtain ⟨met, hrun, hcounts⟩ := unfolds ht hne hdb.2 fuel hfuel [digest sha3 t]
    refine ⟨met, hrun, fun h => ?_⟩
    rw [hcounts h, counts_one _ [] h]
    simp [rootRefs]

end Unfold

section Runs

lemma PrefixFree.outermost {keys : Set Bytes} (hkeys : PrefixFree keys) {root : H256}
    {m : BytesMap} {t : Trie} (h : Tracks sha3 db root m t) (hm : ∀ k ∈ m, k ∈ keys) {k : Bytes}
    (hk : k ∈ keys) : Outermost t (asNibbles k) := by
  intro n hn hp
  rw [← h.word_eq] at hn
  exact hkeys.word_eq hm hk hn (Or.inl hp)

/-- Over such keys an operation moves the counts in the store with those of the trie. -/
theorem PrefixFree.step_tracks {keys : Set Bytes} (hkeys : PrefixFree keys) {root : H256}
    {m : BytesMap} {t : Trie} (h : Tracks sha3 db root m t) (hm : ∀ k ∈ m, k ∈ keys) (op : TrieOp)
    (hop : op.key ∈ keys) :
    Ensures [] (op.prog sha3 root) db fun root' db' => ∃ t', Tracks sha3 db' root' (op.apply m) t' ∧
      ∀ x n, ContentStore.refCount db x = n + rootRefs sha3 t x →
        ContentStore.refCount db' x = n + rootRefs sha3 t' x := by
  cases op with
  | insert k v =>
    exact (insert_tracks h k v).mono fun _ _ _ hr => ⟨_, hr.1, hr.2 (hkeys.outermost h hm hop)⟩
  | remove k => exact (remove_tracks h k (hkeys.removable hm hop db)).mono fun _ _ _ hr => hr.2

/-- Over such keys the counts in the store are those of the trie. -/
theorem PrefixFree.history_counts {keys : Set Bytes} (hkeys : PrefixFree keys) {db₀ : D}
    (hzero : ∀ h, ContentStore.refCount db₀ h = 0) {ops : List TrieOp}
    (hops : ∀ op ∈ ops, op.key ∈ keys) :
    Ensures [] (history sha3 ops) db₀ fun root db => ∃ t, Tracks sha3 db root (contents ops) t ∧
      Rooted sha3 db .empty ∧ ∀ h, ContentStore.refCount db h = rootRefs sha3 t h := by
  induction ops using List.reverseRecOn with
  | nil =>
    refine ensures_bind ((init_tracks db₀).mono fun root db _ h _ => ensures_pure ?_)
    refine ⟨.empty, h.1, h.1.rooted, fun x => ?_⟩
    rw [h.2, hzero, Nat.zero_add]
  | append_singleton ops op ih =>
    have hops' : ∀ op' ∈ ops, op'.key ∈ keys := fun op' hop' => hops op' (by simp [hop'])
    have hmem : ∀ k ∈ contents ops, k ∈ keys := by
      intro k hk
      obtain ⟨op', hop', rfl⟩ := mem_contents hk
      exact hops' op' hop'
    rw [history_concat, contents_concat]
    refine ensures_bind ((ih hops').mono fun root db _ h _ => ?_)
    obtain ⟨t, ht, hempty, hcount⟩ := h
    refine (hkeys.step_tracks ht hmem op (hops op (by simp))).mono fun _ _ hext hr => ?_
    obtain ⟨t', ht', hcount'⟩ := hr
    exact ⟨t', ht', hempty.mono hext, fun x => by simpa using hcount' x 0 (by simpa using hcount x)⟩

/-- A hash that occurs below a stored node leads to a content with that hash. -/
lemma Stored.content {t : Trie} (h : Stored sha3 db t) {x : H256} (hx : childRefs sha3 t x ≠ 0) :
    ContentStore.lookup db x ≠ [] ∧ sha3 (ContentStore.lookup db x) = x := by
  have hself {t : Trie} (hfound : Found sha3 db t) (hx : selfRef sha3 t x ≠ 0) :
      ContentStore.lookup db x ≠ [] ∧ sha3 (ContentStore.lookup db x) = x := by
    obtain ⟨hl, rfl⟩ : Long sha3 t ∧ digest sha3 t = x := by
      by_contra hno
      exact hx (if_neg hno)
    rw [hfound hl]
    exact ⟨Rlp.encode_ne_nil _, rfl⟩
  induction t with
  | empty => exact absurd rfl hx
  | leaf k v => exact absurd rfl hx
  | ext k t ih =>
    by_cases hs : selfRef sha3 t x = 0
    · exact ih h.2 fun hz => hx (by rw [childRefs_ext, refs, hs, hz])
    · exact hself h.1 hs
  | branch c v ih =>
    rw [childRefs_branch] at hx
    obtain ⟨i, -, hi⟩ := Finset.exists_ne_zero_of_sum_ne_zero hx
    by_cases hs : selfRef sha3 (c i) x = 0
    · exact ih i (h i).2 fun hz => hi (by simp [refs, hs, hz])
    · exact hself (h i).1 hs

lemma Rooted.content {t : Trie} (h : Rooted sha3 db t) {x : H256} (hx : rootRefs sha3 t x ≠ 0) :
    ContentStore.lookup db x ≠ [] ∧ sha3 (ContentStore.lookup db x) = x := by
  by_cases hroot : digest sha3 t = x
  · subst hroot
    rw [h.1]
    exact ⟨Rlp.encode_ne_nil _, rfl⟩
  · exact h.2.content (by simpa [rootRefs, hroot] using hx)

lemma refCount_fresh (h : H256) : ContentStore.refCount MemoryDB.fresh h = 0 := rfl

end Runs

end TrieDB
end XChain
