import XChain.StoreProgram
import XChain.MemoryDB
import XChain.TrieCommon

/-!
# The trie database

The trie operations as programs over a content store. A node is the item its
bytes encode, and a node that is not in the store is absent. Recursion is
bounded by a fuel argument that the callers take from the length of the key; a
failed assertion, a bad cast and an access out of bounds end the program without
a result.
-/
namespace XChain
namespace TrieDB

open StoreProg (assert ofOption)

variable (sha3 : Bytes → H256)

abbrev Prog := StoreProg H256 Bytes

/-- The item under a hash; absent when the store has nothing there. -/
def node (h : H256) : Prog (Option Item) :=
  .lookup h fun b => .ret (Rlp.decode b)

theorem length_padded {b : Bytes} (h : b.length ≤ 32) :
    (List.replicate (32 - b.length) 0 ++ b).length = 32 := by
  rw [List.length_append, List.length_replicate]
  omega

/-- The bytes of a hash from an item: short ones are padded in front, long ones
and lists are rejected. -/
def toHash : Item → Option H256
  | .data b =>
    if h : b.length ≤ 32 then
      some ⟨List.replicate (32 - b.length) 0 ++ b, length_padded h⟩
    else none
  | .list _ => none

/-- The item a hash item refers to. -/
def deref (x : Item) : Prog (Option Item) := do
  let h ← ofOption (toHash x)
  node h

/-- The length of the bytes under a hash. -/
def size : Option Item → ℕ
  | some x => (Rlp.encode x).length
  | none => 0

def itemCount : Option Item → ℕ
  | some (.list l) => l.length
  | _ => 0

def forceInsertNode (x : Item) : Prog H256 :=
  .insert (sha3 (Rlp.encode x)) (Rlp.encode x) (.ret (sha3 (Rlp.encode x)))

def forceKillNode (h : H256) : Prog Unit := .kill h (.ret ())

/-- Releases a node that is long enough to be stored on its own. -/
def killNode (x : Item) (h : H256) : Prog Unit :=
  if 32 ≤ (Rlp.encode x).length then forceKillNode h else pure ()

/-- What stands for a node inside its parent: the node, or its hash. -/
def streamNode (x : Item) : Prog Item :=
  if (Rlp.encode x).length < 32 then pure x
  else do
    let h ← forceInsertNode sha3 x
    pure (.data h.bytes)

def place (orig : Item) (k : NibbleSlice) (s : Bytes) : Prog Item := do
  killNode orig (sha3 (Rlp.encode orig))
  if orig.isEmpty then do
    let label ← ofOption (hexPrefixEncode k true 0 (-1))
    pure (.list [.data label, .data s])
  else
    match orig with
    | .list [a, _] => pure (.list [a, .data s])
    | .list l => do
      assert (l.length = 17)
      pure (.list (l.take 16 ++ [.data s]))
    | .data _ => .fail

/-- Splits the label of a two-item node in two. -/
def cleve (orig : Item) (s : ℕ) : Prog Item := do
  killNode orig (sha3 (Rlp.encode orig))
  match orig with
  | .list [a, b] => do
    let k := keyOf (.list [a, b])
    assert (s ≠ 0 ∧ s ≤ k.size)
    let leaf ← ofOption (isLeaf (.list [a, b]))
    let low ← ofOption (hexPrefixEncode k leaf s (-1))
    let high ← ofOption (hexPrefixEncode k false 0 s)
    let bottom ← streamNode sha3 (.list [.data low, b])
    pure (.list [.data high, bottom])
  | _ => .fail

/-- Turns a two-item node into a branch with one slot in use. -/
def branch (orig : Item) : Prog Item := do
  match orig with
  | .list [a, b] => do
    killNode orig (sha3 (Rlp.encode orig))
    let k := keyOf (.list [a, b])
    let leaf ← ofOption (isLeaf (.list [a, b]))
    if k.size = 0 then do
      assert leaf
      pure (.list (List.replicate 16 (.data []) ++ [b]))
    else do
      let n ← ofOption (k.at? 0)
      let slot ← (if leaf ∨ 1 < k.size then do
          let label ← ofOption (hexPrefixEncode (k.mid 1) leaf 0 (-1))
          streamNode sha3 (.list [.data label, b])
        else pure b)
      pure (.list ((List.replicate 16 (.data [])).set n.val slot ++ [.data []]))
  | _ => .fail

/-- Joins a two-item node with the two-item node behind it. -/
def graft (orig : Item) : Prog Item := do
  match orig with
  | .list [a, b] => do
    let n ← (if b.isList then pure (some b)
      else do
        let lh ← ofOption (toHash b)
        let n ← node lh
        forceKillNode lh
        pure n)
    match n with
    | some (.list [c, d]) => do
      let leaf ← ofOption (isLeaf (.list [c, d]))
      let label ← ofOption
        (hexPrefixEncodePair (keyOf (.list [a, b])) (keyOf (.list [c, d])) leaf)
      pure (.list [.data label, d])
    | _ => .fail
  | _ => .fail

/-- The two-item node that replaces a branch with the single slot `i`. -/
def merge (orig : Item) (i : ℕ) : Prog Item := do
  match orig with
  | .list l => do
    assert (l.length = 17)
    let slot ← ofOption l[i]?
    if i ≠ 16 then do
      assert (¬ slot.isEmpty)
      let label ← ofOption (hexPrefixEncodeData [UInt8.ofNat i] false 1 2 0)
      pure (.list [.data label, slot])
    else pure (.list [.data (hexPrefixEncodeHex [] true 0 (-1)), slot])
  | .data _ => .fail

def isTwoItemNode (x : Item) : Prog Bool :=
  match x with
  | .data b => do
    let n ← deref (.data b)
    pure (itemCount n == 2)
  | .list l => pure (l.length == 2)

/-- The end of a removal in a branch: a single slot left is pulled up. -/
def rejig (orig : Item) (used : ℕ) : Prog Item := do
  match orig with
  | .list l => do
    let slot ← ofOption l[used]?
    let two ← isTwoItemNode slot
    if two then do
      let merged ← merge (.list l) used
      graft merged
    else merge (.list l) used
  | .data _ => .fail

/-- The value under a key, empty when there is none. -/
def atAux : ℕ → Option Item → NibbleSlice → Prog Bytes
  | 0, _, _ => .fail
  | _ + 1, none, _ => pure []
  | fuel + 1, some here, key =>
    if here.isEmpty then pure []
    else
      match here with
      | .list [a, b] => do
        let k := keyOf (.list [a, b])
        let leaf ← ofOption (isLeaf (.list [a, b]))
        if key == k ∧ leaf then pure b.toBytes
        else if key.contains k ∧ ¬ leaf then do
          let next ← (if b.isList then pure (some b) else deref b)
          atAux fuel next (key.mid k.size)
        else pure []
      | .list l => do
        assert (l.length = 17)
        if key.size = 0 then do
          let v ← ofOption l[16]?
          pure v.toBytes
        else do
          let i ← ofOption (key.at? 0)
          let n ← ofOption l[i.val]?
          if n.isEmpty then pure []
          else do
            let next ← (if n.isList then pure (some n) else deref n)
            atAux fuel next (key.mid 1)
      | .data _ => .fail

mutual

/-- The node with the value put in; the caller stores the result, this program
releases the node it replaces. -/
def mergeAt : ℕ → Item → H256 → NibbleSlice → Bytes → Bool → Prog Item
  | 0, _, _, _, _, _ => .fail
  | fuel + 1, orig, origHash, k, v, inLine =>
    if orig.isEmpty then place sha3 orig k v
    else
      match orig with
      | .list [a, b] => do
        let key := keyOf (.list [a, b])
        let leaf ← ofOption (isLeaf (.list [a, b]))
        if key == k ∧ leaf then place sha3 (.list [a, b]) k v
        else if k.contains key ∧ ¬ leaf then do
          (if inLine then pure () else killNode (.list [a, b]) origHash)
          let b' ← mergeAtAux fuel b (k.mid key.size) v
          pure (.list [a, b'])
        else do
          let sh := k.shared key
          -- The split node re-enters in line: it was never stored.
          let split ← (if sh ≠ 0 then cleve sha3 (.list [a, b]) sh
            else branch sha3 (.list [a, b]))
          mergeAt fuel split (sha3 (Rlp.encode split)) k v true
      | .list l => do
        assert (l.length = 17)
        if k.size = 0 then place sha3 (.list l) k v
        else do
          (if inLine then pure () else killNode (.list l) origHash)
          let n ← ofOption (k.at? 0)
          let slot ← ofOption l[n.val]?
          let slot' ← mergeAtAux fuel slot (k.mid 1) v
          pure (.list (l.set n.val slot'))
      | .data _ => .fail

def mergeAtAux : ℕ → Item → NibbleSlice → Bytes → Prog Item
  | 0, _, _, _ => .fail
  | fuel + 1, orig, k, v =>
    if ¬ orig.isList ∧ ¬ orig.isEmpty then do
      let r ← deref orig
      let r ← ofOption r
      let b ← mergeAt fuel r (sha3 (Rlp.encode r)) k v false
      streamNode sha3 b
    else do
      let b ← mergeAt fuel orig (sha3 (Rlp.encode orig)) k v true
      streamNode sha3 b

end

mutual

/-- The node without the key, or nothing when the key is not there. -/
def deleteAt : ℕ → Option Item → NibbleSlice → Prog (Option Item)
  | 0, _, _ => .fail
  | _ + 1, none, _ => .fail
  | fuel + 1, some orig, k =>
    if orig.isEmpty then pure none
    else
      match orig with
      | .list [a, b] => do
        let key := keyOf (.list [a, b])
        let leaf ← ofOption (isLeaf (.list [a, b]))
        if key == k ∧ leaf then do
          killNode (.list [a, b]) (sha3 (Rlp.encode (.list [a, b])))
          pure (some (.data []))
        -- Here the source does not ask whether the node is a leaf.
        else if k.contains key then do
          let s ← deleteAtAux fuel b (k.mid key.size)
          match s with
          | none => pure none
          | some b' => do
            killNode (.list [a, b]) (sha3 (Rlp.encode (.list [a, b])))
            let two ← isTwoItemNode b'
            if two then some <$> graft (.list [a, b'])
            else pure (some (.list [a, b']))
        else pure none
      | .list l => do
        assert (l.length = 17)
        let last ← ofOption l[16]?
        if k.size = 0 ∧ ¬ last.isEmpty then do
          killNode (.list l) (sha3 (Rlp.encode (.list l)))
          let used := uniqueInUse l 16
          if used ≠ 255 then some <$> rejig (.list l) used
          else pure (some (.list (l.take 16 ++ [.data []])))
        else do
          let n ← ofOption (k.at? 0)
          let slot ← ofOption l[n.val]?
          let s ← deleteAtAux fuel slot (k.mid 1)
          match s with
          | none => pure none
          | some slot' => do
            killNode (.list l) (sha3 (Rlp.encode (.list l)))
            let r := l.set n.val slot'
            let used := uniqueInUse r 255
            if used = 255 then pure (some (.list r))
            else some <$> rejig (.list r) used
      | .data _ => .fail

def deleteAtAux : ℕ → Item → NibbleSlice → Prog (Option Item)
  | 0, _, _ => .fail
  | fuel + 1, orig, k =>
    if orig.isEmpty then pure none
    else do
      let next ← (if orig.isList then pure (some orig) else deref orig)
      let b ← deleteAt fuel next k
      match b with
      | none => pure none
      | some b => some <$> streamNode sha3 b

end

/-- Enough recursion depth for a key: two calls for each nibble and a split. -/
def depth (key : Bytes) : ℕ := 4 * key.length + 8

/-- `RLPNull`, the node of the empty trie. -/
def RLPNull : Item := .data []

/-- The root of an initialised trie; like the operations below it gives the root
the trie has afterwards. -/
def init : Prog H256 := do
  let root ← forceInsertNode sha3 RLPNull
  let n ← node root
  assert (n.isSome)
  pure root

def insert (root : H256) (key value : Bytes) : Prog H256 := do
  let rootValue ← node root
  let r ← ofOption rootValue
  let b ← mergeAt sha3 (depth key) r root ⟨key, 0⟩ value false
  (if size rootValue < 32 then forceKillNode root else pure ())
  forceInsertNode sha3 b

def remove (root : H256) (key : Bytes) : Prog H256 := do
  let rv ← node root
  let b ← deleteAt sha3 (depth key) rv ⟨key, 0⟩
  match b with
  | none => pure root
  | some b => do
    (if size rv < 32 then forceKillNode root else pure ())
    forceInsertNode sha3 b

def atKey (root : H256) (key : Bytes) : Prog Bytes := do
  let r ← node root
  atAux (depth key) r ⟨key, 0⟩

/-- The root, when the store has its node. -/
def root (mRoot : H256) : Prog H256 := do
  let n ← node mRoot
  assert (n.isSome)
  pure mRoot

section Acts

open StoreProg (acts_bind acts_ite acts_map acts_assert acts_ofOption)

/-- The program writes nothing but nodes under their hashes. -/
abbrev WritesNodes {α : Type} (m : Prog α) : Prop := m.Filed sha3 []

variable {sha3}

lemma writesNodes_node (h : H256) : WritesNodes sha3 (node h) := fun _ => trivial

lemma writesNodes_deref (x : Item) : WritesNodes sha3 (deref x) :=
  acts_bind (acts_ofOption _) writesNodes_node

lemma writesNodes_killNode (x : Item) (h : H256) : WritesNodes sha3 (killNode x h) :=
  acts_ite ⟨trivial, trivial⟩ trivial

lemma writesNodes_forceInsertNode (x : Item) : WritesNodes sha3 (forceInsertNode sha3 x) :=
  ⟨⟨rfl, Rlp.encode_ne_nil x⟩, trivial⟩

lemma writesNodes_streamNode (x : Item) : WritesNodes sha3 (streamNode sha3 x) :=
  acts_ite trivial (acts_bind (writesNodes_forceInsertNode x) fun _ => trivial)

lemma writesNodes_place (x : Item) (k : NibbleSlice) (s : Bytes) :
    WritesNodes sha3 (place sha3 x k s) := by
  refine acts_bind (writesNodes_killNode _ _) fun _ => acts_ite ?_ ?_
  · exact acts_bind (acts_ofOption _) fun _ => trivial
  · split
    · trivial
    · exact acts_bind (acts_assert _) fun _ => trivial
    · trivial

lemma writesNodes_cleve (x : Item) (s : ℕ) : WritesNodes sha3 (cleve sha3 x s) := by
  refine acts_bind (writesNodes_killNode _ _) fun _ => ?_
  split
  · exact acts_bind (acts_assert _) fun _ => acts_bind (acts_ofOption _) fun _ =>
      acts_bind (acts_ofOption _) fun _ => acts_bind (acts_ofOption _) fun _ =>
        acts_bind (writesNodes_streamNode _) fun _ => trivial
  · trivial

lemma writesNodes_branch (x : Item) : WritesNodes sha3 (branch sha3 x) := by
  unfold branch
  split
  · refine acts_bind (writesNodes_killNode _ _) fun _ => acts_bind (acts_ofOption _) fun _ =>
      acts_ite ?_ ?_
    · exact acts_bind (acts_assert _) fun _ => trivial
    · exact acts_bind (acts_ofOption _) fun _ => acts_bind (acts_ite
        (acts_bind (acts_ofOption _) fun _ => writesNodes_streamNode _) trivial) fun _ => trivial
  · trivial

lemma writesNodes_graft (x : Item) : WritesNodes sha3 (graft x) := by
  unfold graft
  split
  · refine acts_bind (acts_ite trivial (acts_bind (acts_ofOption _) fun _ =>
      acts_bind (writesNodes_node _) fun _ => ⟨trivial, trivial⟩)) fun n => ?_
    split
    · exact acts_bind (acts_ofOption _) fun _ => acts_bind (acts_ofOption _) fun _ => trivial
    · trivial
  · trivial

lemma writesNodes_merge (x : Item) (i : ℕ) : WritesNodes sha3 (merge x i) := by
  unfold merge
  split
  · exact acts_bind (acts_assert _) fun _ => acts_bind (acts_ofOption _) fun _ =>
      acts_ite (acts_bind (acts_assert _) fun _ => acts_bind (acts_ofOption _) fun _ => trivial)
        trivial
  · trivial

lemma writesNodes_isTwoItemNode (x : Item) : WritesNodes sha3 (isTwoItemNode x) := by
  cases x with
  | data b => exact acts_bind (writesNodes_deref _) fun _ => trivial
  | list l => trivial

lemma writesNodes_rejig (x : Item) (used : ℕ) : WritesNodes sha3 (rejig x used) := by
  unfold rejig
  split
  · refine acts_bind (acts_ofOption _) fun _ =>
      acts_bind (writesNodes_isTwoItemNode _) fun _ => acts_ite ?_ (writesNodes_merge _ _)
    exact acts_bind (writesNodes_merge _ _) fun _ => writesNodes_graft _
  · trivial

lemma writesNodes_mergeAt (fuel : ℕ) :
    (∀ x h k v b, WritesNodes sha3 (mergeAt sha3 fuel x h k v b)) ∧
      ∀ x k v, WritesNodes sha3 (mergeAtAux sha3 fuel x k v) := by
  induction fuel with
  | zero => exact ⟨fun _ _ _ _ _ => trivial, fun _ _ _ => trivial⟩
  | succ fuel ih =>
    constructor
    · intro x h k v b
      have hkill (y : Item) : WritesNodes sha3 (if b then pure () else killNode y h) :=
        acts_ite trivial (writesNodes_killNode _ _)
      refine acts_ite (writesNodes_place _ _ _) ?_
      split
      · refine acts_bind (acts_ofOption _) fun _ => acts_ite (writesNodes_place _ _ _)
          (acts_ite ?_ ?_)
        · exact acts_bind (hkill _) fun _ => acts_bind (ih.2 _ _ _) fun _ => trivial
        · exact acts_bind (acts_ite (writesNodes_cleve _ _) (writesNodes_branch _)) fun _ =>
            ih.1 _ _ _ _ _
      · refine acts_bind (acts_assert _) fun _ => acts_ite (writesNodes_place _ _ _) ?_
        exact acts_bind (hkill _) fun _ => acts_bind (acts_ofOption _) fun _ =>
          acts_bind (acts_ofOption _) fun _ => acts_bind (ih.2 _ _ _) fun _ => trivial
      · trivial
    · intro x k v
      refine acts_ite ?_ ?_
      · exact acts_bind (writesNodes_deref _) fun _ => acts_bind (acts_ofOption _) fun _ =>
          acts_bind (ih.1 _ _ _ _ _) fun _ => writesNodes_streamNode _
      · exact acts_bind (ih.1 _ _ _ _ _) fun _ => writesNodes_streamNode _

lemma writesNodes_deleteAt (fuel : ℕ) :
    (∀ x k, WritesNodes sha3 (deleteAt sha3 fuel x k)) ∧
      ∀ x k, WritesNodes sha3 (deleteAtAux sha3 fuel x k) := by
  induction fuel with
  | zero => exact ⟨fun _ _ => trivial, fun _ _ => trivial⟩
  | succ fuel ih =>
    constructor
    · rintro (_ | x) k
      · trivial
      refine acts_ite trivial ?_
      split
      · refine acts_bind (acts_ofOption _) fun _ => acts_ite ?_ (acts_ite ?_ trivial)
        · exact acts_bind (writesNodes_killNode _ _) fun _ => trivial
        · refine acts_bind (ih.2 _ _) fun s => ?_
          cases s with
          | none => trivial
          | some b =>
            exact acts_bind (writesNodes_killNode _ _) fun _ =>
              acts_bind (writesNodes_isTwoItemNode _) fun _ =>
                acts_ite (acts_map (writesNodes_graft _)) trivial
      · refine acts_bind (acts_assert _) fun _ => acts_bind (acts_ofOption _) fun _ =>
          acts_ite ?_ ?_
        · exact acts_bind (writesNodes_killNode _ _) fun _ =>
            acts_ite (acts_map (writesNodes_rejig _ _)) trivial
        · refine acts_bind (acts_ofOption _) fun _ => acts_bind (acts_ofOption _) fun _ =>
            acts_bind (ih.2 _ _) fun s => ?_
          cases s with
          | none => trivial
          | some b =>
            exact acts_bind (writesNodes_killNode _ _) fun _ =>
              acts_ite trivial (acts_map (writesNodes_rejig _ _))
      · trivial
    · intro x k
      refine acts_ite trivial (acts_bind (acts_ite trivial (writesNodes_deref _)) fun _ =>
        acts_bind (ih.1 _ _) fun b => ?_)
      cases b with
      | none => trivial
      | some b => exact acts_map (writesNodes_streamNode _)

theorem writesNodes_init : WritesNodes sha3 (init sha3) :=
  acts_bind (writesNodes_forceInsertNode _) fun _ => acts_bind (writesNodes_node _) fun _ =>
    acts_bind (acts_assert _) fun _ => trivial

theorem writesNodes_insert (root : H256) (key value : Bytes) :
    WritesNodes sha3 (insert sha3 root key value) :=
  acts_bind (writesNodes_node _) fun _ => acts_bind (acts_ofOption _) fun _ =>
    acts_bind ((writesNodes_mergeAt _).1 _ _ _ _ _) fun _ =>
      acts_bind (acts_ite ⟨trivial, trivial⟩ trivial) fun _ => writesNodes_forceInsertNode _

theorem writesNodes_remove (root : H256) (key : Bytes) :
    WritesNodes sha3 (remove sha3 root key) := by
  refine acts_bind (writesNodes_node _) fun _ =>
    acts_bind ((writesNodes_deleteAt _).1 _ _) fun b => ?_
  cases b with
  | none => trivial
  | some b =>
    exact acts_bind (acts_ite ⟨trivial, trivial⟩ trivial) fun _ => writesNodes_forceInsertNode _

lemma readOnly_deref (x : Item) : (deref x).ReadOnly :=
  acts_bind (acts_ofOption _) fun _ _ => trivial

lemma readOnly_atAux (fuel : ℕ) (x : Option Item) (k : NibbleSlice) :
    (atAux fuel x k).ReadOnly := by
  induction fuel generalizing x k with
  | zero => trivial
  | succ fuel ih =>
    cases x with
    | none => trivial
    | some x =>
      refine acts_ite trivial ?_
      split
      · exact acts_bind (acts_ofOption _) fun _ => acts_ite trivial (acts_ite
          (acts_bind (acts_ite trivial (readOnly_deref _)) fun _ => ih _ _) trivial)
      · exact acts_bind (acts_assert _) fun _ => acts_ite
          (acts_bind (acts_ofOption _) fun _ => trivial)
          (acts_bind (acts_ofOption _) fun _ => acts_bind (acts_ofOption _) fun _ =>
            acts_ite trivial (acts_bind (acts_ite trivial (readOnly_deref _)) fun _ => ih _ _))
      · trivial

theorem readOnly_atKey (root : H256) (key : Bytes) : (atKey root key).ReadOnly :=
  acts_bind (fun _ => trivial) fun _ => readOnly_atAux _ _ _

theorem readOnly_root (mRoot : H256) : (root mRoot).ReadOnly :=
  acts_bind (fun _ => trivial) fun _ => acts_bind (acts_assert _) fun _ => trivial

end Acts

end TrieDB
end XChain
