import XChain.StoreLoop
import XChain.TrieDB

/-!
# The iterator of the trie

An iterator walks down the trie with a trail of nodes, each with the key that leads
to it and the child the walk is at. `next` goes on to the next entry in order, and
`nextKey`, the overload with a key, goes from a fresh trail to the first entry at or
above that key. Both are loops; a turn looks at the last node of the trail, which
stands first here.
-/
namespace XChain
namespace TrieDB

open StoreProg (Turn assert ofOption forever)

/-- Where the walk is in a node: about to enter it, at the value of a branch, in one
of the sixteen children, or behind them all. -/
inductive Child where
  | entering
  | here
  | slot (i : Nibble)
  | exiting
  deriving DecidableEq

/-- The byte that stands for the position in the source. -/
def Child.byte : Child → ℕ
  | .entering => 255
  | .here => 16
  | .slot i => i.val
  | .exiting => 17

structure Node where
  rlp : Option Item
  key : Bytes
  child : Child

local instance neZero_slots : NeZero 16 := ⟨by decide⟩

/-- `here`, then the children, then `exiting`, which is not left again. -/
def Child.increment : Child → Child
  | .here => .slot 0
  | .slot i => if h : i.val = 15 then .exiting else .slot ⟨i.val + 1, by omega⟩
  | .entering => .slot 0
  | .exiting => .exiting

def Node.setChild (b : Node) (i : Child) : Node := { b with child := i }

def Node.setFirstChild (b : Node) : Node := b.setChild .here

def Node.incrementChild (b : Node) : Node := b.setChild b.child.increment

/-- `that` is the root of the trie the iterator belongs to, absent at the end. -/
structure Iterator where
  that : Option H256
  trail : List Node

namespace Iterator

/-- `end()`. -/
def theEnd : Iterator := ⟨none, []⟩

/-- Whether the iterator equals `end()`: the comparison is one of the trails. -/
def isEnd (it : Iterator) : Bool := it.trail.isEmpty

/-- The entry the iterator is at. -/
def at? (it : Iterator) : Option (Bytes × Bytes) :=
  match it.trail with
  | [] => none
  | b :: _ =>
    match b.key, b.rlp with
    | p :: key, some (.list l) =>
      if p &&& 0x10 = 0 then
        l[if l.length = 2 then 1 else 16]?.map fun v => (key, v.payload)
      else none
    | _, _ => none

/-- `m_that->deref`. -/
def deref (it : Iterator) (n : Item) : Prog (Option Item) := do
  assert it.that.isSome
  if n.isList then pure (some n) else TrieDB.deref n

section Loops

-- What is left of the key that is looked for; `next` has none.
variable {κ : Type} (clear : κ)

/-- The last node goes, and with it what is left of the key. -/
def pop (it : Iterator) (rest : List Node) : Turn Iterator (Iterator × κ) :=
  .again ({ it with trail := rest }, clear)

/-- The loop over the children of a branch, at most `fuel` steps: the iterator stops
at a value, enters a child, or leaves the branch. -/
def scan (it : Iterator) (l : List Item) (rest : List Node) :
    ℕ → Node → κ → Prog (Turn Iterator (Iterator × κ))
  | 0, _, _ => .fail
  | fuel + 1, b, k =>
    if b.child = .exiting then pure (pop clear it rest)
    else do
      let slot ← ofOption l[b.child.byte]?
      if slot.isEmpty then scan it l rest fuel b.incrementChild clear
      else if b.child = .here then pure (.ret { it with trail := b :: rest })
      else do
        let rlp ← it.deref slot
        let key ← ofOption
          (hexPrefixEncodePair (keyOfHpe b.key) ⟨[UInt8.ofNat b.child.byte], 1⟩ false)
        pure (.again ({ it with trail := ⟨rlp, key, .entering⟩ :: b :: rest }, k))

/-- There are eighteen positions from `here` to `exiting`. -/
def positions : ℕ := 18

/-- A turn at a node that was entered before. -/
def continuing (it : Iterator) (b : Node) (rest : List Node) (k : κ) :
    Prog (Turn Iterator (Iterator × κ)) :=
  match b.rlp with
  | some (.list l) =>
    if l.length = 17 then scan clear it l rest positions b.incrementChild k
    else pure (pop clear it rest)
  | _ => pure (pop clear it rest)

end Loops

section NextKey

/-- Behind a two-item node, whose label the key does not contradict: a leaf must end
the key too, and an edge is replaced by what it leads to. -/
def descend (it : Iterator) (b : Node) (rest : List Node) (a x : Item) (k : NibbleSlice) :
    Prog (Turn Iterator (Iterator × NibbleSlice)) := do
  let keyOfRLP := keyOf (.list [a, x])
  let k := k.mid (min k.size keyOfRLP.size)
  let key ← ofOption (hexPrefixEncodePair (keyOfHpe b.key) keyOfRLP false)
  let leaf ← ofOption (isLeaf (.list [a, x]))
  if leaf then
    if k.empty then pure (.ret { it with trail := { b with key, child := .slot 0 } :: rest })
    else pure (pop .clear it rest)
  else do
    let rlp ← it.deref x
    pure (.again ({ it with trail := { b with rlp, key } :: rest }, k))

/-- A turn at a node that is entered. -/
def enterKey (it : Iterator) (b : Node) (rest : List Node) (k : NibbleSlice) :
    Prog (Turn Iterator (Iterator × NibbleSlice)) :=
  match b.rlp with
  | none => pure (.ret { it with that := none })
  | some rlp =>
    if rlp.isEmpty then pure (pop .clear it rest)
    else
      match rlp with
      | .list [a, x] =>
        let keyOfRLP := keyOf (.list [a, x])
        if k.contains keyOfRLP then descend it b rest a x k
        else if k.isEarlierThan keyOfRLP then descend it b rest a x .clear
        else pure (pop .clear it rest)
      | .list l =>
        if l.length = 17 then
          if k.empty then scan .clear it l rest positions (b.setChild .here) k
          else do
            let i ← ofOption (k.at? 0)
            scan .clear it l rest positions (b.setChild (.slot i)) (k.mid 1)
        else pure (.ret { it with that := none })
      | .data _ => pure (.ret { it with that := none })

def nextKeyTurn (s : Iterator × NibbleSlice) : Prog (Turn Iterator (Iterator × NibbleSlice)) :=
  match s.1.trail with
  | [] => pure (.ret { s.1 with that := none })
  | b :: rest =>
    if b.child = .entering then enterKey s.1 b rest s.2
    else continuing .clear s.1 b rest s.2

/-- `next` with a key, of at most `fuel` turns. -/
def nextKey (fuel : ℕ) (it : Iterator) (key : NibbleSlice) : Prog Iterator :=
  forever nextKeyTurn fuel (it, key)

end NextKey

section Next

def enter (it : Iterator) (b : Node) (rest : List Node) :
    Prog (Turn Iterator (Iterator × Unit)) :=
  match b.rlp with
  | none => pure (.ret { it with that := none })
  | some rlp =>
    if rlp.isEmpty then pure (pop () it rest)
    else
      match rlp with
      | .list [a, x] => do
        let key ← ofOption (hexPrefixEncodePair (keyOfHpe b.key) (keyOf (.list [a, x])) false)
        let leaf ← ofOption (isLeaf (.list [a, x]))
        if leaf then
          pure (.ret { it with trail := { b with key, child := .slot 0 } :: rest })
        else do
          let rlp ← it.deref x
          pure (.again ({ it with trail := { b with rlp, key } :: rest }, ()))
      | .list l =>
        if l.length = 17 then scan () it l rest positions b.setFirstChild ()
        else pure (.ret { it with that := none })
      | .data _ => pure (.ret { it with that := none })

def nextTurn (s : Iterator × Unit) : Prog (Turn Iterator (Iterator × Unit)) :=
  match s.1.trail with
  | [] => pure (.ret { s.1 with that := none })
  | b :: rest =>
    if b.child = .entering then enter s.1 b rest
    else continuing () s.1 b rest ()

/-- `next` without a key, of at most `fuel` turns. -/
def next (fuel : ℕ) (it : Iterator) : Prog Iterator := forever nextTurn fuel (it, ())

end Next

end Iterator

open Iterator

/-- The trail of a new iterator; the zero byte packs the empty key. -/
def rootTrail (root : H256) : Prog Iterator := do
  let rlp ← node root
  pure ⟨some root, [⟨rlp, [0], .entering⟩]⟩

def begin (fuel : ℕ) (root : H256) : Prog Iterator := do
  let it ← rootTrail root
  next fuel it

def lowerBound (fuel : ℕ) (root : H256) (fullKey : Bytes) : Prog Iterator := do
  let it ← rootTrail root
  nextKey fuel it ⟨fullKey, 0⟩

/-- The entries that a loop up to `end()` visits, in at most `visits` rounds. -/
def visit (fuel : ℕ) : ℕ → Iterator → Prog (List (Bytes × Bytes))
  | 0, _ => .fail
  | visits + 1, it =>
    if it.isEnd then pure []
    else do
      let e ← ofOption it.at?
      let it' ← next fuel it
      let es ← visit fuel visits it'
      pure (e :: es)

namespace Iterator

section NextEq

/-- The state of the loop with an empty key. -/
def keyless (s : Iterator × Unit) : Iterator × NibbleSlice := (s.1, .clear)

lemma scan_clear (it : Iterator) (l : List Item) (rest : List Node) (fuel : ℕ) (b : Node) :
    scan NibbleSlice.clear it l rest fuel b .clear =
      Turn.map keyless <$> scan () it l rest fuel b () := by
  induction fuel generalizing b with
  | zero => rfl
  | succ fuel ih =>
    rw [scan, scan]
    by_cases hx : b.child = .exiting
    · rw [if_pos hx, if_pos hx]
      rfl
    · rw [if_neg hx, if_neg hx, map_bind]
      congr 1
      funext slot
      by_cases hs : slot.isEmpty
      · rw [if_pos hs, if_pos hs]
        exact ih _
      · rw [if_neg hs, if_neg hs]
        by_cases hh : b.child = .here
        · rw [if_pos hh, if_pos hh]
          rfl
        · rw [if_neg hh, if_neg hh]
          simp only [map_bind, map_pure]
          rfl

lemma continuing_clear (it : Iterator) (b : Node) (rest : List Node) :
    continuing NibbleSlice.clear it b rest .clear =
      Turn.map keyless <$> continuing () it b rest () := by
  unfold continuing
  split
  · split_ifs
    · exact scan_clear _ _ _ _ _
    · rfl
  · rfl

/-- Without a key every two-item node is entered. -/
lemma descend_clear (it : Iterator) (b : Node) (rest : List Node) (a x : Item) :
    descend it b rest a x .clear = Turn.map keyless <$> (do
      let key ← ofOption (hexPrefixEncodePair (keyOfHpe b.key) (keyOf (.list [a, x])) false)
      let leaf ← ofOption (isLeaf (.list [a, x]))
      if leaf then
        pure (.ret { it with trail := { b with key, child := .slot 0 } :: rest })
      else do
        let rlp ← it.deref x
        pure (.again ({ it with trail := { b with rlp, key } :: rest }, ()))) := by
  simp only [descend, map_bind]
  congr 1
  funext key
  congr 1
  funext leaf
  cases leaf with
  | true => rfl
  | false =>
    simp only [Bool.false_eq_true, if_false, map_bind]
    rfl

/-- The empty key contradicts no label. -/
lemma contains_or_isEarlierThan_clear (k : NibbleSlice) :
    NibbleSlice.clear.contains k = true ∨ NibbleSlice.clear.isEarlierThan k = true := by
  rw [NibbleSlice.contains_iff, NibbleSlice.isEarlierThan_iff, NibbleSlice.nibbles_clear,
    List.prefix_nil]
  cases k.nibbles with
  | nil => exact Or.inl rfl
  | cons i r => exact Or.inr (List.nil_lt_cons i r)

lemma enter_clear (it : Iterator) (b : Node) (rest : List Node) :
    enterKey it b rest .clear = Turn.map keyless <$> enter it b rest := by
  unfold enterKey enter
  split
  · rfl
  · rename_i rlp _
    by_cases hempty : rlp.isEmpty
    · rw [if_pos hempty, if_pos hempty]
      rfl
    · rw [if_neg hempty, if_neg hempty]
      split
      · rename_i a x _
        rw [← descend_clear]
        rcases contains_or_isEarlierThan_clear (keyOf (.list [a, x])) with hc | he
        · simp only [hc, if_true]
        · simp only [he, if_true, ite_self]
      · rename_i l _ _
        by_cases hl : l.length = 17
        · rw [if_pos hl, if_pos hl]
          exact scan_clear _ _ _ _ _
        · rw [if_neg hl, if_neg hl]
          rfl
      · rfl

/-- `next` without a key is `next` with an empty one. -/
theorem next_eq (fuel : ℕ) (it : Iterator) : next fuel it = nextKey fuel it .clear := by
  refine (StoreProg.forever_map (f := keyless) (fun s => ?_) fuel (it, ())).symm
  unfold nextKeyTurn nextTurn keyless
  simp only
  split
  · rfl
  · rename_i b rest _
    by_cases hb : b.child = .entering
    · rw [if_pos hb, if_pos hb]
      exact enter_clear _ _ _
    · rw [if_neg hb, if_neg hb]
      exact continuing_clear _ _ _

end NextEq

end Iterator
end TrieDB
end XChain
