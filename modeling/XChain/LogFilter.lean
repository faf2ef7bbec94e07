import Mathlib.Data.Finset.Sort
import XChain.BlockHeader

/-!
# Log filters

A filter names addresses and, for each of four topic positions, alternatives; an empty
set stands for anything. A block is looked at when its bloom covers one of the blooms
that the filter asks for. Such a bloom is made from all alternatives of a position at
once, so a block with only one of them need not cover it.
-/
namespace XChain

open LogBloom

structure LogFilter where
  addresses : List Address
  topics : Vector (List H256) 4
  earliest : H256
  latest : H256

namespace LogFilter

variable (f : LogFilter) (sha3 : Bytes → H256)

/-- Whether neither addresses nor topics are specified. -/
def isRangeFilter : Bool := f.addresses.isEmpty && f.topics.toList.all List.isEmpty

def matchesBloom (b : LogBloom) : Bool :=
  (f.addresses.isEmpty || f.addresses.any fun a => containsBloom b (sha3 (Rlp.fixedBytes 20 a.toNat))) &&
    f.topics.toList.all fun t => t.isEmpty || t.any fun x => containsBloom b (sha3 x.bytes)

/-- The positions with alternatives. -/
def positions : List (List H256) := f.topics.toList.filter fun t => !t.isEmpty

def bloomPossibilities : List LogBloom :=
  let both := f.addresses.flatMap fun a => f.positions.map fun t =>
    shiftTopics sha3 (addressBloom sha3 a) t
  let ret := if both.isEmpty then f.addresses.map (addressBloom sha3) else both
  ret ++ if f.addresses.isEmpty then f.positions.map (shiftTopics sha3 0) else []

/-- One position of an entry. The size is compared with `<`, and so the topic right behind
the last one is read. -/
def topicMatches (t : List H256) (topics : List H256) (i : ℕ) : Option Bool :=
  if t.isEmpty then some true
  else if topics.length < i then some false
  else topics[i]?.map fun x => decide (x ∈ t)

def topicsMatch (topics : List H256) : List (List H256) → ℕ → Option Bool
  | [], _ => some true
  | t :: rest, i =>
    match topicMatches t topics i with
    | some true => topicsMatch topics rest (i + 1)
    | r => r

/-- Whether an entry is one of those that are asked for; nothing if the memory behind the
topics is read. -/
def matchesEntry (e : LogEntry) : Option Bool :=
  if f.addresses.isEmpty ∨ e.address ∈ f.addresses then topicsMatch e.topics f.topics.toList 0
  else some false

def matchesReceipt (r : TransactionReceipt) : Option (List LogEntry) :=
  if f.isRangeFilter then some r.log
  else if f.matchesBloom sha3 r.bloom then r.log.filterM f.matchesEntry
  else some []

/-- What it means for an entry to match. -/
structure Matches (e : LogEntry) : Prop where
  address : f.addresses = [] ∨ e.address ∈ f.addresses
  topic : ∀ (i : ℕ) (t : List H256), f.topics.toList[i]? = some t → t ≠ [] →
    ∃ x ∈ t, e.topics[i]? = some x

section Entries

variable {f sha3} {e : LogEntry}

theorem topicMatches_eq_true {t topics : List H256} {i : ℕ} :
    topicMatches t topics i = some true ↔ (t ≠ [] → ∃ x ∈ t, topics[i]? = some x) := by
  unfold topicMatches
  by_cases ht : t = []
  · simp [ht]
  · rw [if_neg (by simpa using ht)]
    split_ifs with hlen
    · have hnone : topics[i]? = none := List.getElem?_eq_none (by omega)
      simp [hnone, ht]
    · cases htopic : topics[i]? with
      | none => simp [ht]
      | some x => simp [ht]

theorem topicsMatch_eq_true {topics : List H256} {l : List (List H256)} {i : ℕ} :
    topicsMatch topics l i = some true ↔
      ∀ (k : ℕ) (t : List H256), l[k]? = some t → t ≠ [] → ∃ x ∈ t, topics[i + k]? = some x := by
  induction l generalizing i with
  | nil => simp [topicsMatch]
  | cons t l ih =>
    have hhead := @topicMatches_eq_true t topics i
    have hsplit : (∀ (k : ℕ) (u : List H256), (t :: l)[k]? = some u → u ≠ [] →
        ∃ x ∈ u, topics[i + k]? = some x) ↔
        (t ≠ [] → ∃ x ∈ t, topics[i]? = some x) ∧ ∀ (k : ℕ) (u : List H256), l[k]? = some u →
          u ≠ [] → ∃ x ∈ u, topics[i + 1 + k]? = some x := by
      constructor
      · intro h
        refine ⟨h 0 t rfl, fun k u hu => ?_⟩
        rw [Nat.add_assoc, Nat.add_comm 1 k]
        exact h (k + 1) u hu
      · rintro ⟨h0, h⟩ k u hu
        cases k with
        | zero =>
          obtain rfl := Option.some.inj hu
          exact h0
        | succ k =>
          rw [Nat.add_comm k 1, ← Nat.add_assoc]
          exact h k u hu
    rw [hsplit, ← hhead, ← ih, topicsMatch]
    split
    · next ht => simp [ht]
    · next r hr => simpa using fun h => absurd h (hr ·)

/-- The code tells matching entries, where it reads no topic behind the last one. -/
theorem matchesEntry_eq_true : f.matchesEntry e = some true ↔ f.Matches e := by
  unfold matchesEntry
  simp only [List.isEmpty_iff]
  have htopics := @topicsMatch_eq_true e.topics f.topics.toList 0
  simp only [Nat.zero_add] at htopics
  constructor
  · intro h
    split_ifs at h with haddress
    · exact ⟨haddress, htopics.mp h⟩
    · cases h
  · rintro ⟨haddress, htopic⟩
    rw [if_pos haddress]
    exact htopics.mpr htopic

end Entries

section Possibilities

variable {f sha3} {e : LogEntry} {b : LogBloom}

/-- Topics that take something from every position with alternatives, and everything from
none. -/
def Splits (f : LogFilter) (X : H256 → Prop) : Prop :=
  ∀ t ∈ f.positions, (∃ x ∈ t, X x) ∧ ∃ x ∈ t, ¬ X x

/-- There are positions with alternatives, and topics that split them all. -/
def Splittable (f : LogFilter) : Prop := f.positions ≠ [] ∧ ∃ X, f.Splits X

theorem mem_positions {t : List H256} : t ∈ f.positions ↔ t ∈ f.topics.toList ∧ t ≠ [] := by
  simp [positions]

theorem isRangeFilter_iff : f.isRangeFilter = true ↔ f.addresses = [] ∧ f.positions = [] := by
  simp only [isRangeFilter, Bool.and_eq_true, List.isEmpty_iff, List.all_eq_true, positions,
    List.filter_eq_nil_iff, Bool.not_eq_true', List.isEmpty_eq_false_iff, ne_eq, not_not]

/-- A matching entry has all alternatives of a position when nothing splits them. -/
theorem Matches.position (h : f.Matches e) (hpos : f.positions ≠ []) (hsplit : ¬ f.Splittable) :
    ∃ t ∈ f.positions, ∀ x ∈ t, x ∈ e.topics := by
  by_contra hnone
  push Not at hnone
  refine hsplit ⟨hpos, fun x => x ∈ e.topics, fun t ht => ⟨?_, hnone t ht⟩⟩
  obtain ⟨hmem, hne⟩ := mem_positions.mp ht
  obtain ⟨i, hi⟩ := List.getElem?_of_mem hmem
  obtain ⟨x, hx, htopic⟩ := h.topic i t hi hne
  exact ⟨x, hx, List.mem_of_getElem? htopic⟩

/-- The bloom of an entry covers its address and any of its topics. -/
theorem bloom_covers {t : List H256} (ht : ∀ x ∈ t, x ∈ e.topics) :
    contains (e.bloom sha3) (shiftTopics sha3 (addressBloom sha3 e.address) t) = true := by
  obtain ⟨haddress, htopics⟩ := contains_shiftTopics.mp (contains_refl (e.bloom sha3))
  exact contains_shiftTopics.mpr ⟨haddress, fun x hx => htopics x (ht x hx)⟩

/-- What is asked for when there are addresses and positions. -/
theorem bloomPossibilities_both (haddr : f.addresses ≠ []) (hpos : f.positions ≠ []) :
    f.bloomPossibilities sha3 = f.addresses.flatMap fun a => f.positions.map fun t =>
      shiftTopics sha3 (addressBloom sha3 a) t := by
  obtain ⟨a, l, hl⟩ := List.exists_cons_of_ne_nil haddr
  obtain ⟨t, l', hl'⟩ := List.exists_cons_of_ne_nil hpos
  simp [bloomPossibilities, hl, hl']

theorem bloomPossibilities_addresses (haddr : f.addresses ≠ []) (hpos : f.positions = []) :
    f.bloomPossibilities sha3 = f.addresses.map (addressBloom sha3) := by
  simp [bloomPossibilities, hpos, haddr]

theorem bloomPossibilities_topics (haddr : f.addresses = []) :
    f.bloomPossibilities sha3 = f.positions.map (shiftTopics sha3 0) := by
  simp [bloomPossibilities, haddr]

/-- A bloom that covers a matching entry covers something that is asked for. -/
theorem Matches.possibility (h : f.Matches e) (hb : contains b (e.bloom sha3) = true)
    (hrange : f.isRangeFilter = false) (hsplit : ¬ f.Splittable) :
    ∃ p ∈ f.bloomPossibilities sha3, contains b p = true := by
  by_cases hpos : f.positions = []
  · have haddr : f.addresses ≠ [] := by
      intro haddr
      rw [isRangeFilter_iff.mpr ⟨haddr, hpos⟩] at hrange
      cases hrange
    rw [bloomPossibilities_addresses haddr hpos]
    refine ⟨_, List.mem_map_of_mem (h.address.resolve_left haddr), contains_trans hb ?_⟩
    exact bloom_covers (t := []) fun x hx => by simp at hx
  · obtain ⟨t, ht, hcovered⟩ := h.position hpos hsplit
    have hcover := contains_trans hb (bloom_covers hcovered)
    by_cases haddr : f.addresses = []
    · rw [bloomPossibilities_topics haddr]
      refine ⟨_, List.mem_map_of_mem ht, contains_shiftTopics.mpr ⟨contains_zero b, ?_⟩⟩
      exact (contains_shiftTopics.mp hcover).2
    · rw [bloomPossibilities_both haddr hpos]
      refine ⟨_, List.mem_flatMap.mpr ⟨e.address, h.address.resolve_left haddr, ?_⟩, hcover⟩
      exact List.mem_map_of_mem ht

end Possibilities

section Split

variable {f : LogFilter} {X : H256 → Prop}

/-- A hash whose bits are all the lowest one, and one whose bits are all the next. -/
def lowHash : H256 := ⟨List.replicate 32 0, rfl⟩

def nextHash : H256 := ⟨[0, 1, 0, 1, 0, 1] ++ List.replicate 26 0, rfl⟩

theorem lowHash_covers_not : contains (bloomPart lowHash) (bloomPart nextHash) = false := by
  have hlow : ∀ i < 3, bloomIndex lowHash i = 0 := by decide
  have hnext : ∀ i < 3, bloomIndex nextHash i = 1 := by decide
  rw [Bool.eq_false_iff, ne_eq, contains_iff]
  intro h
  have hbit := h 1
  simp [bloomPart, hlow, hnext] at hbit

open Classical in
/-- A hash function that tells the alternatives outside `X` from everything else. -/
noncomputable def splitHash (f : LogFilter) (X : H256 → Prop) (b : Bytes) : H256 :=
  if ∃ t ∈ f.positions, ∃ x ∈ t, ¬ X x ∧ x.bytes = b then nextHash else lowHash

theorem H256.bytes_injective {x y : H256} (h : x.bytes = y.bytes) : x = y := by
  cases x
  cases y
  simpa using h

theorem splitHash_inside {x : H256} (hx : X x) : splitHash f X x.bytes = lowHash := by
  refine if_neg ?_
  rintro ⟨t, -, y, -, hy, hbytes⟩
  exact hy (H256.bytes_injective hbytes ▸ hx)

theorem splitHash_outside {t : List H256} {x : H256} (ht : t ∈ f.positions) (hx : x ∈ t)
    (hX : ¬ X x) : splitHash f X x.bytes = nextHash := if_pos ⟨t, ht, x, hx, hX, rfl⟩

theorem splitHash_address (a : Address) : splitHash f X (Rlp.fixedBytes 20 a.toNat) = lowHash := by
  refine if_neg ?_
  rintro ⟨t, -, y, -, -, hbytes⟩
  have hlen := congrArg List.length hbytes
  rw [y.size, Rlp.length_fixedBytes] at hlen
  omega

/-- Where topics split the positions, a matching entry can be hashed so that its bloom
covers nothing that is asked for. -/
theorem Splits.entry (hX : f.Splits X) (hpos : f.positions ≠ []) : ∃ e, f.Matches e ∧
    ∀ p ∈ f.bloomPossibilities (splitHash f X), contains (e.bloom (splitHash f X)) p = false := by
  obtain ⟨t₀, l, hl⟩ := List.exists_cons_of_ne_nil hpos
  obtain ⟨x₀, -, hx₀⟩ := (hX t₀ (hl ▸ List.mem_cons_self)).1
  have : Nonempty H256 := ⟨x₀⟩
  choose! pick hpick using fun t ht => (hX t ht).1
  let e : LogEntry :=
    { address := f.addresses.headD 0
      topics := f.topics.toList.map fun t => if t = [] then x₀ else pick t
      data := [] }
  have htopics : ∀ x ∈ e.topics, X x := by
    intro x hx
    obtain ⟨t, ht, rfl⟩ := List.mem_map.mp hx
    split_ifs with hempty
    · exact hx₀
    · exact (hpick t (mem_positions.mpr ⟨ht, hempty⟩)).2
  -- Everything of the entry is hashed to the lowest bit.
  have hlow : contains (bloomPart lowHash) (e.bloom (splitHash f X)) = true := by
    refine contains_shiftTopics.mpr ⟨contains_or.mpr ⟨contains_zero _, ?_⟩, fun x hx => ?_⟩
    · rw [splitHash_address]
      exact contains_refl _
    · rw [splitHash_inside (htopics x hx)]
      exact contains_refl _
  have hposition : ∀ t ∈ f.positions, ∀ b,
      contains (shiftTopics (splitHash f X) b t) (bloomPart nextHash) = true := by
    intro t ht b
    obtain ⟨x, hx, hnot⟩ := (hX t ht).2
    have hcover := (contains_shiftTopics.mp (contains_refl (shiftTopics (splitHash f X) b t))).2 x hx
    rwa [splitHash_outside ht hx hnot] at hcover
  have hnext : ∀ p ∈ f.bloomPossibilities (splitHash f X), contains p (bloomPart nextHash) = true := by
    intro p hp
    by_cases haddr : f.addresses = []
    · rw [bloomPossibilities_topics haddr] at hp
      obtain ⟨t, ht, rfl⟩ := List.mem_map.mp hp
      exact hposition t ht 0
    · rw [bloomPossibilities_both haddr hpos] at hp
      obtain ⟨a, -, ha⟩ := List.mem_flatMap.mp hp
      obtain ⟨t, ht, rfl⟩ := List.mem_map.mp ha
      exact hposition t ht _
  refine ⟨e, ⟨?_, fun i t hi hne => ?_⟩, fun p hp => ?_⟩
  · show f.addresses = [] ∨ f.addresses.headD 0 ∈ f.addresses
    cases f.addresses with
    | nil => exact Or.inl rfl
    | cons a l => exact Or.inr List.mem_cons_self
  · refine ⟨pick t, (hpick t (mem_positions.mpr ⟨List.mem_of_getElem? hi, hne⟩)).1, ?_⟩
    show (f.topics.toList.map _)[i]? = _
    rw [List.getElem?_map, hi, Option.map_some, if_neg hne]
  · by_contra hcover
    rw [Bool.not_eq_false] at hcover
    have habsurd := contains_trans (contains_trans hlow hcover) (hnext p hp)
    rw [lowHash_covers_not] at habsurd
    cases habsurd

end Split

end LogFilter
end XChain
