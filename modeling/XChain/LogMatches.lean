import XChain.LogFilter

/-!
# The entries of a receipt that match

A receipt is looked into only when its bloom passes, and a bloom that is made from the
entries passes whenever one of them matches. An entry is compared position by position, and
one that ends just before a position with alternatives has the topic behind its last one
read. The answer is the list of matching entries exactly when no entry ends so.
-/
namespace XChain

open LogBloom

namespace LogFilter

variable (f : LogFilter) (sha3 : Bytes → H256)

instance (e : LogEntry) : Decidable (f.Matches e) := decidable_of_iff _ matchesEntry_eq_true

/-- The receipt's answer is the list of matching entries, in order, and the bloom lets every
receipt with a matching entry through. -/
structure Exact (r : TransactionReceipt) : Prop where
  entries : f.matchesReceipt sha3 r = some (r.log.filter fun e => f.Matches e)
  bloom : (∃ e ∈ r.log, f.Matches e) → f.matchesBloom sha3 r.bloom = true

/-- An entry that has the address and ends just before a position with alternatives, and
matches at the positions before it. -/
structure Overrun (e : LogEntry) : Prop where
  address : f.addresses = [] ∨ e.address ∈ f.addresses
  behind : ∃ t, f.topics.toList[e.topics.length]? = some t ∧ t ≠ []
  before : ∀ j < e.topics.length, ∀ t, f.topics.toList[j]? = some t → t ≠ [] →
    ∃ x ∈ t, e.topics[j]? = some x

variable {f sha3} {e : LogEntry} {r : TransactionReceipt}

theorem topicMatches_eq_none {t topics : List H256} {i : ℕ} :
    topicMatches t topics i = none ↔ t ≠ [] ∧ topics.length = i := by
  unfold topicMatches
  by_cases ht : t = []
  · simp [ht]
  · rw [if_neg (by simpa using ht)]
    split_ifs with hlen
    · simp only [false_iff, not_and]
      omega
    · simp only [Option.map_eq_none_iff, List.getElem?_eq_none_iff, ne_eq, ht, not_false_eq_true,
        true_and]
      omega

theorem topicsMatch_eq_none {topics : List H256} {l : List (List H256)} {i : ℕ} :
    topicsMatch topics l i = none ↔ ∃ k t, l[k]? = some t ∧ t ≠ [] ∧ topics.length = i + k ∧
      ∀ j < k, ∀ u, l[j]? = some u → u ≠ [] → ∃ x ∈ u, topics[i + j]? = some x := by
  induction l generalizing i with
  | nil => simp [topicsMatch]
  | cons t l ih =>
    have hhead := @topicMatches_eq_true t topics i
    have hnone := @topicMatches_eq_none t topics i
    rw [topicsMatch]
    split
    · next ht =>
      rw [ih]
      constructor
      · rintro ⟨k, u, hu, hne, hlen, hbefore⟩
        refine ⟨k + 1, u, hu, hne, by omega, fun j hj v hv hvne => ?_⟩
        cases j with
        | zero =>
          obtain rfl := Option.some.inj hv
          exact hhead.mp ht hvne
        | succ j =>
          rw [Nat.add_comm j 1, ← Nat.add_assoc]
          exact hbefore j (by omega) v hv hvne
      · rintro ⟨k, u, hu, hne, hlen, hbefore⟩
        cases k with
        | zero =>
          obtain rfl := Option.some.inj hu
          rw [hnone.mpr ⟨hne, hlen⟩] at ht
          cases ht
        | succ k =>
          refine ⟨k, u, hu, hne, by omega, fun j hj v hv hvne => ?_⟩
          rw [Nat.add_assoc, Nat.add_comm 1 j]
          exact hbefore (j + 1) (by omega) v hv hvne
    · next r hr =>
      constructor
      · intro h
        obtain ⟨hne, hlen⟩ := hnone.mp h
        exact ⟨0, t, rfl, hne, hlen, fun j hj => absurd hj (by omega)⟩
      · rintro ⟨k, u, hu, hne, hlen, hbefore⟩
        cases k with
        | zero =>
          obtain rfl := Option.some.inj hu
          exact hnone.mpr ⟨hne, hlen⟩
        | succ k =>
          exact absurd (hhead.mpr (hbefore 0 (by omega) t rfl)) hr

/-- What the code reads behind the last topic of an entry. -/
theorem matchesEntry_eq_none : f.matchesEntry e = none ↔ f.Overrun e := by
  unfold matchesEntry
  simp only [List.isEmpty_iff]
  have htopics := @topicsMatch_eq_none e.topics f.topics.toList 0
  simp only [Nat.zero_add] at htopics
  constructor
  · intro h
    split_ifs at h with haddress
    obtain ⟨k, t, ht, hne, hlen, hbefore⟩ := htopics.mp h
    obtain rfl := hlen
    exact ⟨haddress, ⟨t, ht, hne⟩, hbefore⟩
  · rintro ⟨haddress, ⟨t, ht, hne⟩, hbefore⟩
    rw [if_pos haddress]
    exact htopics.mpr ⟨_, t, ht, hne, rfl, hbefore⟩

/-- A bloom that covers a matching entry passes. -/
theorem Matches.matchesBloom {b : LogBloom} (h : f.Matches e)
    (hb : contains b (e.bloom sha3) = true) : f.matchesBloom sha3 b = true := by
  obtain ⟨haddress, htopics⟩ := contains_shiftTopics.mp hb
  unfold LogFilter.matchesBloom
  rw [Bool.and_eq_true, List.all_eq_true]
  constructor
  · rcases h.address with hnil | hmem
    · rw [hnil]
      rfl
    · rw [Bool.or_eq_true]
      exact Or.inr (List.any_eq_true.mpr ⟨_, hmem, (contains_or.mp haddress).2⟩)
  · intro t ht
    by_cases hne : t = []
    · rw [hne]
      rfl
    · obtain ⟨i, hi⟩ := List.getElem?_of_mem ht
      obtain ⟨x, hx, htopic⟩ := h.topic i t hi hne
      rw [Bool.or_eq_true]
      exact Or.inr (List.any_eq_true.mpr ⟨x, hx, htopics x (List.mem_of_getElem? htopic)⟩)

/-- Filtering with a test that may fail. -/
theorem filterAuxM_eq {α : Type} {p : α → Option Bool} {l acc : List α} :
    List.filterAuxM p l acc = if ∀ x ∈ l, p x ≠ none then
      some ((l.filter fun x => p x = some true).reverse ++ acc) else none := by
  induction l generalizing acc with
  | nil => rw [if_pos (by simp)]; rfl
  | cons x l ih =>
    rw [List.filterAuxM]
    cases hp : p x with
    | none => rw [if_neg fun h => h x List.mem_cons_self hp]; rfl
    | some b =>
      have hall : (∀ y ∈ x :: l, p y ≠ none) ↔ ∀ y ∈ l, p y ≠ none := by simp [hp]
      show List.filterAuxM p l _ = _
      rw [ih]
      simp only [hall]
      split_ifs
      · cases b <;> simp [hp]
      · rfl

theorem filterM_eq_some {α : Type} {p : α → Option Bool} {l : List α} :
    l.filterM p = some (l.filter fun x => p x = some true) ↔ ∀ x ∈ l, p x ≠ none := by
  rw [List.filterM, filterAuxM_eq]
  split_ifs with hall
  · exact iff_of_true (by simp) hall
  · exact iff_of_false nofun hall

/-- An entry's bloom is in that of its receipt. -/
theorem contains_bloom (hr : r.bloom = join (r.log.map (LogEntry.bloom sha3))) (he : e ∈ r.log) :
    contains r.bloom (e.bloom sha3) = true := by
  rw [hr]
  exact join_contains (List.mem_map_of_mem he)

theorem Matches.of_range (h : f.isRangeFilter = true) : f.Matches e := by
  obtain ⟨haddr, hpos⟩ := isRangeFilter_iff.mp h
  refine ⟨Or.inl haddr, fun i t ht hne => ?_⟩
  have hmem : t ∈ f.positions := mem_positions.mpr ⟨List.mem_of_getElem? ht, hne⟩
  rw [hpos] at hmem
  cases hmem

/-- A receipt is answered with its matching entries exactly when it is not looked into, or
no entry is read behind its topics. -/
theorem matchesReceipt_iff (f : LogFilter) (sha3 : Bytes → H256) (r : TransactionReceipt)
    (hr : r.bloom = join (r.log.map (LogEntry.bloom sha3))) :
    f.Exact sha3 r ↔ f.isRangeFilter = true ∨ f.matchesBloom sha3 r.bloom = false ∨
      ∀ e ∈ r.log, ¬ f.Overrun e := by
  have hbloom : (∃ e ∈ r.log, f.Matches e) → f.matchesBloom sha3 r.bloom = true := by
    rintro ⟨e, he, hmatch⟩
    exact hmatch.matchesBloom (contains_bloom hr he)
  have hfilter : (r.log.filter fun e => f.Matches e) =
      r.log.filter fun e => f.matchesEntry e = some true := by
    simp only [matchesEntry_eq_true]
  have hexact : f.Exact sha3 r ↔
      f.matchesReceipt sha3 r = some (r.log.filter fun e => f.Matches e) :=
    ⟨fun h => h.entries, fun h => ⟨h, hbloom⟩⟩
  rw [hexact, matchesReceipt]
  split_ifs with hrange hpass
  · simp only [Option.some.injEq, hrange, true_or, iff_true]
    exact (List.filter_eq_self.mpr fun e _ => decide_eq_true (Matches.of_range hrange)).symm
  · rw [hfilter, filterM_eq_some]
    simp only [hrange, hpass, Bool.false_eq_true, Bool.true_eq_false, false_or, ne_eq,
      matchesEntry_eq_none]
  · have hnone : (r.log.filter fun e => f.Matches e) = [] :=
      List.filter_eq_nil_iff.mpr fun e he hmatch => hpass (hbloom ⟨e, he, of_decide_eq_true hmatch⟩)
    simp [hnone, hpass]

/-- Every hash is zero. -/
def flatHash : Bytes → H256 := fun _ => .ofNat 0

/-- Any address, and the second topic zero. -/
def secondTopic : LogFilter where
  addresses := []
  topics := #v[[], [.ofNat 0], [], []]
  earliest := .ofNat 0
  latest := .ofNat 0

/-- A receipt with one entry, which has the given number of zero topics. -/
def zeroTopics (n : ℕ) : TransactionReceipt where
  stateRoot := .ofNat 0
  gasUsed := 0
  bloom := bloomPart (.ofNat 0)
  log := [⟨0, List.replicate n (.ofNat 0), []⟩]

theorem matchesReceipt_iff_two : secondTopic.Exact flatHash (zeroTopics 2) :=
  (matchesReceipt_iff secondTopic flatHash (zeroTopics 2) (by decide +kernel)).mpr
    (Or.inr (Or.inr fun e he h => by
      obtain rfl := List.mem_singleton.mp he
      obtain ⟨t, ht, hne⟩ := h.behind
      exact hne (Option.some.inj ht).symm))

/-- An entry with one topic is compared with the second position. -/
theorem matchesReceipt_overrun : ¬ ∀ (f : LogFilter) (sha3 : Bytes → H256)
    (r : TransactionReceipt), r.bloom = join (r.log.map (LogEntry.bloom sha3)) →
      f.Exact sha3 r := by
  intro h
  have hexact := h secondTopic flatHash (zeroTopics 1) (by decide +kernel)
  exact absurd hexact.entries (by decide +kernel)

end LogFilter
end XChain
