import Mathlib.Data.Fintype.Basic
import Mathlib.Data.Finset.Sort
import Mathlib.Data.List.Lex
import XChain.Patricia

/-!
# The words of a trie in order

Over an ordered finite alphabet a trie lists its words in ascending lexicographic
order: a branch lists the word that ends there first and then its subtrees letter
by letter. The words at or above a bound are found by comparing the bound with one
label at a time.
-/
namespace XChain
namespace Patricia

variable {ι β : Type}

/-- Puts `p` in front of every word. -/
def under (p : List ι) (ws : List (List ι × β)) : List (List ι × β) :=
  ws.map fun e => (p ++ e.1, e.2)

section Under

variable (p q : List ι) (ws ws' : List (List ι × β))

@[simp] theorem under_append : under p (ws ++ ws') = under p ws ++ under p ws' :=
  List.map_append

@[simp] theorem under_nil : under p ([] : List (List ι × β)) = [] := rfl

@[simp] theorem under_cons (e : List ι × β) :
    under p (e :: ws) = (p ++ e.1, e.2) :: under p ws := rfl

@[simp] theorem nil_under : under [] ws = ws := by
  simp [under]

theorem under_under : under p (under q ws) = under (p ++ q) ws := by
  simp [under]

variable {p ws}

theorem mem_under {k : List ι} {v : β} :
    (k, v) ∈ under p ws ↔ ∃ k', p ++ k' = k ∧ (k', v) ∈ ws := by
  constructor
  · intro h
    obtain ⟨⟨k', v'⟩, hmem, heq⟩ := List.mem_map.mp h
    obtain ⟨hk, rfl⟩ := Prod.mk.inj heq
    exact ⟨k', hk, hmem⟩
  · rintro ⟨k', rfl, hmem⟩
    exact List.mem_map_of_mem (f := fun e : List ι × β => (p ++ e.1, e.2)) hmem

end Under

variable [LinearOrder ι]

section Bound

lemma append_lt_append (p a b : List ι) : p ++ a < p ++ b ↔ a < b := by
  induction p with
  | nil => rfl
  | cons i p ih =>
    rw [List.cons_append, List.cons_append, List.cons_lt_cons_iff, ih]
    simp

/-- A bound below a label is below every word behind the label. -/
lemma lt_append_of_lt {k p : List ι} (h : k < p) (a : List ι) : k < p ++ a :=
  List.Lex.append_right _ a h

/-- A bound above a label, and not behind it, is above every word behind the label. -/
lemma append_lt_of_not_prefix {k p : List ι} (hp : ¬ p <+: k) (h : ¬ k < p) (a : List ι) :
    p ++ a < k := by
  induction p generalizing k with
  | nil => exact absurd List.nil_prefix hp
  | cons i p ih =>
    cases k with
    | nil => exact absurd (List.nil_lt_cons i p) h
    | cons j k =>
      rw [List.cons_lt_cons_iff, not_or, not_and] at h
      obtain ⟨hji, hk⟩ := h
      rw [List.cons_append, List.cons_lt_cons_iff]
      rcases lt_or_eq_of_le (not_lt.mp hji) with hij | rfl
      · exact Or.inl hij
      · have hpk : ¬ p <+: k := fun hpre => hp (List.cons_prefix_cons.mpr ⟨rfl, hpre⟩)
        exact Or.inr ⟨rfl, ih hpk (hk rfl)⟩

/-- The words of a list ascend, so that none of them occurs twice. -/
def Ascending (ws : List (List ι × β)) : Prop := ws.Pairwise fun e e' => e.1 < e'.1

lemma Ascending.under {ws : List (List ι × β)} (h : Ascending ws) (p : List ι) :
    Ascending (under p ws) :=
  List.pairwise_map.mpr (h.imp fun hlt => (append_lt_append p _ _).mpr hlt)

/-- The words that are not less than `k`. -/
def atOrAbove (k : List ι) (ws : List (List ι × β)) : List (List ι × β) :=
  ws.filter fun e => ¬ e.1 < k

@[simp] theorem atOrAbove_nil (ws : List (List ι × β)) : atOrAbove [] ws = ws := by
  simp [atOrAbove]

@[simp] theorem atOrAbove_append (k : List ι) (ws ws' : List (List ι × β)) :
    atOrAbove k (ws ++ ws') = atOrAbove k ws ++ atOrAbove k ws' :=
  List.filter_append ws ws'

/-- A bound behind the label is compared behind it. -/
theorem atOrAbove_under (p k : List ι) (ws : List (List ι × β)) :
    atOrAbove (p ++ k) (under p ws) = under p (atOrAbove k ws) := by
  simp only [atOrAbove, under, List.filter_map, Function.comp_def, append_lt_append]

theorem atOrAbove_under_of_lt {k p : List ι} (h : k < p) (ws : List (List ι × β)) :
    atOrAbove k (under p ws) = under p ws := by
  refine List.filter_eq_self.mpr fun e he => ?_
  obtain ⟨k', hk', -⟩ := mem_under.mp he
  have hlt := lt_append_of_lt h k'
  rw [hk'] at hlt
  simpa using hlt.le

theorem atOrAbove_under_of_not_prefix {k p : List ι} (hp : ¬ p <+: k) (h : ¬ k < p)
    (ws : List (List ι × β)) : atOrAbove k (under p ws) = [] := by
  refine List.filter_eq_nil_iff.mpr fun e he => ?_
  obtain ⟨k', hk', -⟩ := mem_under.mp he
  have hlt := append_lt_of_not_prefix hp h k'
  rw [hk'] at hlt
  simpa using hlt

end Bound

section Words

variable [Fintype ι]

/-- The letters in ascending order. -/
def letters (ι : Type) [Fintype ι] [LinearOrder ι] : List ι := Finset.univ.sort

/-- The words of a trie with their values, in the order of a walk from left to right. -/
def words : Patricia ι β → List (List ι × β)
  | .empty => []
  | .leaf k v => [(k, v)]
  | .ext k t => under k t.words
  | .branch c v =>
    (v.map fun w => ([], w)).toList ++ (letters ι).flatMap fun i => under [i] (c i).words

/-- The words of the subtrees at some letters. -/
def wordsAt (c : ι → Patricia ι β) (is : List ι) : List (List ι × β) :=
  is.flatMap fun i => under [i] (c i).words

theorem words_branch (c : ι → Patricia ι β) (v : Option β) :
    (branch c v).words = (v.map fun w => ([], w)).toList ++ wordsAt c (letters ι) := rfl

@[simp] theorem wordsAt_cons (c : ι → Patricia ι β) (i : ι) (is : List ι) :
    wordsAt c (i :: is) = under [i] (c i).words ++ wordsAt c is := rfl

theorem mem_wordsAt {c : ι → Patricia ι β} {is : List ι} {k : List ι} {v : β} :
    (k, v) ∈ wordsAt c is ↔ ∃ i ∈ is, ∃ k', i :: k' = k ∧ (k', v) ∈ (c i).words := by
  simp only [wordsAt, List.mem_flatMap, mem_under, List.singleton_append]

/-- A trie lists exactly the words it holds. -/
theorem mem_words {t : Patricia ι β} {k : List ι} {v : β} :
    (k, v) ∈ t.words ↔ t.get k = some v := by
  induction t generalizing k with
  | empty => simp [words]
  | leaf l w =>
    simp only [words, List.mem_singleton, Prod.mk.injEq, get_leaf]
    split_ifs with hl
    · simp [hl, eq_comm]
    · simp [Ne.symm hl]
  | ext l t ih =>
    rw [words, mem_under]
    constructor
    · rintro ⟨k', rfl, hk'⟩
      rw [get_ext_append]
      exact ih.mp hk'
    · intro h
      obtain ⟨k', rfl⟩ := prefix_of_get_ext h
      rw [get_ext_append] at h
      exact ⟨k', rfl, ih.mpr h⟩
  | branch c w ih =>
    rw [words_branch, List.mem_append, mem_wordsAt]
    cases k with
    | nil => cases w <;> simp [eq_comm]
    | cons i k =>
      rw [get_branch_cons, ← ih]
      constructor
      · rintro (h | ⟨j, -, k', heq, hk'⟩)
        · cases w <;> simp at h
        · obtain ⟨rfl, rfl⟩ := List.cons.inj heq
          exact hk'
      · intro h
        exact Or.inr ⟨i, (Finset.mem_sort _).mpr (Finset.mem_univ i), k, rfl, h⟩

lemma ascending_wordsAt {c : ι → Patricia ι β} {is : List ι} (his : is.Pairwise (· < ·))
    (h : ∀ i, Ascending (c i).words) : Ascending (wordsAt c is) := by
  refine List.pairwise_flatMap.mpr ⟨fun i _ => (h i).under [i], his.imp fun {i j} hij => ?_⟩
  rintro ⟨k, v⟩ hk ⟨k', v'⟩ hk'
  obtain ⟨a, rfl, -⟩ := mem_under.mp hk
  obtain ⟨b, rfl, -⟩ := mem_under.mp hk'
  exact List.cons_lt_cons_iff.mpr (Or.inl hij)

lemma pairwise_letters : (letters ι).Pairwise (· < ·) :=
  (Finset.sortedLT_sort Finset.univ).pairwise

/-- A trie lists its words in ascending order. -/
theorem ascending_words (t : Patricia ι β) : Ascending t.words := by
  induction t with
  | empty => exact List.Pairwise.nil
  | leaf k v => exact List.pairwise_singleton _ _
  | ext k t ih => exact ih.under k
  | branch c v ih =>
    have hat := ascending_wordsAt pairwise_letters ih
    cases v with
    | none => exact hat
    | some w =>
      refine List.pairwise_cons.mpr ⟨?_, hat⟩
      rintro ⟨k, x⟩ hk
      obtain ⟨i, -, k', rfl, -⟩ := mem_wordsAt.mp hk
      exact List.nil_lt_cons i k'

lemma atOrAbove_wordsAt_of_lt {c : ι → Patricia ι β} {is : List ι} {i : ι} {k : List ι}
    (h : ∀ j ∈ is, j < i) : atOrAbove (i :: k) (wordsAt c is) = [] := by
  refine List.filter_eq_nil_iff.mpr ?_
  rintro ⟨k', v⟩ he
  obtain ⟨j, hj, a, rfl, -⟩ := mem_wordsAt.mp he
  have hlt : j :: a < i :: k := List.cons_lt_cons_iff.mpr (Or.inl (h j hj))
  simpa using hlt

lemma atOrAbove_wordsAt_of_gt {c : ι → Patricia ι β} {is : List ι} {i : ι} {k : List ι}
    (h : ∀ j ∈ is, i < j) : atOrAbove (i :: k) (wordsAt c is) = wordsAt c is := by
  refine List.filter_eq_self.mpr ?_
  rintro ⟨k', v⟩ he
  obtain ⟨j, hj, a, rfl, -⟩ := mem_wordsAt.mp he
  have hlt : i :: k < j :: a := List.cons_lt_cons_iff.mpr (Or.inl (h j hj))
  simpa using hlt.le

/-- In a branch the bound leads into the subtree at its first letter; the subtrees
behind that letter are above the bound. -/
theorem atOrAbove_branch (c : ι → Patricia ι β) (v : Option β) (i : ι) (k : List ι)
    {before after : List ι} (h : letters ι = before ++ i :: after) :
    atOrAbove (i :: k) (branch c v).words =
      under [i] (atOrAbove k (c i).words) ++ wordsAt c after := by
  have hp := pairwise_letters (ι := ι)
  rw [h, List.pairwise_append, List.pairwise_cons] at hp
  obtain ⟨-, ⟨hafter, -⟩, hbefore⟩ := hp
  have hvalue : atOrAbove (i :: k) (v.map fun w => (([] : List ι), w)).toList = [] := by
    cases v <;> simp [atOrAbove]
  have hletters : wordsAt c (before ++ i :: after) =
      wordsAt c before ++ (under [i] (c i).words ++ wordsAt c after) := by
    simp [wordsAt]
  have hself := atOrAbove_under [i] k (c i).words
  rw [words_branch, h, hletters, atOrAbove_append, atOrAbove_append, atOrAbove_append, hvalue,
    atOrAbove_wordsAt_of_lt fun j hj => hbefore j hj i List.mem_cons_self,
    atOrAbove_wordsAt_of_gt hafter, List.nil_append, List.nil_append]
  exact congrArg (· ++ wordsAt c after) hself

end Words

end Patricia
end XChain
