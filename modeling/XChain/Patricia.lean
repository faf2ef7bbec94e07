import Mathlib.Data.List.Infix
import Mathlib.Logic.Function.Basic
import Mathlib.Tactic.ByContra
import Mathlib.Tactic.Push

/-!
# Patricia tries

Finite maps from words over an alphabet to values, as trees in which chains of
single choices are compressed into one labelled edge. A canonical trie has no
edge that could be merged with the next one and no branch with fewer than two
occupied slots; it is determined by the map it represents. Insertion and
deletion change one entry of the map and keep the trie canonical.
-/
namespace XChain

/-- `leaf` ends a word, `ext` is a compressed edge, and `branch` has one subtree
per letter and a slot for the word that ends there. -/
inductive Patricia (ι β : Type) where
  | empty
  | leaf (k : List ι) (v : β)
  | ext (k : List ι) (t : Patricia ι β)
  | branch (c : ι → Patricia ι β) (v : Option β)

namespace Patricia

variable {ι β : Type} [DecidableEq ι]

/-- Length of the longest common beginning. -/
def shared : List ι → List ι → ℕ
  | a :: as, b :: bs => if a = b then shared as bs + 1 else 0
  | _, _ => 0

/-- The value the trie holds for a word. -/
def get : Patricia ι β → List ι → Option β
  | .empty, _ => none
  | .leaf k v, k' => if k = k' then some v else none
  | .ext k t, k' => if k <+: k' then t.get (k'.drop k.length) else none
  | .branch _ v, [] => v
  | .branch c _, i :: k => (c i).get k

/-- A compressed edge, absent when its label is empty. -/
def wrap (k : List ι) (t : Patricia ι β) : Patricia ι β :=
  if k = [] then t else .ext k t

/-- A branch with one subtree. -/
def single (i : ι) (t : Patricia ι β) : ι → Patricia ι β :=
  Function.update (fun _ => .empty) i t

/-- Moves the first letter of a leaf or of an edge into a branch. -/
def fork : Patricia ι β → Patricia ι β
  | .leaf [] v => .branch (fun _ => .empty) (some v)
  | .leaf (i :: k) v => .branch (single i (.leaf k v)) none
  | .ext (i :: k) t => .branch (single i (wrap k t)) none
  | t => t

/-- Hangs a new word into a free slot of a branch. -/
def attach : Patricia ι β → List ι → β → Patricia ι β
  | .branch c _, [], v => .branch c (some v)
  | .branch c w, i :: k, v => .branch (Function.update c i (.leaf k v)) w
  | t, _, _ => t

def insert : Patricia ι β → List ι → β → Patricia ι β
  | .empty, k, v => .leaf k v
  | .leaf l w, k, v =>
    if l = k then .leaf l v
    else wrap (l.take (shared k l))
      (attach (fork (.leaf (l.drop (shared k l)) w)) (k.drop (shared k l)) v)
  | .ext l t, k, v =>
    if l <+: k then .ext l (t.insert (k.drop l.length) v)
    else wrap (l.take (shared k l))
      (attach (fork (.ext (l.drop (shared k l)) t)) (k.drop (shared k l)) v)
  | .branch c _, [], v => .branch c (some v)
  | .branch c w, i :: k, v => .branch (Function.update c i ((c i).insert k v)) w

/-- Puts an edge in front of a trie, merged with the label that follows. -/
def graft (k : List ι) : Patricia ι β → Patricia ι β
  | .leaf l v => .leaf (k ++ l) v
  | .ext l t => .ext (k ++ l) t
  | t => .ext k t

/-- Slot `none` of a branch is its value, slot `some i` its subtree at `i`. -/
def Used (c : ι → Patricia ι β) (v : Option β) : Option ι → Prop
  | none => v ≠ none
  | some i => c i ≠ .empty

def Crowded (c : ι → Patricia ι β) (v : Option β) : Prop :=
  ∃ a b : Option ι, a ≠ b ∧ Used c v a ∧ Used c v b

open Classical in
/-- The slot in use when it is the only one. -/
noncomputable def uniqueSlot (c : ι → Patricia ι β) (v : Option β) : Option (Option ι) :=
  if h : ∃! s, Used c v s then some h.choose else none

/-- A branch whose single slot is pulled up. -/
noncomputable def collapse (c : ι → Patricia ι β) (v : Option β) : Patricia ι β :=
  match uniqueSlot c v with
  | some (some i) => graft [i] (c i)
  | some none => v.elim (.branch c v) (.leaf [])
  | none => .branch c v

/-- The trie without the word, or nothing when the word is not there. -/
noncomputable def delete : Patricia ι β → List ι → Option (Patricia ι β)
  | .empty, _ => none
  | .leaf l _, k => if l = k then some .empty else none
  | .ext l t, k => if l <+: k then (t.delete (k.drop l.length)).map (graft l) else none
  | .branch c (some _), [] => some (collapse c none)
  | .branch _ none, [] => none
  | .branch c w, i :: k => ((c i).delete k).map fun t => collapse (Function.update c i t) w

def IsBranch : Patricia ι β → Prop
  | .branch _ _ => True
  | _ => False

/-- No edge can be merged with what follows it, and every branch is needed. -/
def Canonical : Patricia ι β → Prop
  | .empty => True
  | .leaf _ _ => True
  | .ext k t => k ≠ [] ∧ t.IsBranch ∧ t.Canonical
  | .branch c v => (∀ i, (c i).Canonical) ∧ Crowded c v

section Shared

example (a b c d : ι) (h : c ≠ d) : shared [a, b, c] [a, b, d] = 2 := by simp [shared, h]

lemma take_shared (a b : List ι) : a.take (shared a b) = b.take (shared a b) := by
  induction a, b using shared.induct with
  | case1 a as bs ih => simp [shared, ih]
  | case2 a as b bs h => simp [shared, h]
  | case3 a b h =>
    cases a <;> cases b <;> simp [shared]
    exact absurd rfl (h _ _ _ _ rfl)

lemma shared_le_left (a b : List ι) : shared a b ≤ a.length := by
  induction a, b using shared.induct with
  | case1 a as bs ih => simpa [shared] using ih
  | case2 a as b bs h => simp [shared, h]
  | case3 a b h =>
    cases a <;> cases b <;> simp [shared]
    exact absurd rfl (h _ _ _ _ rfl)

lemma shared_comm (a b : List ι) : shared a b = shared b a := by
  induction a, b using shared.induct with
  | case1 a as bs ih => simp [shared, ih]
  | case2 a as b bs h => simp [shared, h, Ne.symm h]
  | case3 a b h =>
    cases a <;> cases b <;> simp [shared]
    exact absurd rfl (h _ _ _ _ rfl)

lemma shared_le_right (a b : List ι) : shared a b ≤ b.length := by
  rw [shared_comm]
  exact shared_le_left b a

/-- Behind the common beginning the first letters differ. -/
lemma shared_drop (a b : List ι) : shared (a.drop (shared a b)) (b.drop (shared a b)) = 0 := by
  induction a, b using shared.induct with
  | case1 a as bs ih => simpa [shared] using ih
  | case2 a as b bs h => simp [shared, h]
  | case3 a b h =>
    cases a <;> cases b <;> simp [shared]
    exact absurd rfl (h _ _ _ _ rfl)

lemma shared_eq_left_iff (a b : List ι) : shared a b = a.length ↔ a <+: b := by
  induction a, b using shared.induct with
  | case1 a as bs ih => simp [shared, ih]
  | case2 a as b bs h => simp [shared, h]
  | case3 a b h =>
    cases a <;> cases b <;> simp [shared]
    exact absurd rfl (h _ _ _ _ rfl)

lemma shared_eq_right_iff (a b : List ι) : shared a b = b.length ↔ b <+: a := by
  rw [shared_comm]
  exact shared_eq_left_iff b a

end Shared

section Get

@[simp] theorem get_empty (k : List ι) : (empty : Patricia ι β).get k = none := rfl

@[simp] theorem get_leaf (l k : List ι) (v : β) :
    (leaf l v).get k = if l = k then some v else none := rfl

@[simp] theorem get_branch_nil (c : ι → Patricia ι β) (v : Option β) :
    (branch c v).get [] = v := rfl

@[simp] theorem get_branch_cons (c : ι → Patricia ι β) (v : Option β) (i : ι) (k : List ι) :
    (branch c v).get (i :: k) = (c i).get k := rfl

theorem get_ext_append (l k : List ι) (t : Patricia ι β) : (ext l t).get (l ++ k) = t.get k := by
  simp [get]

theorem get_ext_eq_none {l k : List ι} (t : Patricia ι β) (h : ¬ l <+: k) :
    (ext l t).get k = none := by
  simp [get, h]

@[simp] theorem get_ext_nil (k : List ι) (t : Patricia ι β) : (ext [] t).get k = t.get k := by
  simp [get]

@[simp] theorem get_wrap (l k : List ι) (t : Patricia ι β) :
    (wrap l t).get k = (ext l t).get k := by
  unfold wrap
  split_ifs with h
  · subst h; simp
  · rfl

theorem get_ext_leaf (l k k' : List ι) (v : β) :
    (ext l (leaf k v)).get k' = (leaf (l ++ k) v).get k' := by
  by_cases h : l <+: k'
  · obtain ⟨r, rfl⟩ := h
    simp [get_ext_append]
  · rw [get_ext_eq_none _ h, get_leaf, if_neg]
    rintro rfl
    exact h (List.prefix_append l k)

theorem get_ext_ext (l k k' : List ι) (t : Patricia ι β) :
    (ext l (ext k t)).get k' = (ext (l ++ k) t).get k' := by
  by_cases h : l <+: k'
  · obtain ⟨r, rfl⟩ := h
    rw [get_ext_append]
    by_cases hk : k <+: r
    · obtain ⟨r', rfl⟩ := hk
      rw [get_ext_append, ← List.append_assoc, get_ext_append]
    · rw [get_ext_eq_none _ hk, get_ext_eq_none]
      rwa [List.prefix_append_right_inj]
  · rw [get_ext_eq_none _ h, get_ext_eq_none]
    exact fun hk => h ((List.prefix_append l k).trans hk)

@[simp] theorem get_graft (l k : List ι) (t : Patricia ι β) :
    (graft l t).get k = (ext l t).get k := by
  cases t with
  | empty => rfl
  | leaf m v => exact (get_ext_leaf l m k v).symm
  | ext m t => exact (get_ext_ext l m k t).symm
  | branch c v => rfl

theorem get_single (i j : ι) (t : Patricia ι β) (k : List ι) :
    (single i t j).get k = if i = j then t.get k else none := by
  by_cases h : i = j
  · subst h; simp [single]
  · simp [single, h, Function.update_of_ne (Ne.symm h)]

@[simp] theorem get_fork (t : Patricia ι β) (k : List ι) : (fork t).get k = t.get k := by
  match t with
  | .empty => rfl
  | .branch _ _ => rfl
  | .ext [] _ => rfl
  | .leaf [] v => cases k <;> simp [fork]
  | .leaf (i :: l) v =>
    cases k with
    | nil => simp [fork]
    | cons j k =>
      simp only [fork, get_branch_cons, get_single, get_leaf, List.cons.injEq]
      split_ifs <;> simp_all
  | .ext (i :: l) t =>
    cases k with
    | nil => simp [fork, get]
    | cons j k =>
      simp only [fork, get_branch_cons, get_single, get_wrap]
      by_cases h : i = j
      · subst h; simp [get]
      · rw [if_neg h, get_ext_eq_none]
        simp [h]

/-- The slot a new word would go to is free. -/
def Free (c : ι → Patricia ι β) (v : Option β) : List ι → Prop
  | [] => v = none
  | i :: _ => c i = .empty

theorem get_attach (c : ι → Patricia ι β) (w : Option β) (k : List ι) (v : β) (k' : List ι)
    (hfree : Free c w k) :
    (attach (branch c w) k v).get k' = if k = k' then some v else (branch c w).get k' := by
  cases k with
  | nil => cases k' <;> simp [attach]
  | cons i k =>
    cases k' with
    | nil => simp [attach]
    | cons j k' =>
      have hfree' : c i = .empty := hfree
      simp only [attach, get_branch_cons, List.cons.injEq]
      by_cases h : i = j
      · subst h; simp [hfree']
      · simp [h, Function.update_of_ne (Ne.symm h)]

/-- Below one child, a word with no shared letter goes to a free slot. -/
lemma free_single {j : ι} {l k : List ι} (t : Patricia ι β) (hs : shared k (j :: l) = 0) :
    Free (Function.update (fun _ => .empty) j t) none k := by
  cases k with
  | nil => rfl
  | cons i k =>
    have hij : i ≠ j := by
      rintro rfl
      simp [shared] at hs
    exact Function.update_of_ne hij _ _

/-- A leaf that shares no letter with another word forks away from it. -/
lemma fork_leaf_free {l k : List ι} (v : β) (hne : l ≠ k) (hs : shared k l = 0) :
    ∃ c w, fork (leaf l v) = branch c w ∧ Free c w k := by
  cases l with
  | nil =>
    refine ⟨fun _ => .empty, some v, rfl, ?_⟩
    cases k with
    | nil => contradiction
    | cons i k => rfl
  | cons j l => exact ⟨_, none, rfl, free_single _ hs⟩

lemma fork_ext_free {l k : List ι} (t : Patricia ι β) (hne : l ≠ []) (hs : shared k l = 0) :
    ∃ c w, fork (ext l t) = branch c w ∧ Free c w k := by
  cases l with
  | nil => contradiction
  | cons j l => exact ⟨_, none, rfl, free_single _ hs⟩

lemma leaf_split_free {l k : List ι} (v : β) (h : l ≠ k) :
    ∃ c w, fork (leaf (l.drop (shared k l)) v) = branch c w ∧ Free c w (k.drop (shared k l)) := by
  apply fork_leaf_free _ _ (shared_drop k l)
  intro heq
  apply h
  rw [← List.take_append_drop (shared k l) l, ← take_shared k l, heq, List.take_append_drop]

lemma drop_shared_ne_nil {l k : List ι} (h : ¬ l <+: k) : l.drop (shared k l) ≠ [] := by
  intro hnil
  apply h
  rw [← shared_eq_right_iff]
  exact le_antisymm (shared_le_right k l) (List.drop_eq_nil_iff.mp hnil)

lemma ext_split_free {l k : List ι} (t : Patricia ι β) (h : ¬ l <+: k) :
    ∃ c w, fork (ext (l.drop (shared k l)) t) = branch c w ∧ Free c w (k.drop (shared k l)) :=
  fork_ext_free _ (drop_shared_ne_nil h) (shared_drop k l)

/-- Splitting a two-item node at the shared beginning adds exactly the new word. -/
lemma get_split {t u : Patricia ι β} {l k : List ι} (v : β) (k' : List ι)
    (hget : ∀ x, (ext (l.take (shared k l)) u).get x = t.get x)
    (hfork : ∃ c w, fork u = branch c w ∧ Free c w (k.drop (shared k l))) :
    (wrap (l.take (shared k l)) (attach (fork u) (k.drop (shared k l)) v)).get k' =
      if k = k' then some v else t.get k' := by
  obtain ⟨c, w, hf, hfree⟩ := hfork
  have htake : k.take (shared k l) = l.take (shared k l) := take_shared k l
  have hsplit : l.take (shared k l) ++ k.drop (shared k l) = k := by
    rw [← htake, List.take_append_drop]
  rw [get_wrap, ← hget k', hf]
  by_cases hp : l.take (shared k l) <+: k'
  · obtain ⟨r, rfl⟩ := hp
    rw [get_ext_append, get_ext_append, get_attach _ _ _ _ _ hfree, ← hf, get_fork]
    congr 1
    rw [← List.append_right_inj (l.take (shared k l)), hsplit]
  · rw [get_ext_eq_none _ hp, get_ext_eq_none _ hp, if_neg]
    rintro rfl
    exact hp ⟨_, hsplit⟩

theorem get_insert (t : Patricia ι β) (k : List ι) (v : β) (k' : List ι) :
    (t.insert k v).get k' = if k = k' then some v else t.get k' := by
  induction t generalizing k k' with
  | empty => simp [insert]
  | leaf l w =>
    by_cases h : l = k
    · subst h
      simp only [insert, if_pos, get_leaf]
      split_ifs <;> rfl
    · simp only [insert, if_neg h]
      apply get_split
      · intro x
        rw [get_ext_leaf, List.take_append_drop]
      · exact leaf_split_free w h
  | ext l t ih =>
    by_cases h : l <+: k
    · obtain ⟨r, rfl⟩ := h
      simp only [insert, if_pos (List.prefix_append l r), List.drop_left]
      by_cases hp : l <+: k'
      · obtain ⟨r', rfl⟩ := hp
        simp [get_ext_append, ih]
      · rw [get_ext_eq_none _ hp, get_ext_eq_none _ hp, if_neg]
        rintro rfl
        exact hp (List.prefix_append l r)
    · simp only [insert, if_neg h]
      apply get_split
      · intro x
        rw [get_ext_ext, List.take_append_drop]
      · exact ext_split_free t h
  | branch c w ih =>
    cases k with
    | nil => cases k' <;> simp [insert]
    | cons i k =>
      cases k' with
      | nil => simp [insert]
      | cons j k' =>
        simp only [insert, get_branch_cons, List.cons.injEq]
        by_cases hij : i = j
        · subst hij; simp [ih]
        · simp [hij, Function.update_of_ne (Ne.symm hij)]

end Get

section Delete

omit [DecidableEq ι] in
lemma uniqueSlot_of_unique {c : ι → Patricia ι β} {v : Option β} {s : Option ι}
    (hs : Used c v s) (hu : ∀ s', Used c v s' → s' = s) : uniqueSlot c v = some s := by
  have h : ∃! s, Used c v s := ⟨s, hs, hu⟩
  rw [uniqueSlot, dif_pos h]
  exact congrArg some (hu _ h.choose_spec.1)

omit [DecidableEq ι] in
lemma uniqueSlot_of_crowded {c : ι → Patricia ι β} {v : Option β} (h : Crowded c v) :
    uniqueSlot c v = none := by
  obtain ⟨a, b, hab, ha, hb⟩ := h
  rw [uniqueSlot, dif_neg]
  rintro ⟨s, _, hs⟩
  exact hab ((hs a ha).trans (hs b hb).symm)

omit [DecidableEq ι] in
lemma used_of_uniqueSlot {c : ι → Patricia ι β} {v : Option β} {s : Option ι}
    (h : uniqueSlot c v = some s) : Used c v s ∧ ∀ s', Used c v s' → s' = s := by
  unfold uniqueSlot at h
  split_ifs at h with hex
  obtain rfl := Option.some.inj h
  exact hex.choose_spec

omit [DecidableEq ι] in
theorem collapse_child {c : ι → Patricia ι β} {v : Option β} {i : ι}
    (hs : Used c v (some i)) (hu : ∀ s', Used c v s' → s' = some i) :
    collapse c v = graft [i] (c i) := by
  simp [collapse, uniqueSlot_of_unique hs hu]

omit [DecidableEq ι] in
theorem collapse_value {c : ι → Patricia ι β} {w : β}
    (hu : ∀ s', Used c (some w) s' → s' = none) : collapse c (some w) = leaf [] w := by
  simp [collapse, uniqueSlot_of_unique (s := none) (by simp [Used]) hu]

omit [DecidableEq ι] in
theorem collapse_crowded {c : ι → Patricia ι β} {v : Option β} (h : Crowded c v) :
    collapse c v = branch c v := by
  simp [collapse, uniqueSlot_of_crowded h]

@[simp] theorem get_collapse (c : ι → Patricia ι β) (v : Option β) (k : List ι) :
    (collapse c v).get k = (branch c v).get k := by
  unfold collapse
  cases h : uniqueSlot c v with
  | none => rfl
  | some s =>
    obtain ⟨hs, hu⟩ := used_of_uniqueSlot h
    cases s with
    | none =>
      obtain ⟨w, rfl⟩ := Option.ne_none_iff_exists'.mp hs
      cases k with
      | nil => simp
      | cons j k =>
        have hj : c j = .empty := by
          by_contra hj
          cases hu (some j) hj
        simp [hj]
    | some i =>
      rw [get_graft]
      cases k with
      | nil =>
        have hv : v = none := by
          by_contra hv
          cases hu none hv
        simp [get, hv]
      | cons j k =>
        by_cases hij : i = j
        · subst hij; simp [get]
        · have hj : c j = .empty := by
            by_contra hj
            exact hij (Option.some.inj (hu (some j) hj)).symm
          rw [get_ext_eq_none, get_branch_cons, hj, get_empty]
          simp [hij]

theorem delete_eq_none {t : Patricia ι β} {k : List ι} : t.delete k = none ↔ t.get k = none := by
  induction t generalizing k with
  | empty => simp [delete]
  | leaf l w => by_cases h : l = k <;> simp [delete, h]
  | ext l t ih => by_cases h : l <+: k <;> simp [delete, get, h, ih]
  | branch c w ih =>
    cases k with
    | nil => cases w <;> simp [delete]
    | cons i k => simp [delete, ih]

theorem get_delete {t t' : Patricia ι β} {k : List ι} (h : t.delete k = some t') (k' : List ι) :
    t'.get k' = if k = k' then none else t.get k' := by
  induction t generalizing k k' t' with
  | empty => simp [delete] at h
  | leaf l w =>
    simp only [delete] at h
    split_ifs at h with hl
    obtain rfl := Option.some.inj h
    subst hl
    simp
  | ext l t ih =>
    simp only [delete] at h
    split_ifs at h with hl
    obtain ⟨u, hu, rfl⟩ := Option.map_eq_some_iff.mp h
    obtain ⟨r, rfl⟩ := hl
    rw [List.drop_left] at hu
    rw [get_graft]
    by_cases hp : l <+: k'
    · obtain ⟨r', rfl⟩ := hp
      simp [get_ext_append, ih hu]
    · rw [get_ext_eq_none _ hp, get_ext_eq_none _ hp, ite_self]
  | branch c w ih =>
    cases k with
    | nil =>
      cases w with
      | none => simp [delete] at h
      | some w =>
        obtain rfl := Option.some.inj h
        cases k' <;> simp
    | cons i k =>
      simp only [delete, Option.map_eq_some_iff] at h
      obtain ⟨u, hu, rfl⟩ := h
      rw [get_collapse]
      cases k' with
      | nil => simp
      | cons j k' =>
        simp only [get_branch_cons, List.cons.injEq]
        by_cases hij : i = j
        · subst hij; simp [ih _ hu]
        · simp [hij, Function.update_of_ne (Ne.symm hij)]

end Delete

section Canonical

theorem Canonical.exists_get {t : Patricia ι β} (ht : t.Canonical) (hne : t ≠ .empty) :
    ∃ k v, t.get k = some v := by
  induction t with
  | empty => contradiction
  | leaf l v => exact ⟨l, v, by simp⟩
  | ext l t ih =>
    obtain ⟨-, hb, hc⟩ := ht
    obtain ⟨k, v, hk⟩ := ih hc (by rintro rfl; exact hb)
    exact ⟨l ++ k, v, by rw [get_ext_append, hk]⟩
  | branch c w ih =>
    obtain ⟨hc, a, -, -, ha, -⟩ := ht
    cases a with
    | none =>
      obtain ⟨v, rfl⟩ := Option.ne_none_iff_exists'.mp ha
      exact ⟨[], v, rfl⟩
    | some i =>
      obtain ⟨k, v, hk⟩ := ih i (hc i) ha
      exact ⟨i :: k, v, hk⟩

/-- A used slot of a branch holds a word; its first letter names the slot. -/
lemma exists_get_of_used {c : ι → Patricia ι β} {v : Option β} (hc : ∀ i, (c i).Canonical)
    {s : Option ι} (hs : Used c v s) : ∃ k w, (branch c v).get k = some w ∧ k.head? = s := by
  cases s with
  | none =>
    obtain ⟨w, rfl⟩ := Option.ne_none_iff_exists'.mp hs
    exact ⟨[], w, rfl, rfl⟩
  | some i =>
    obtain ⟨k, w, hk⟩ := (hc i).exists_get hs
    exact ⟨i :: k, w, hk, rfl⟩

/-- The words of a canonical branch do not all begin alike. -/
lemma Canonical.branch_heads {t : Patricia ι β} (ht : t.Canonical) (hb : t.IsBranch) (s : Option ι) :
    ∃ k w, t.get k = some w ∧ k.head? ≠ s := by
  cases t with
  | branch c v =>
    obtain ⟨hc, a, b, hab, ha, hb⟩ := ht
    by_cases has : a = s
    · obtain ⟨k, w, hk, hh⟩ := exists_get_of_used hc hb
      exact ⟨k, w, hk, by rw [hh, ← has]; exact hab.symm⟩
    · obtain ⟨k, w, hk, hh⟩ := exists_get_of_used hc ha
      exact ⟨k, w, hk, by rwa [hh]⟩
  | _ => exact hb.elim

lemma prefix_of_get_ext {l k : List ι} {t : Patricia ι β} {v : β}
    (h : (ext l t).get k = some v) : l <+: k := by
  by_contra hp
  rw [get_ext_eq_none _ hp] at h
  cases h

/-- The label of a canonical edge is the longest common beginning of its words. -/
lemma Canonical.ext_label_le {l m : List ι} {t u : Patricia ι β} (ht : (ext l t).Canonical)
    (h : ∀ k, (ext l t).get k = (ext m u).get k) : m <+: l := by
  obtain ⟨-, hb, hc⟩ := ht
  obtain ⟨k₀, w₀, hk₀, -⟩ := hc.branch_heads hb none
  have hm₀ : m <+: l ++ k₀ := prefix_of_get_ext (t := u) (v := w₀) (by
    rw [← h, get_ext_append, hk₀])
  rcases List.prefix_or_prefix_of_prefix hm₀ (List.prefix_append l k₀) with hml | hlm
  · exact hml
  · obtain ⟨d, rfl⟩ := hlm
    cases d with
    | nil => simp
    | cons i d =>
      obtain ⟨k, w, hk, hne⟩ := hc.branch_heads hb (some i)
      have hm : l ++ i :: d <+: l ++ k := prefix_of_get_ext (t := u) (v := w) (by
        rw [← h, get_ext_append, hk])
      obtain ⟨r, hr⟩ := (List.prefix_append_right_inj l).mp hm
      exact absurd (by rw [← hr]; rfl) hne

/-- A canonical trie is determined by the map it represents. -/
theorem Canonical.unique {t u : Patricia ι β} (ht : t.Canonical) (hu : u.Canonical)
    (h : ∀ k, t.get k = u.get k) : t = u := by
  induction t generalizing u with
  | empty =>
    by_contra hne
    obtain ⟨k, v, hk⟩ := hu.exists_get (Ne.symm hne)
    rw [← h] at hk
    cases hk
  | leaf l v =>
    have hl : u.get l = some v := by rw [← h]; simp
    have honly : ∀ k w, u.get k = some w → k = l := by
      intro k w hk
      rw [← h, get_leaf] at hk
      split_ifs at hk with heq
      exact heq.symm
    cases u with
    | empty => cases hl
    | leaf m w =>
      rw [get_leaf] at hl
      split_ifs at hl with heq
      rw [heq, Option.some.inj hl]
    | ext m u =>
      obtain ⟨r, hr⟩ := prefix_of_get_ext hl
      obtain ⟨k, w, hk, hne⟩ := hu.2.2.branch_heads hu.2.1 r.head?
      have := honly (m ++ k) w (by rw [get_ext_append, hk])
      rw [← hr] at this
      rw [List.append_cancel_left this] at hne
      contradiction
    | branch c w =>
      obtain ⟨k, x, hk, hne⟩ := hu.branch_heads trivial l.head?
      rw [honly k x hk] at hne
      contradiction
  | ext l t ih =>
    cases u with
    | empty =>
      obtain ⟨k, v, hk⟩ := ht.exists_get (by simp)
      rw [h] at hk
      cases hk
    | leaf m w =>
      have honly : ∀ k x, (ext l t).get k = some x → k = m := by
        intro k x hk
        rw [h, get_leaf] at hk
        split_ifs at hk with heq
        exact heq.symm
      have hm : (ext l t).get m = some w := by rw [h]; simp
      obtain ⟨r, hr⟩ := prefix_of_get_ext hm
      obtain ⟨k, x, hk, hne⟩ := ht.2.2.branch_heads ht.2.1 r.head?
      have := honly (l ++ k) x (by rw [get_ext_append, hk])
      rw [← hr] at this
      rw [List.append_cancel_left this] at hne
      contradiction
    | ext m u =>
      have hml := ht.ext_label_le h
      have hlm := hu.ext_label_le fun k => (h k).symm
      obtain rfl := hlm.eq_of_length (le_antisymm hlm.length_le hml.length_le)
      congr 1
      apply ih ht.2.2 hu.2.2
      intro k
      rw [← get_ext_append l k t, h, get_ext_append]
    | branch c w =>
      cases l with
      | nil => exact absurd rfl ht.1
      | cons i l =>
        obtain ⟨k, x, hk, hne⟩ := hu.branch_heads trivial (some i)
        rw [← h] at hk
        obtain ⟨r, rfl⟩ := prefix_of_get_ext hk
        exact absurd rfl hne
  | branch c v ih =>
    cases u with
    | empty =>
      obtain ⟨k, w, hk⟩ := ht.exists_get (by simp)
      rw [h] at hk
      cases hk
    | leaf m w =>
      obtain ⟨k, x, hk, hne⟩ := ht.branch_heads trivial m.head?
      rw [h, get_leaf] at hk
      split_ifs at hk with heq
      rw [heq] at hne
      contradiction
    | ext m u =>
      cases m with
      | nil => exact absurd rfl hu.1
      | cons i m =>
        obtain ⟨k, x, hk, hne⟩ := ht.branch_heads trivial (some i)
        rw [h] at hk
        obtain ⟨r, rfl⟩ := prefix_of_get_ext hk
        exact absurd rfl hne
    | branch d w =>
      have hv : v = w := h []
      have hcd : c = d := by
        funext i
        exact ih i (ht.1 i) (hu.1 i) fun k => h (i :: k)
      rw [hv, hcd]

omit [DecidableEq ι] in
lemma canonical_graft {l : List ι} {t : Patricia ι β} (hl : l ≠ []) (ht : t.Canonical)
    (hne : t ≠ .empty) : (graft l t).Canonical ∧ graft l t ≠ .empty := by
  cases t with
  | empty => contradiction
  | leaf m v => exact ⟨trivial, by simp [graft]⟩
  | ext m t => exact ⟨⟨by simp [hl], ht.2⟩, by simp [graft]⟩
  | branch c v => exact ⟨⟨hl, trivial, ht⟩, by simp [graft]⟩

omit [DecidableEq ι] in
/-- Collapsing makes a branch canonical when one slot at least is in use. -/
lemma canonical_collapse {c : ι → Patricia ι β} {v : Option β} (hc : ∀ i, (c i).Canonical)
    (hused : ∃ s, Used c v s) : (collapse c v).Canonical ∧ collapse c v ≠ .empty := by
  obtain ⟨s, hs⟩ := hused
  by_cases hu : ∀ s', Used c v s' → s' = s
  · cases s with
    | some i =>
      rw [collapse_child hs hu]
      exact canonical_graft (by simp) (hc i) hs
    | none =>
      obtain ⟨w, rfl⟩ := Option.ne_none_iff_exists'.mp hs
      rw [collapse_value hu]
      exact ⟨trivial, by simp⟩
  · push Not at hu
    obtain ⟨s', hs', hne⟩ := hu
    have hcrowded : Crowded c v := ⟨s', s, hne, hs', hs⟩
    rw [collapse_crowded hcrowded]
    exact ⟨⟨hc, hcrowded⟩, by simp⟩

omit [DecidableEq ι] in
/-- A crowded branch keeps a used slot when one slot changes. -/
lemma Crowded.exists_used_ne {c : ι → Patricia ι β} {v : Option β} (h : Crowded c v)
    (s : Option ι) : ∃ s', s' ≠ s ∧ Used c v s' := by
  obtain ⟨a, b, hab, ha, hb⟩ := h
  by_cases has : a = s
  · exact ⟨b, by rw [← has]; exact hab.symm, hb⟩
  · exact ⟨a, has, ha⟩

lemma used_update_of_ne {c : ι → Patricia ι β} {v : Option β} {i : ι} {t : Patricia ι β}
    {s : Option ι} (hs : s ≠ some i) : Used (Function.update c i t) v s ↔ Used c v s := by
  cases s with
  | none => rfl
  | some j =>
    have hji : j ≠ i := fun h => hs (congrArg some h)
    simp only [Used, Function.update_of_ne hji]

lemma used_update_self {c : ι → Patricia ι β} {v : Option β} {i : ι} {t : Patricia ι β} :
    Used (Function.update c i t) v (some i) ↔ t ≠ .empty := by
  simp [Used]

lemma canonical_update {c : ι → Patricia ι β} {i : ι} {t : Patricia ι β}
    (hc : ∀ j, (c j).Canonical) (ht : t.Canonical) (j : ι) :
    (Function.update c i t j).Canonical := by
  by_cases hj : j = i
  · subst hj; simpa using ht
  · rw [Function.update_of_ne hj]
    exact hc j

omit [DecidableEq ι] in
lemma canonical_wrap {l : List ι} {t : Patricia ι β} (ht : t.Canonical) (hb : t.IsBranch) :
    (wrap l t).Canonical := by
  unfold wrap
  split_ifs with hl
  · exact ht
  · exact ⟨hl, hb, ht⟩

/-- A new word beside a used slot makes a canonical branch. -/
lemma canonical_attach {c : ι → Patricia ι β} {w : Option β} {k : List ι} (v : β)
    (hc : ∀ i, (c i).Canonical) (hused : ∃ s, Used c w s) (hfree : Free c w k) :
    (attach (branch c w) k v).Canonical ∧ (attach (branch c w) k v).IsBranch := by
  obtain ⟨s, hs⟩ := hused
  refine ⟨?_, by cases k <;> trivial⟩
  cases k with
  | nil =>
    have hsn : s ≠ none := by
      rintro rfl
      exact hs hfree
    obtain ⟨i, rfl⟩ := Option.ne_none_iff_exists'.mp hsn
    exact ⟨hc, none, some i, by simp, by simp [Used], hs⟩
  | cons i k =>
    have hsi : s ≠ some i := by
      rintro rfl
      exact hs hfree
    exact ⟨canonical_update hc trivial, some i, s, hsi.symm,
      used_update_self.mpr (by simp), (used_update_of_ne hsi).mpr hs⟩

lemma canonical_single (i : ι) {t : Patricia ι β} (ht : t.Canonical) (j : ι) :
    (single i t j).Canonical :=
  canonical_update (c := fun _ => .empty) (fun _ => trivial) ht j

/-- What a two-item node leaves in its slot after forking away. -/
lemma canonical_fork {t : Patricia ι β} (ht : t.Canonical) (hb : ¬ t.IsBranch) (hne : t ≠ .empty) :
    ∃ c w, fork t = branch c w ∧ (∀ i, (c i).Canonical) ∧ ∃ s, Used c w s := by
  match t, ht with
  | .empty, _ => contradiction
  | .branch _ _, _ => exact absurd trivial hb
  | .leaf [] v, _ =>
    exact ⟨fun _ => .empty, some v, rfl, fun _ => trivial, none, by simp [Used]⟩
  | .leaf (i :: l) v, _ =>
    exact ⟨_, _, rfl, canonical_single i trivial, some i, used_update_self.mpr (by simp)⟩
  | .ext [] _, ht => exact absurd rfl ht.1
  | .ext (i :: l) t, ht =>
    refine ⟨_, _, rfl, canonical_single i (canonical_wrap ht.2.2 ht.2.1), some i,
      used_update_self.mpr ?_⟩
    unfold wrap
    split_ifs with hl
    · rintro rfl
      exact ht.2.1
    · simp

lemma canonical_split {u : Patricia ι β} {l k : List ι} (v : β) (hu : u.Canonical)
    (hb : ¬ u.IsBranch) (hne : u ≠ .empty) (hfork : ∃ c w, fork u = branch c w ∧ Free c w k) :
    (wrap l (attach (fork u) k v)).Canonical := by
  obtain ⟨c, w, hf, hfree⟩ := hfork
  obtain ⟨c', w', hf', hc, hused⟩ := canonical_fork hu hb hne
  obtain ⟨rfl, rfl⟩ : c' = c ∧ w' = w := by
    rw [hf] at hf'
    simpa [eq_comm] using hf'
  have h := canonical_attach v hc hused hfree
  rw [hf]
  exact canonical_wrap h.1 h.2

lemma IsBranch.insert {t : Patricia ι β} (hb : t.IsBranch) (k : List ι) (v : β) :
    (t.insert k v).IsBranch := by
  cases t with
  | branch c w => cases k <;> trivial
  | _ => exact hb.elim

theorem insert_ne_empty (t : Patricia ι β) (k : List ι) (v : β) : t.insert k v ≠ .empty := by
  intro h
  have hget := get_insert t k v k
  rw [h] at hget
  simp at hget

theorem Canonical.insert {t : Patricia ι β} (ht : t.Canonical) (k : List ι) (v : β) :
    (t.insert k v).Canonical := by
  induction t generalizing k with
  | empty => trivial
  | leaf l w =>
    by_cases h : l = k
    · simp only [Patricia.insert, if_pos h]
      exact ht
    · simp only [Patricia.insert, if_neg h]
      exact canonical_split v trivial (fun h => h) (by simp) (leaf_split_free w h)
  | ext l t ih =>
    by_cases h : l <+: k
    · simp only [Patricia.insert, if_pos h]
      exact ⟨ht.1, ht.2.1.insert _ _, ih ht.2.2 _⟩
    · simp only [Patricia.insert, if_neg h]
      exact canonical_split v ⟨drop_shared_ne_nil h, ht.2⟩ (fun h => h) (by simp)
        (ext_split_free t h)
  | branch c w ih =>
    obtain ⟨hc, a, b, hab, ha, hb⟩ := ht
    cases k with
    | nil =>
      have hmono : ∀ s, Used c w s → Used c (some v) s := by
        rintro (_ | i) hs
        · simp [Used]
        · exact hs
      exact ⟨hc, a, b, hab, hmono a ha, hmono b hb⟩
    | cons i k =>
      have hmono : ∀ s, Used c w s → Used (Function.update c i ((c i).insert k v)) w s := by
        intro s hs
        by_cases hsi : s = some i
        · subst hsi
          exact used_update_self.mpr (insert_ne_empty _ _ _)
        · exact (used_update_of_ne hsi).mpr hs
      exact ⟨canonical_update hc (ih i (hc i) k), a, b, hab, hmono a ha, hmono b hb⟩

/-- Deletion keeps a trie canonical and does not empty a branch. -/
theorem Canonical.delete {t t' : Patricia ι β} (ht : t.Canonical) {k : List ι}
    (h : t.delete k = some t') : t'.Canonical ∧ (t.IsBranch → t' ≠ .empty) := by
  induction t generalizing k t' with
  | empty => simp [Patricia.delete] at h
  | leaf l w =>
    simp only [Patricia.delete] at h
    split_ifs at h
    obtain rfl := Option.some.inj h
    exact ⟨trivial, False.elim⟩
  | ext l t ih =>
    simp only [Patricia.delete] at h
    split_ifs at h
    obtain ⟨u, hu, rfl⟩ := Option.map_eq_some_iff.mp h
    obtain ⟨hcu, hne⟩ := ih ht.2.2 hu
    exact ⟨(canonical_graft ht.1 hcu (hne ht.2.1)).1, False.elim⟩
  | branch c w ih =>
    obtain ⟨hc, hcrowded⟩ := ht
    cases k with
    | nil =>
      cases w with
      | none => simp [Patricia.delete] at h
      | some w =>
        obtain rfl := Option.some.inj h
        obtain ⟨s, hsn, hs⟩ := hcrowded.exists_used_ne none
        have hused : Used c (none : Option β) s := by
          cases s with
          | none => contradiction
          | some i => exact hs
        have hcol := canonical_collapse hc ⟨s, hused⟩
        exact ⟨hcol.1, fun _ => hcol.2⟩
    | cons i k =>
      simp only [Patricia.delete, Option.map_eq_some_iff] at h
      obtain ⟨u, hu, rfl⟩ := h
      obtain ⟨s, hsi, hs⟩ := hcrowded.exists_used_ne (some i)
      have hcol := canonical_collapse (canonical_update hc (ih i (hc i) hu).1)
        ⟨s, (used_update_of_ne hsi).mpr hs⟩
      exact ⟨hcol.1, fun _ => hcol.2⟩

end Canonical
end Patricia
end XChain
