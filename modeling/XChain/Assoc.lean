import Mathlib.Data.List.AList

/-!
# Association lists

What a lookup and a count say after a change of one entry or of all of them.
-/
namespace XChain

variable {κ β : Type} [DecidableEq κ]

/-- Changes the values and leaves the keys. -/
def mapValues (f : β → β) (m : AList fun _ : κ => β) : AList fun _ : κ => β :=
  ⟨m.entries.map fun e => ⟨e.1, f e.2⟩, by
    have hkeys : (m.entries.map fun e => (⟨e.1, f e.2⟩ : Σ _ : κ, β)).keys = m.entries.keys := by
      simp [List.keys, Function.comp_def]
    rw [List.NodupKeys, hkeys]
    exact m.nodupKeys⟩

@[simp] theorem lookup_mapValues (f : β → β) (m : AList fun _ : κ => β) (k : κ) :
    (mapValues f m).lookup k = (m.lookup k).map f :=
  @List.dlookup_map₂ κ _ (fun _ => β) (fun _ => β) m.entries (fun _ => f) k

/-- The number of entries whose value satisfies a test. -/
def countValues (p : β → Bool) (m : AList fun _ : κ => β) : ℕ := m.entries.countP fun e => p e.2

section Counts

variable (p : β → Bool) (m : AList fun _ : κ => β) (k : κ)

theorem countValues_pos : 0 < countValues p m ↔ ∃ k v, m.lookup k = some v ∧ p v := by
  rw [countValues, List.countP_pos_iff]
  constructor
  · rintro ⟨⟨k, v⟩, hmem, hp⟩
    exact ⟨k, v, List.mem_dlookup m.nodupKeys hmem, hp⟩
  · rintro ⟨k, v, hlook, hp⟩
    exact ⟨⟨k, v⟩, List.of_mem_dlookup hlook, hp⟩

theorem countValues_insert (v : β) :
    countValues p (m.insert k v) = countValues p (m.erase k) + (if p v then 1 else 0) := by
  exact List.countP_cons

/-- An erased entry is not counted any more. -/
theorem countValues_erase {v : β} (h : m.lookup k = some v) :
    countValues p m = countValues p (m.erase k) + (if p v then 1 else 0) := by
  have hmem : k ∈ m.entries.keys := by
    have hk : k ∈ m := AList.lookup_isSome.mp (by rw [h]; rfl)
    exact hk
  obtain ⟨w, front, back, hfront, hsplit, herase⟩ := List.exists_of_kerase hmem
  have hw : m.lookup k = some w :=
    List.mem_dlookup m.nodupKeys (hsplit ▸ List.mem_append_right _ List.mem_cons_self)
  obtain rfl : v = w := Option.some.inj (h.symm.trans hw)
  have herased : countValues p (m.erase k) = (front ++ back).countP fun e => p e.2 := by
    rw [← herase]
    rfl
  rw [herased, countValues, hsplit]
  simp only [List.countP_append, List.countP_cons]
  omega

theorem erase_of_lookup_eq_none (h : m.lookup k = none) : m.erase k = m := by
  have hmem : k ∉ m.entries.keys := fun hk => by
    have hk' : k ∈ m := hk
    rw [← AList.lookup_isSome, h] at hk'
    exact absurd hk' (by simp)
  exact AList.ext (List.kerase_of_notMem_keys hmem)

end Counts
section Insertions

/-- The last value that a list of insertions gives to a key. -/
def lastOf (k : κ) : List (κ × β) → Option β
  | [] => none
  | e :: l => (lastOf k l).or (if k = e.1 then some e.2 else none)

/-- Inserts the entries one after the other. -/
def insertAll (l : List (κ × β)) (m : AList fun _ : κ => β) : AList fun _ : κ => β :=
  l.foldl (fun m e => m.insert e.1 e.2) m

variable {l l' : List (κ × β)} {k : κ} {v : β} {m : AList fun _ : κ => β}

@[simp] theorem insertAll_nil : insertAll [] m = m := rfl

@[simp] theorem insertAll_cons (e : κ × β) :
    insertAll (e :: l) m = insertAll l (m.insert e.1 e.2) := rfl

theorem insertAll_append : insertAll (l ++ l') m = insertAll l' (insertAll l m) :=
  List.foldl_append

@[simp] theorem lookup_insertAll : (insertAll l m).lookup k = (lastOf k l).or (m.lookup k) := by
  induction l generalizing m with
  | nil => rfl
  | cons e l ih =>
    rw [insertAll_cons, ih, lastOf, Option.or_assoc]
    by_cases hk : k = e.1
    · rw [hk, AList.lookup_insert, if_pos rfl, Option.some_or]
    · rw [AList.lookup_insert_ne hk, if_neg hk, Option.none_or]

theorem mem_of_lastOf (h : lastOf k l = some v) : (k, v) ∈ l := by
  induction l with
  | nil => cases h
  | cons e l ih =>
    rcases Option.or_eq_some_iff.mp h with hlast | ⟨-, hhead⟩
    · exact List.mem_cons_of_mem _ (ih hlast)
    · split_ifs at hhead with hk
      obtain rfl := Option.some.inj hhead
      rw [hk]
      exact List.mem_cons_self

theorem lastOf_isSome (h : (k, v) ∈ l) : (lastOf k l).isSome := by
  induction l with
  | nil => cases h
  | cons e l ih =>
    rcases List.mem_cons.mp h with rfl | hmem
    · cases hlast : lastOf k l <;> simp [lastOf, hlast]
    · obtain ⟨w, hw⟩ := Option.isSome_iff_exists.mp (ih hmem)
      simp [lastOf, hw]

/-- The value of a key that every insertion gives the same value. -/
theorem lastOf_eq (hmem : (k, v) ∈ l) (hone : ∀ w, (k, w) ∈ l → w = v) : lastOf k l = some v := by
  obtain ⟨w, hw⟩ := Option.isSome_iff_exists.mp (lastOf_isSome hmem)
  rw [hw, hone w (mem_of_lastOf hw)]

theorem lastOf_eq_none (h : ∀ w, (k, w) ∉ l) : lastOf k l = none := by
  cases hlast : lastOf k l with
  | none => rfl
  | some w => exact absurd (mem_of_lastOf hlast) (h w)

/-- The entries of a table, as they could be inserted again. -/
def pairs (m : AList fun _ : κ => β) : List (κ × β) := m.entries.map fun e => (e.1, e.2)

theorem mem_pairs : (k, v) ∈ pairs m ↔ m.lookup k = some v := by
  rw [pairs, List.mem_map, ← Option.mem_def, AList.mem_lookup_iff]
  constructor
  · rintro ⟨e, he, heq⟩
    obtain ⟨rfl, rfl⟩ := Prod.mk.inj heq
    exact he
  · intro h
    exact ⟨⟨k, v⟩, h, rfl⟩

@[simp] theorem lastOf_pairs : lastOf k (pairs m) = m.lookup k := by
  cases hlook : m.lookup k with
  | none =>
    apply lastOf_eq_none
    intro w hw
    rw [mem_pairs, hlook] at hw
    cases hw
  | some v =>
    apply lastOf_eq (mem_pairs.mpr hlook)
    intro w hw
    rw [mem_pairs, hlook] at hw
    exact (Option.some.inj hw).symm

/-- Insertions that change nothing give every key what it had. -/
theorem insertAll_same_iff : (∀ k, (insertAll l m).lookup k = m.lookup k) ↔
    ∀ k v, lastOf k l = some v → m.lookup k = some v := by
  constructor
  · intro h k v hv
    rw [← h k, lookup_insertAll, hv, Option.some_or]
  · intro h k
    rw [lookup_insertAll]
    cases hlast : lastOf k l with
    | none => rfl
    | some v => exact (h k v hlast).symm

end Insertions

end XChain
