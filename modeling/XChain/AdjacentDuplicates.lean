import Mathlib.Data.List.Destutter

/-!
# Adjacent duplicates

To drop the duplicates that follow each other is to drop all duplicates exactly where equal
elements stand together.
-/
namespace XChain

variable {α : Type*} {a b : α} {l : List α}

/-- Between two equal elements there is no other one. -/
def Together (l : List α) : Prop :=
  ∀ pre n mid post, l = pre ++ n :: (mid ++ n :: post) → ∀ m ∈ mid, m = n

theorem together_nil : Together ([] : List α) := by
  intro pre n mid post h
  simp at h

theorem Together.tail (h : Together (a :: l)) : Together l := by
  intro pre n mid post hl
  exact h (a :: pre) n mid post (by rw [hl, List.cons_append])

/-- An element in front matters only to those that are equal to it. -/
theorem together_cons : Together (a :: l) ↔
    (∀ mid post, l = mid ++ a :: post → ∀ m ∈ mid, m = a) ∧ Together l := by
  constructor
  · intro h
    exact ⟨fun mid post hl => h [] a mid post (by rw [hl, List.nil_append]), h.tail⟩
  · rintro ⟨hfirst, hrest⟩ pre n mid post hl
    cases pre with
    | nil =>
      obtain ⟨rfl, htail⟩ := List.cons.inj hl
      exact hfirst mid post htail
    | cons c pre =>
      obtain ⟨-, htail⟩ := List.cons.inj hl
      exact hrest pre n mid post htail

theorem together_cons_self : Together (a :: a :: l) ↔ Together (a :: l) := by
  refine ⟨Together.tail, fun h => together_cons.mpr ⟨fun mid post hl => ?_, h⟩⟩
  cases mid with
  | nil => simp
  | cons m mid =>
    obtain ⟨rfl, htail⟩ := List.cons.inj hl
    have hmid := (together_cons.mp h).1 mid post htail
    simpa using hmid

theorem together_cons_ne (hne : a ≠ b) :
    Together (a :: b :: l) ↔ a ∉ l ∧ Together (b :: l) := by
  rw [together_cons]
  refine and_congr_left fun _ => ⟨fun h hmem => ?_, fun hout mid post hl => ?_⟩
  · obtain ⟨mid, post, rfl⟩ := List.append_of_mem hmem
    have hb := h (b :: mid) post rfl b (by simp)
    exact hne hb.symm
  · have hmem : a ∈ b :: l := by simp [hl]
    exact absurd ((List.mem_cons.mp hmem).resolve_left hne) hout

section Destutter

variable [DecidableEq α]

theorem mem_destutter_ne : a ∈ l.destutter (· ≠ ·) ↔ a ∈ l := by
  refine ⟨fun h => (List.destutter_sublist _ l).subset h, fun h => ?_⟩
  induction l with
  | nil => cases h
  | cons b l ih =>
    cases l with
    | nil => simpa using h
    | cons c l =>
      rw [List.destutter_cons_cons]
      by_cases hbc : b = c
      · rw [if_neg (not_not.mpr hbc), hbc]
        rw [hbc] at h
        rcases List.mem_cons.mp h with rfl | h
        · exact ih List.mem_cons_self
        · exact ih h
      · rw [if_pos hbc]
        rcases List.mem_cons.mp h with rfl | h
        · exact List.mem_cons_self
        · exact List.mem_cons_of_mem b (ih h)

theorem filter_ne_of_notMem (h : a ∉ l) : l.filter (fun c => !c == a) = l := by
  apply List.filter_eq_self.mpr
  intro c hc
  simpa using fun hca : c = a => h (hca ▸ hc)

/-- The first of each run of equal elements is the first of all equal elements. -/
theorem destutter_eq_eraseDups_iff : l.destutter (· ≠ ·) = l.eraseDups ↔ Together l := by
  induction l with
  | nil => simp [together_nil]
  | cons a l ih =>
    cases l with
    | nil => simp [together_cons, together_nil, List.eraseDups_cons]
    | cons b l =>
      by_cases hab : a = b
      · have hsame : (b :: b :: l).eraseDups = (b :: l).eraseDups := by
          simp [List.eraseDups_cons]
        rw [hab, together_cons_self, ← ih, hsame]
        simp [List.destutter_cons']
      · have hfirst : (a :: b :: l).destutter (· ≠ ·) = a :: (b :: l).destutter (· ≠ ·) := by
          rw [List.destutter_cons_cons, if_pos hab, List.destutter_cons']
        rw [together_cons_ne hab, hfirst, List.eraseDups_cons, List.cons.injEq]
        constructor
        · rintro ⟨-, h⟩
          -- What is left has no second `a`, and so there was none.
          have hout : a ∉ b :: l := by
            rw [← mem_destutter_ne, h]
            simp
          rw [filter_ne_of_notMem hout] at h
          exact ⟨fun hmem => hout (List.mem_cons_of_mem b hmem), ih.mp h⟩
        · rintro ⟨hout, h⟩
          have hout' : a ∉ b :: l := fun hmem =>
            hout ((List.mem_cons.mp hmem).resolve_left hab)
          rw [filter_ne_of_notMem hout']
          exact ⟨rfl, ih.mpr h⟩

end Destutter

end XChain
