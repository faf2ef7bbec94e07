import Mathlib.Data.List.Nodup

/-!
# Loops that change an array in place

A loop that visits each position of an array at most once may be read off position by
position; this holds as well where the value on its way to a position is the one that the loop
has just replaced at another.
-/
namespace XChain
namespace InPlace

variable {ι β : Type*} {n : ℕ}

theorem get_set_self (a : Vector β n) (k : Fin n) (v : β) : (a.set k v).get k = v :=
  Vector.getElem_set_self k.isLt

theorem get_set_of_ne (a : Vector β n) {k k' : Fin n} (h : k' ≠ k) (v : β) :
    (a.set k v).get k' = a.get k' :=
  Vector.getElem_set_ne k.isLt k'.isLt fun hval => h (Fin.ext hval.symm)

/-- Changes the positions one after the other, each by itself. -/
def change (pos : ι → Fin n) (f : ι → β → β) (l : List ι) (a : Vector β n) : Vector β n :=
  l.foldl (fun a i => a.set (pos i) (f i (a.get (pos i)))) a

section Change

variable {pos : ι → Fin n} {f : ι → β → β} {l : List ι} {a : Vector β n} {k : Fin n} {i : ι}

theorem change_cons :
    change pos f (i :: l) a = change pos f l (a.set (pos i) (f i (a.get (pos i)))) := rfl

theorem change_of_not_mem (h : ∀ i ∈ l, pos i ≠ k) : (change pos f l a).get k = a.get k := by
  induction l generalizing a with
  | nil => rfl
  | cons i l ih =>
    obtain ⟨hi, hl⟩ := List.forall_mem_cons.mp h
    rw [change_cons, ih hl, get_set_of_ne _ hi.symm]

theorem change_of_mem (hpos : Function.Injective pos) (hl : l.Nodup) (hi : i ∈ l) :
    (change pos f l a).get (pos i) = f i (a.get (pos i)) := by
  induction l generalizing a with
  | nil => cases hi
  | cons j l ih =>
    obtain ⟨hj, hl⟩ := List.nodup_cons.mp hl
    rw [change_cons]
    by_cases heq : i = j
    · subst heq
      have hnot : ∀ i' ∈ l, pos i' ≠ pos i := fun i' hi' h => hj (hpos h ▸ hi')
      rw [change_of_not_mem hnot, get_set_self]
    · have hne : pos i ≠ pos j := fun h => heq (hpos h)
      rw [ih hl ((List.mem_cons.mp hi).resolve_left heq), get_set_of_ne _ hne]

end Change

/-- Carries a value along the positions: each takes what is carried, changed on the way, and gives
what it held to be carried on. -/
def carry (moves : List (Fin n × (β → β))) (t : β) (a : Vector β n) : Vector β n :=
  (moves.foldl (fun (s : β × Vector β n) m => (s.2.get m.1, s.2.set m.1 (m.2 s.1))) (t, a)).2

section Carry

variable {moves : List (Fin n × (β → β))} {t : β} {a : Vector β n} {k : Fin n}

theorem carry_cons (m : Fin n × (β → β)) :
    carry (m :: moves) t a = carry moves (a.get m.1) (a.set m.1 (m.2 t)) := rfl

theorem carry_of_not_mem (h : k ∉ moves.map Prod.fst) : (carry moves t a).get k = a.get k := by
  induction moves generalizing t a with
  | nil => rfl
  | cons m moves ih =>
    rw [List.map_cons, List.mem_cons, not_or] at h
    rw [carry_cons, ih h.2, get_set_of_ne _ h.1]

theorem carry_head (m : Fin n × (β → β)) (h : m.1 ∉ moves.map Prod.fst) :
    (carry (m :: moves) t a).get m.1 = m.2 t := by
  rw [carry_cons, carry_of_not_mem h, get_set_self]

/-- What comes to a position is what the one before it held at first. -/
theorem carry_next (hnodup : (moves.map Prod.fst).Nodup) {i : ℕ} {m m' : Fin n × (β → β)}
    (hm : moves[i]? = some m) (hm' : moves[i + 1]? = some m') :
    (carry moves t a).get m'.1 = m'.2 (a.get m.1) := by
  induction moves generalizing t a i with
  | nil => cases hm
  | cons m₀ moves ih =>
    rw [List.map_cons, List.nodup_cons] at hnodup
    obtain ⟨hm₀, hnodup⟩ := hnodup
    rw [List.getElem?_cons_succ] at hm'
    cases i with
    | zero =>
      obtain rfl : m₀ = m := Option.some.inj hm
      cases moves with
      | nil => cases hm'
      | cons m₁ moves =>
        obtain rfl : m₁ = m' := Option.some.inj hm'
        rw [carry_cons, carry_head m₁ (List.nodup_cons.mp hnodup).1]
    | succ i =>
      rw [List.getElem?_cons_succ] at hm
      have hne : m.1 ≠ m₀.1 := by
        intro heq
        exact hm₀ (heq ▸ List.mem_map_of_mem (List.mem_of_getElem? hm))
      rw [carry_cons, ih hnodup hm hm', get_set_of_ne _ hne]

end Carry

end InPlace

end XChain
