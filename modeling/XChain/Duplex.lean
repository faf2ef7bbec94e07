import Mathlib.Data.List.Basic
import Mathlib.Data.Nat.Basic
import Mathlib.Order.Monotone.Defs
import Mathlib.Tactic.SplitIfs

/-!
# Two parties on a duplex channel

A party reads what has arrived, writes, and goes from one stage of its script to the next
one. If never both parties wait, both come to the end of their scripts, in whatever order
they take their turns, as long as each of them takes turns again and again.
-/
namespace XChain

section Turns

variable {ι σ : Type}

/-- The state after some turns. -/
def after (step : ι → σ → σ) (turn : ℕ → ι) (s : σ) : ℕ → σ
  | 0 => s
  | n + 1 => step (turn n) (after step turn s n)

/-- Everyone takes turns again and again. -/
def Fair (turn : ℕ → ι) : Prop := ∀ i n, ∃ m, n ≤ m ∧ turn m = i

/-- A step that changes the state lowers its rank, and unless the rank is zero there is one
that does. -/
structure Progress (step : ι → σ → σ) (inv : ℕ → σ → Prop) : Prop where
  falls : ∀ {k s}, inv k s → ∀ i, step i s = s ∨ ∃ k' < k, inv k' (step i s)
  moves : ∀ {k s}, inv k s → k ≠ 0 → ∃ i, ∃ k' < k, inv k' (step i s)

namespace Progress

variable {step : ι → σ → σ} {inv : ℕ → σ → Prop} (h : Progress step inv) {turn : ℕ → ι} {s : σ}
include h

/-- While the turns go on the state stays as it is or gets a lower rank. -/
theorem later {k n : ℕ} (hn : inv k (after step turn s n)) (d : ℕ) :
    after step turn s (n + d) = after step turn s n ∨
      ∃ k' < k, inv k' (after step turn s (n + d)) := by
  induction d with
  | zero => exact Or.inl rfl
  | succ d ih =>
    rw [← Nat.add_assoc, after]
    rcases ih with hsame | ⟨k', hlt, hk'⟩
    · rw [hsame]
      exact h.falls hn _
    · right
      rcases h.falls hk' (turn (n + d)) with hsame | ⟨k'', hlt', hk''⟩
      · rw [hsame]
        exact ⟨k', hlt, hk'⟩
      · exact ⟨k'', by omega, hk''⟩

/-- In the end the rank is zero, and then nothing changes any more. -/
theorem eventually (hfair : Fair turn) {k n : ℕ} (hn : inv k (after step turn s n)) :
    ∃ m, ∀ m', m ≤ m' → inv 0 (after step turn s m') := by
  induction k using Nat.strongRecOn generalizing n with
  | ind k ih =>
    by_cases hzero : k = 0
    · subst hzero
      refine ⟨n, fun m hle => ?_⟩
      obtain ⟨d, rfl⟩ := Nat.exists_eq_add_of_le hle
      rcases h.later hn d with hsame | ⟨k', hlt, -⟩
      · rw [hsame]
        exact hn
      · exact absurd hlt (Nat.not_lt_zero k')
    · -- the one whose step lowers the rank takes a turn at some time
      obtain ⟨i, k', hlt, hk'⟩ := h.moves hn hzero
      obtain ⟨m, hle, hturn⟩ := hfair i n
      obtain ⟨d, rfl⟩ := Nat.exists_eq_add_of_le hle
      rcases h.later hn d with hsame | ⟨k'', hlt', hk''⟩
      · apply ih k' hlt (n := n + d + 1)
        rw [after, hturn, hsame]
        exact hk'
      · exact ih k'' hlt' hk''

end Progress

end Turns

section Pieces

variable {β : Type} (l : List β)

/-- What stands between two places. -/
def piece (a b : ℕ) : List β := (l.drop a).take (b - a)

theorem length_piece_le (a b : ℕ) : (piece l a b).length ≤ b - a := by
  rw [piece, List.length_take]
  omega

@[simp] theorem piece_self (a : ℕ) : piece l a a = [] := by simp [piece]

theorem piece_append {a b c : ℕ} (hab : a ≤ b) (hbc : b ≤ c) :
    piece l a b ++ piece l b c = piece l a c := by
  have hsum : c - a = b - a + (c - b) := by omega
  have hdrop : l.drop b = (l.drop a).drop (b - a) := by
    rw [List.drop_drop]
    congr 1
    omega
  rw [piece, piece, piece, hsum, List.take_add, hdrop]

end Pieces

variable {α β : Type}

/-- Two parties, and what is on the way to each of them. -/
structure Duplex (α β : Type) where
  left : α
  right : α
  toLeft : List β
  toRight : List β

/-- A step takes some of what has arrived and may write. -/
abbrev PartyStep (α β : Type) := α → List β → α × List β × List β

/-- The turn of the left party if `isLeft`, or else that of the right one. -/
def Duplex.step (step : PartyStep α β) (isLeft : Bool) (w : Duplex α β) : Duplex α β :=
  if isLeft then
    let (left, rest, out) := step w.left w.toLeft
    { w with left := left, toLeft := rest, toRight := w.toRight ++ out }
  else
    let (right, rest, out) := step w.right w.toRight
    { w with right := right, toRight := rest, toLeft := w.toLeft ++ out }

/-- The stages of a party, and how much it has read and written before each. -/
structure Script (α : Type) where
  stage : ℕ → α
  last : ℕ
  took : ℕ → ℕ
  wrote : ℕ → ℕ

/-- The party reads `input`, writes `output`, and waits until all that it needs is there. -/
structure Follows (step : PartyStep α β) (s : Script α) (input output : List β) : Prop where
  took_mono : Monotone s.took
  wrote_mono : Monotone s.wrote
  advance : ∀ i < s.last, ∀ rest,
    step (s.stage i) (piece input (s.took i) (s.took (i + 1)) ++ rest) =
      (s.stage (i + 1), rest, piece output (s.wrote i) (s.wrote (i + 1)))
  waits : ∀ i < s.last, ∀ w, w.length < s.took (i + 1) - s.took i →
    step (s.stage i) w = (s.stage i, w, [])
  ends : ∀ w, step (s.stage s.last) w = (s.stage s.last, w, [])

/-- The left party in stage `i` has what it needs from the right one in stage `j`. -/
def Script.Ready (s t : Script α) (i j : ℕ) : Prop := i < s.last ∧ s.took (i + 1) ≤ t.wrote j

/-- Until both have ended, one of them has what it needs. -/
def Live (s t : Script α) : Prop :=
  ∀ i ≤ s.last, ∀ j ≤ t.last, (i < s.last ∨ j < t.last) → t.took j ≤ s.wrote i →
    s.took i ≤ t.wrote j →
    s.Ready t i j ∨ t.Ready s j i

section Scripts

variable (s t : Script α) (outL outR : List β)

/-- The state when the left party is in stage `i` and the right one in stage `j`. -/
def Duplex.stages (i j : ℕ) : Duplex α β where
  left := s.stage i
  right := t.stage j
  toLeft := piece outR (s.took i) (t.wrote j)
  toRight := piece outL (t.took j) (s.wrote i)

/-- The parties are in some stages. The rank is the number of steps until both have ended. -/
def OnScript (k : ℕ) (w : Duplex α β) : Prop :=
  ∃ i ≤ s.last, ∃ j ≤ t.last, k = (s.last - i) + (t.last - j) ∧ t.took j ≤ s.wrote i ∧
    s.took i ≤ t.wrote j ∧ w = .stages s t outL outR i j

variable {s t outL outR} {step : PartyStep α β}

theorem step_left (hs : Follows step s outR outL) {i j : ℕ} (htook : t.took j ≤ s.wrote i)
    (hready : s.Ready t i j) :
    Duplex.step step true (.stages s t outL outR i j) = .stages s t outL outR (i + 1) j := by
  have hpiece := piece_append outR (hs.took_mono (Nat.le_succ i)) hready.2
  have hadvance := hs.advance i hready.1 (piece outR (s.took (i + 1)) (t.wrote j))
  rw [hpiece] at hadvance
  simp only [Duplex.step, Duplex.stages, if_true, hadvance,
    piece_append outL htook (hs.wrote_mono (Nat.le_succ i))]

theorem step_right (ht : Follows step t outL outR) {i j : ℕ} (htook : s.took i ≤ t.wrote j)
    (hready : t.Ready s j i) :
    Duplex.step step false (.stages s t outL outR i j) = .stages s t outL outR i (j + 1) := by
  have hpiece := piece_append outL (ht.took_mono (Nat.le_succ j)) hready.2
  have hadvance := ht.advance j hready.1 (piece outL (t.took (j + 1)) (s.wrote i))
  rw [hpiece] at hadvance
  simp only [Duplex.step, Duplex.stages, Bool.false_eq_true, if_false, hadvance,
    piece_append outR htook (ht.wrote_mono (Nat.le_succ j))]

/-- A party that has not got what it needs does nothing, nor does one that has ended. -/
theorem Follows.idle {input output : List β} (hs : Follows step s input output) {i j : ℕ}
    (hi : i ≤ s.last) (hready : ¬s.Ready t i j) (htook : s.took i ≤ t.wrote j) (l : List β) :
    step (s.stage i) (piece l (s.took i) (t.wrote j)) =
      (s.stage i, piece l (s.took i) (t.wrote j), []) := by
  rcases Nat.lt_or_ge i s.last with hlt | hge
  · apply hs.waits i hlt
    have hle := length_piece_le l (s.took i) (t.wrote j)
    have hneed : t.wrote j < s.took (i + 1) := by
      by_contra hnot
      exact hready ⟨hlt, by omega⟩
    omega
  · obtain rfl : i = s.last := by omega
    exact hs.ends _

theorem scripts_progress (hs : Follows step s outR outL) (ht : Follows step t outL outR)
    (hlive : Live s t) : Progress (Duplex.step step) (OnScript s t outL outR) := by
  constructor
  · rintro k w ⟨i, hi, j, hj, rfl, htj, hti, rfl⟩ isLeft
    cases isLeft with
    | true =>
      by_cases hready : s.Ready t i j
      · right
        rw [step_left hs htj hready]
        have hlt := hready.1
        refine ⟨_, ?_, i + 1, hlt, j, hj, rfl, ?_, hready.2, rfl⟩
        · omega
        · exact htj.trans (hs.wrote_mono (Nat.le_succ i))
      · left
        have hidle := hs.idle hi hready hti outR
        simp only [Duplex.step, Duplex.stages, if_true, hidle, List.append_nil]
    | false =>
      by_cases hready : t.Ready s j i
      · right
        rw [step_right ht hti hready]
        have hlt := hready.1
        refine ⟨_, ?_, i, hi, j + 1, hlt, rfl, hready.2, ?_, rfl⟩
        · omega
        · exact hti.trans (ht.wrote_mono (Nat.le_succ j))
      · left
        have hidle := ht.idle hj hready htj outL
        simp only [Duplex.step, Duplex.stages, Bool.false_eq_true, if_false, hidle, List.append_nil]
  · rintro k w ⟨i, hi, j, hj, rfl, htj, hti, rfl⟩ hne
    rcases hlive i hi j hj (by omega) htj hti with hready | hready
    · have hlt := hready.1
      refine ⟨true, (s.last - (i + 1)) + (t.last - j), by omega, i + 1, hlt, j, hj, rfl, ?_,
        hready.2, step_left hs htj hready⟩
      exact htj.trans (hs.wrote_mono (Nat.le_succ i))
    · have hlt := hready.1
      refine ⟨false, (s.last - i) + (t.last - (j + 1)), by omega, i, hi, j + 1, hlt, rfl, hready.2,
        ?_, step_right ht hti hready⟩
      exact hti.trans (ht.wrote_mono (Nat.le_succ j))

/-- From the first stages both parties come to their last ones, whoever takes turns first. -/
theorem scripts_end (hs : Follows step s outR outL) (ht : Follows step t outL outR)
    (hlive : Live s t) (hs0 : s.took 0 = 0) (ht0 : t.took 0 = 0) {turn : ℕ → Bool} (hfair : Fair turn) :
    ∃ n, ∀ m, n ≤ m → after (Duplex.step step) turn (.stages s t outL outR 0 0) m =
      .stages s t outL outR s.last t.last := by
  have hstart : OnScript s t outL outR (s.last + t.last) (.stages s t outL outR 0 0) := by
    refine ⟨0, Nat.zero_le _, 0, Nat.zero_le _, by omega, ?_, ?_, rfl⟩
    · rw [ht0]
      exact Nat.zero_le _
    · rw [hs0]
      exact Nat.zero_le _
  have hend : ∃ n, ∀ m, n ≤ m → OnScript s t outL outR 0
      (after (Duplex.step step) turn (.stages s t outL outR 0 0) m) :=
    (scripts_progress hs ht hlive).eventually hfair (n := 0) hstart
  obtain ⟨n, hn⟩ := hend
  refine ⟨n, fun m hle => ?_⟩
  obtain ⟨i, hi, j, hj, hrank, -, -, hm⟩ := hn m hle
  obtain rfl : i = s.last := by omega
  obtain rfl : j = t.last := by omega
  exact hm

end Scripts

end XChain
