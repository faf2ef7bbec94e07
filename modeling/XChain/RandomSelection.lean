import Mathlib.Data.List.Perm.Basic
import Mathlib.Data.Nat.Notation

/-!
# Peers chosen at random

Of the peers that are allowed some are drawn at random, as many as a share of all the peers. The
ones drawn and the ones left over are the allowed ones, whatever the random numbers are.
-/
namespace XChain

namespace EthereumHost

variable {Peer : Type*}

/-- Draws up to `i` of the allowed peers. Every draw has a random number of its own. -/
def draw (rand : ℕ → ℕ) : ℕ → List Peer → List Peer → List Peer × List Peer
  | 0, chosen, allowed => (chosen, allowed)
  | i + 1, chosen, allowed =>
    match allowed[rand i % allowed.length]? with
    | none => (chosen, allowed)
    | some p => draw rand i (chosen ++ [p]) (allowed.eraseIdx (rand i % allowed.length))

/-- The share is of all peers, rounded up. -/
def chosenSize (peerCount percent : ℕ) : ℕ := (peerCount * percent + 99) / 100

/-- The chosen peers and the others of the allowed ones. -/
def randomSelection (rand : ℕ → ℕ) (percent : ℕ) (allow : Peer → Bool) (peers : List Peer) :
    List Peer × List Peer :=
  draw rand (chosenSize peers.length percent) [] (peers.filter allow)

variable {rand : ℕ → ℕ} {i percent : ℕ} {chosen allowed peers : List Peer} {allow : Peer → Bool}

theorem draw_nil : draw rand i chosen [] = (chosen, []) := by
  cases i <;> rfl

theorem draw_succ {n : ℕ} (hn : rand i % allowed.length = n) (hlt : n < allowed.length) :
    draw rand (i + 1) chosen allowed =
      draw rand i (chosen ++ [allowed[n]]) (allowed.eraseIdx n) := by
  rw [draw, hn, List.getElem?_eq_getElem hlt]

/-- A draw takes one of the allowed peers, if there is any. -/
theorem draw_cases (rand : ℕ → ℕ) (i : ℕ) (chosen allowed : List Peer) : allowed = [] ∨
    ∃ p rest, draw rand (i + 1) chosen allowed = draw rand i (chosen ++ [p]) rest ∧
      rest.Sublist allowed ∧ (p :: rest).Perm allowed := by
  by_cases hne : allowed = []
  · exact Or.inl hne
  · have hlt := Nat.mod_lt (rand i) (List.length_pos_of_ne_nil hne)
    exact Or.inr ⟨_, _, draw_succ rfl hlt, List.eraseIdx_sublist ..,
      List.getElem_cons_eraseIdx_perm hlt⟩

theorem draw_perm (rand : ℕ → ℕ) (i : ℕ) (chosen allowed : List Peer) :
    ((draw rand i chosen allowed).1 ++ (draw rand i chosen allowed).2).Perm (chosen ++ allowed) := by
  induction i generalizing chosen allowed with
  | zero => exact List.Perm.refl _
  | succ i ih =>
    rcases draw_cases rand i chosen allowed with rfl | ⟨p, rest, hdraw, -, hperm⟩
    · rw [draw_nil]
    · rw [hdraw]
      refine (ih (chosen ++ [p]) rest).trans ?_
      rw [List.append_assoc, List.singleton_append]
      exact hperm.append_left chosen

theorem length_draw (rand : ℕ → ℕ) (i : ℕ) (chosen allowed : List Peer) :
    (draw rand i chosen allowed).1.length = chosen.length + min i allowed.length := by
  induction i generalizing chosen allowed with
  | zero => rw [Nat.zero_min]; rfl
  | succ i ih =>
    rcases draw_cases rand i chosen allowed with rfl | ⟨p, rest, hdraw, -, hperm⟩
    · rw [draw_nil]
      rfl
    · have hlen := hperm.length_eq
      rw [hdraw, ih, List.length_append]
      rw [List.length_cons] at hlen
      rw [List.length_singleton, ← hlen]
      omega

/-- The ones left over keep their order. -/
theorem draw_sublist (rand : ℕ → ℕ) (i : ℕ) (chosen allowed : List Peer) :
    (draw rand i chosen allowed).2.Sublist allowed := by
  induction i generalizing chosen allowed with
  | zero => exact List.Sublist.refl _
  | succ i ih =>
    rcases draw_cases rand i chosen allowed with rfl | ⟨p, rest, hdraw, hsub, -⟩
    · rw [draw_nil]
    · rw [hdraw]
      exact (ih _ rest).trans hsub

theorem randomSelection_perm (rand : ℕ → ℕ) (percent : ℕ) (allow : Peer → Bool)
    (peers : List Peer) :
    ((randomSelection rand percent allow peers).1 ++
      (randomSelection rand percent allow peers).2).Perm (peers.filter allow) :=
  draw_perm ..

theorem length_randomSelection (rand : ℕ → ℕ) (percent : ℕ) (allow : Peer → Bool)
    (peers : List Peer) : (randomSelection rand percent allow peers).1.length =
      min (chosenSize peers.length percent) (peers.countP allow) := by
  rw [randomSelection, length_draw, List.length_nil, Nat.zero_add, List.countP_eq_length_filter]

/-- Nobody is drawn when the share is nothing. -/
theorem randomSelection_zero (rand : ℕ → ℕ) (allow : Peer → Bool) (peers : List Peer) :
    randomSelection rand 0 allow peers = ([], peers.filter allow) := by
  rw [randomSelection, chosenSize, Nat.mul_zero]
  rfl

end EthereumHost

end XChain
