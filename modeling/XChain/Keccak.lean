import Mathlib.Algebra.Group.Fin.Basic
import Mathlib.Algebra.Ring.Nat
import Mathlib.Data.Fintype.EquivFin
import Mathlib.Data.Fintype.Pi
import Mathlib.Tactic.FinCases

/-!
# The permutation of 1600 bits

A state has five times five lanes of 64 bits. A round mixes the columns, turns the lanes,
moves them, combines the bits of each row, and adds a constant of its own. Each of these
steps can be taken back, so that the rounds permute the states.
-/
namespace XChain
namespace Keccak

/-- Columns and rows are counted modulo five. -/
scoped instance neZero_five : NeZero 5 := ⟨by decide⟩

/-- The bit at a column, a row and a place of the lane. -/
abbrev State := Fin 5 → Fin 5 → Fin 64 → Bool

/-- The sum of a column's bits. -/
def column (A : State) (x : Fin 5) (z : Fin 64) : Bool :=
  A x 0 z ^^ A x 1 z ^^ A x 2 z ^^ A x 3 z ^^ A x 4 z

/-- Adds the sums of two neighbouring columns to each bit. -/
def theta (A : State) : State :=
  fun x y z => A x y z ^^ (column A (x - 1) z ^^ column A (x + 1) (z - 1))

/-- The walk over all lanes but the first one. -/
def walk : ℕ → Fin 5 × Fin 5
  | 0 => (1, 0)
  | t + 1 => ((walk t).2, 2 * (walk t).1 + 3 * (walk t).2)

/-- How far a lane is turned: the triangular number of its place in the walk. -/
def offset (x y : Fin 5) : Fin 64 :=
  match (List.range 24).find? fun t => walk t = (x, y) with
  | some t => Fin.ofNat 64 ((t + 1) * (t + 2) / 2)
  | none => 0

/-- Turns the lanes. -/
def rho (A : State) : State := fun x y z => A x y (z - offset x y)

/-- Moves the lanes. -/
def pi (A : State) : State := fun x y z => A (x + 3 * y) x z

/-- Combines each bit with the next two of its row. -/
def chi (A : State) : State := fun x y z => A x y z ^^ (!A (x + 1) y z && A (x + 2) y z)

/-- The shift register: multiplication by the unknown, modulo a polynomial of degree eight. -/
def register : ℕ → BitVec 8
  | 0 => 1
  | t + 1 => (register t <<< 1) ^^^ (if (register t).msb then 0x71 else 0)

/-- The bits of a round's constant stand at the places one below a power of two. -/
def constant (i : ℕ) (z : Fin 64) : Bool :=
  (List.range 7).any fun j => z.val = 2 ^ j - 1 && (register (j + 7 * i)).getLsbD 0

/-- Adds the constant to the first lane. -/
def iota (i : ℕ) (A : State) : State := fun x y z => A x y z ^^ (x = 0 && y = 0 && constant i z)

def round (i : ℕ) (A : State) : State := iota i (chi (pi (rho (theta A))))

/-- All 24 rounds. -/
def permutation (A : State) : State := (List.range 24).foldl (fun A i => round i A) A

/-- The bits of a string: lane after lane, in each byte and of the bytes the lowest first. -/
def ofBytes (m : List UInt8) : State :=
  fun x y z => (m.getD (8 * (x.val + 5 * y.val) + z.val / 8) 0).toNat.testBit (z.val % 8)

def toBytes (A : State) : List UInt8 :=
  List.ofFn fun k : Fin 200 => UInt8.ofNat <| Nat.ofBits fun j : Fin 8 =>
    A ⟨k.val / 8 % 5, by omega⟩ ⟨k.val / 40, by omega⟩ ⟨8 * (k.val % 8) + j.val, by omega⟩

/-- A map of states as one of strings. -/
def onBytes (f : State → State) (m : List UInt8) : List UInt8 := toBytes (f (ofBytes m))

/-! ### Taking the steps back -/

section Columns

variable {Q : Fin 5 → Fin 64 → Bool}

/-- If each bit is the sum of two others at fixed distances, it also is at twice the distances. -/
theorem eq_double {a b : Fin 5} {c : Fin 64}
    (h : ∀ x z, Q x z = (Q (x - a) z ^^ Q (x - b) (z - c))) (x : Fin 5) (z : Fin 64) :
    Q x z = (Q (x - (a + a)) z ^^ Q (x - (b + b)) (z - (c + c))) := by
  rw [h x z, h (x - a) z, h (x - b) (z - c)]
  simp only [sub_sub, add_comm b a]
  generalize Q (x - (a + a)) z = p
  generalize Q (x - (a + b)) (z - c) = q
  generalize Q (x - (b + b)) (z - (c + c)) = r
  revert p q r
  decide

/-- Six times doubled, the distance along the lane is a whole turn. -/
theorem eq_sixtyfour (h : ∀ x z, Q x z = (Q (x - 1) z ^^ Q (x - 4) (z - 1))) (x : Fin 5)
    (z : Fin 64) : Q x z = (Q (x - 4) z ^^ Q (x - 1) z) := by
  have h2 : ∀ x z, Q x z = (Q (x - 2) z ^^ Q (x - 3) (z - 2)) := eq_double h
  have h4 : ∀ x z, Q x z = (Q (x - 4) z ^^ Q (x - 1) (z - 4)) := eq_double h2
  have h8 : ∀ x z, Q x z = (Q (x - 3) z ^^ Q (x - 2) (z - 8)) := eq_double h4
  have h16 : ∀ x z, Q x z = (Q (x - 1) z ^^ Q (x - 4) (z - 16)) := eq_double h8
  have h32 : ∀ x z, Q x z = (Q (x - 2) z ^^ Q (x - 3) (z - 32)) := eq_double h16
  have h64 : ∀ x z, Q x z = (Q (x - 4) z ^^ Q (x - 1) (z - 0)) := eq_double h32
  rw [h64 x z, sub_zero]

theorem eq_false_of_row {q : Fin 5 → Bool} (h : ∀ x, q x = (q (x - 4) ^^ q (x - 1))) (x : Fin 5) :
    q x = false := by
  have h0 : q 0 = (q 1 ^^ q 4) := h 0
  have h1 : q 1 = (q 2 ^^ q 0) := h 1
  have h2 : q 2 = (q 3 ^^ q 1) := h 2
  have h3 : q 3 = (q 4 ^^ q 2) := h 3
  have h4 : q 4 = (q 0 ^^ q 3) := h 4
  have hrow : ∀ b0 b1 b2 b3 b4 : Bool, b0 = (b1 ^^ b4) → b1 = (b2 ^^ b0) → b2 = (b3 ^^ b1) →
      b3 = (b4 ^^ b2) → b4 = (b0 ^^ b3) →
      b0 = false ∧ b1 = false ∧ b2 = false ∧ b3 = false ∧ b4 = false := by decide
  obtain ⟨e0, e1, e2, e3, e4⟩ := hrow _ _ _ _ _ h0 h1 h2 h3 h4
  fin_cases x
  exacts [e0, e1, e2, e3, e4]

end Columns

/-- The difference of two states with the same image is the same in each row, so that it is the
sum of its own columns, and that is zero. -/
theorem theta_injective : Function.Injective theta := by
  intro A B h
  let D : State := fun x y z => A x y z ^^ B x y z
  have hcolumn (x z) : column D x z = (column A x z ^^ column B x z) := by
    simp only [column, D]
    generalize A x 0 z = a0, A x 1 z = a1, A x 2 z = a2, A x 3 z = a3, A x 4 z = a4
    generalize B x 0 z = b0, B x 1 z = b1, B x 2 z = b2, B x 3 z = b3, B x 4 z = b4
    revert a0 a1 a2 a3 a4 b0 b1 b2 b3 b4
    decide
  have hD (x y z) : D x y z = (column D (x - 1) z ^^ column D (x + 1) (z - 1)) := by
    have hxyz : theta A x y z = theta B x y z := by rw [h]
    rw [hcolumn, hcolumn]
    simp only [theta, D] at hxyz ⊢
    revert hxyz
    generalize A x y z = a
    generalize B x y z = b
    generalize column A (x - 1) z = p
    generalize column B (x - 1) z = q
    generalize column A (x + 1) (z - 1) = r
    generalize column B (x + 1) (z - 1) = t
    revert a b p q r t
    decide
  have hQ (x z) : column D x z = (column D (x - 1) z ^^ column D (x - 4) (z - 1)) := by
    have hfour : x - 4 = x + 1 := by revert x; decide
    rw [hfour]
    conv_lhs => rw [column, hD x 0 z, hD x 1 z, hD x 2 z, hD x 3 z, hD x 4 z]
    generalize column D (x - 1) z = p
    generalize column D (x + 1) (z - 1) = q
    revert p q
    decide
  have hzero (x z) : column D x z = false :=
    eq_false_of_row (q := fun x => column D x z) (fun x => eq_sixtyfour hQ x z) x
  funext x y z
  have hxyz := hD x y z
  rw [hzero, hzero] at hxyz
  simpa [D] using hxyz

theorem rho_injective : Function.Injective rho := by
  intro A B h
  funext x y z
  have hz := congrFun (congrFun (congrFun h x) y) (z + offset x y)
  simpa [rho] using hz

theorem pi_injective : Function.Injective pi := by
  intro A B h
  funext x y z
  have hx := congrFun (congrFun (congrFun h y) (2 * (x - y))) z
  have hback : ∀ x y : Fin 5, y + 3 * (2 * (x - y)) = x := by decide
  simpa [pi, hback] using hx

/-- What a row was before the bits were combined. -/
def unchi (q : Fin 5 → Bool) (x : Fin 5) : Bool :=
  q x ^^ (!q (x + 1) && (q (x + 2) ^^ (!q (x + 3) && q (x + 4))))

theorem unchi_chi (A : State) (x y : Fin 5) (z : Fin 64) :
    unchi (fun x => chi A x y z) x = A x y z := by
  have hsum : x + 1 + 1 = x + 2 ∧ x + 1 + 2 = x + 3 ∧ x + 2 + 1 = x + 3 ∧ x + 2 + 2 = x + 4 ∧
      x + 3 + 1 = x + 4 ∧ x + 3 + 2 = x ∧ x + 4 + 1 = x ∧ x + 4 + 2 = x + 1 := by
    revert x
    decide
  obtain ⟨h11, h12, h21, h22, h31, h32, h41, h42⟩ := hsum
  simp only [unchi, chi, h11, h12, h21, h22, h31, h32, h41, h42]
  generalize A x y z = a0
  generalize A (x + 1) y z = a1
  generalize A (x + 2) y z = a2
  generalize A (x + 3) y z = a3
  generalize A (x + 4) y z = a4
  revert a0 a1 a2 a3 a4
  decide

theorem chi_injective : Function.Injective chi := by
  intro A B h
  funext x y z
  rw [← unchi_chi A x y z, ← unchi_chi B x y z, h]

theorem iota_injective (i : ℕ) : Function.Injective (iota i) := by
  intro A B h
  funext x y z
  have hxyz := congrFun (congrFun (congrFun h x) y) z
  simpa [iota] using hxyz

theorem round_injective (i : ℕ) : Function.Injective (round i) :=
  (iota_injective i).comp (chi_injective.comp (pi_injective.comp
    (rho_injective.comp theta_injective)))

/-- The rounds permute the states. -/
theorem permutation_bijective : Function.Bijective permutation := by
  rw [Finite.injective_iff_bijective.symm]
  have hfold (l : List ℕ) : Function.Injective fun A : State => l.foldl (fun A i => round i A) A := by
    induction l with
    | nil => exact Function.injective_id
    | cons i l ih => exact ih.comp (round_injective i)
  exact hfold _

end Keccak

end XChain
