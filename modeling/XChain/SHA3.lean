import XChain.InPlace
import XChain.Keccak
import Mathlib.Data.List.FinRange
import Mathlib.Data.List.ProdSigma

/-!
# The hash function

The state is kept as lanes in one array, and the rounds change it in place, with a few words
aside. Lane by lane this is the permutation of the bits.
-/
namespace XChain
namespace SHA3

open InPlace
open scoped Keccak

abbrev Lanes := Vector (BitVec 64) 25

/-- The lane of a column in a row; a row takes five places of the array. -/
def lane (x y : Fin 5) : Fin 25 := ⟨x.val + 5 * y.val, by omega⟩

def rho : List ℕ :=
  [1, 3, 6, 10, 15, 21, 28, 36, 45, 55, 2, 14, 27, 41, 56, 8, 25, 43, 62, 18, 39, 61, 20, 44]

def pi : List (Fin 25) :=
  [10, 7, 11, 17, 18, 3, 5, 16, 8, 21, 24, 4, 15, 23, 19, 13, 12, 2, 20, 14, 22, 9, 6, 1]

def RC : List (BitVec 64) :=
  [1, 0x8082, 0x800000000000808a, 0x8000000080008000,
    0x808b, 0x80000001, 0x8000000080008081, 0x8000000000008009,
    0x8a, 0x88, 0x80008009, 0x8000000a,
    0x8000808b, 0x800000000000008b, 0x8000000000008089, 0x8000000000008003,
    0x8000000000008002, 0x8000000000000080, 0x800a, 0x800000008000000a,
    0x8000000080008081, 0x8000000000008080, 0x80000001, 0x8000000080008008]

def rol (x : BitVec 64) (s : ℕ) : BitVec 64 := (x <<< s) ||| (x >>> (64 - s))

/-- The first loop of theta leaves the sums of the columns in the five words aside. -/
def columnSums (a : Lanes) : Vector (BitVec 64) 5 :=
  change id (fun x _ => (List.finRange 5).foldl (fun v y => v ^^^ a.get (lane x y)) 0)
    (List.finRange 5) (Vector.replicate 5 0)

def theta (a : Lanes) : Lanes :=
  let b := columnSums a
  change (fun p => lane p.1 p.2) (fun p v => v ^^^ (b.get (p.1 + 4) ^^^ rol (b.get (p.1 + 1)) 1))
    ((List.finRange 5).product (List.finRange 5)) a

/-- The places that the walk comes to, and how it turns what it brings there. -/
def moves : List (Fin 25 × (BitVec 64 → BitVec 64)) :=
  List.zipWith (fun p s => (p, fun t => rol t s)) pi rho

/-- One walk over the lanes turns and moves them. -/
def rhoPi (a : Lanes) : Lanes := carry moves (a.get 1) a

/-- Each row is put aside before it is changed. -/
def chi (a : Lanes) : Lanes :=
  (List.finRange 5).foldl
    (fun a y =>
      let b := change id (fun x _ => a.get (lane x y)) (List.finRange 5) (Vector.replicate 5 0)
      change (fun x => lane x y) (fun x _ => b.get x ^^^ (~~~b.get (x + 1) &&& b.get (x + 2)))
        (List.finRange 5) a)
    a

def round (rc : BitVec 64) (a : Lanes) : Lanes :=
  let a := chi (rhoPi (theta a))
  a.set (lane 0 0) (a.get (lane 0 0) ^^^ rc)

def keccakf (a : Lanes) : Lanes := RC.foldl (fun a rc => round rc a) a

/-- The bits of the lanes. -/
def bits (a : Lanes) : Keccak.State := fun x y z => (a.get (lane x y)).getLsbD z.val

theorem lane_injective : Function.Injective fun p : Fin 5 × Fin 5 => lane p.1 p.2 := by
  rintro ⟨x, y⟩ ⟨x', y'⟩ h
  have hval : x.val + 5 * y.val = x'.val + 5 * y'.val := congrArg Fin.val h
  exact Prod.ext (Fin.ext (by dsimp only; omega)) (Fin.ext (by dsimp only; omega))

theorem lane_row_injective (y : Fin 5) : Function.Injective fun x => lane x y :=
  fun _ _ h => congrArg Prod.fst (@lane_injective (_, y) (_, y) h)

theorem exists_lane (i : Fin 25) : ∃ x y, lane x y = i :=
  ⟨⟨i.val % 5, by omega⟩, ⟨i.val / 5, by omega⟩, Fin.ext (by simp only [lane]; omega)⟩

theorem getLsbD_rol (v : BitVec 64) (s z : Fin 64) (hs : s ≠ 0) :
    (rol v s.val).getLsbD z.val = v.getLsbD (z - s).val := by
  have hpos : 0 < s.val := Nat.pos_of_ne_zero fun h => hs (Fin.ext h)
  rw [rol, BitVec.getLsbD_or, BitVec.getLsbD_shiftLeft, BitVec.getLsbD_ushiftRight, Fin.val_sub]
  by_cases hlt : z.val < s.val
  · have hplace : (64 - s.val + z.val) % 64 = 64 - s.val + z.val := Nat.mod_eq_of_lt (by omega)
    simp [hlt, hplace]
  · have hplace : (64 - s.val + z.val) % 64 = z.val - s.val := by omega
    have hout : v.getLsbD (64 - s.val + z.val) = false := BitVec.getLsbD_of_ge v _ (by omega)
    simp [hlt, hplace, hout]

theorem get_columnSums (a : Lanes) (x : Fin 5) : (columnSums a).get x =
    a.get (lane x 0) ^^^ a.get (lane x 1) ^^^ a.get (lane x 2) ^^^ a.get (lane x 3) ^^^
      a.get (lane x 4) := by
  refine (change_of_mem (i := x) Function.injective_id (List.nodup_finRange 5)
    (List.mem_finRange x)).trans ?_
  show 0#64 ^^^ a.get (lane x 0) ^^^ a.get (lane x 1) ^^^ a.get (lane x 2) ^^^ a.get (lane x 3) ^^^
    a.get (lane x 4) = _
  rw [BitVec.zero_xor]

theorem bits_columnSums (a : Lanes) (x : Fin 5) (z : Fin 64) :
    ((columnSums a).get x).getLsbD z.val = Keccak.column (bits a) x z := by
  rw [get_columnSums]
  simp only [BitVec.getLsbD_xor]
  rfl

theorem get_theta (a : Lanes) (x y : Fin 5) : (theta a).get (lane x y) = a.get (lane x y) ^^^
    ((columnSums a).get (x + 4) ^^^ rol ((columnSums a).get (x + 1)) 1) := by
  have hmem : (x, y) ∈ (List.finRange 5).product (List.finRange 5) :=
    List.mem_product.mpr ⟨List.mem_finRange x, List.mem_finRange y⟩
  unfold theta
  exact change_of_mem (i := (x, y)) lane_injective
    ((List.nodup_finRange 5).product (List.nodup_finRange 5)) hmem

theorem bits_theta (a : Lanes) : bits (theta a) = Keccak.theta (bits a) := by
  funext x y z
  have hfour : ∀ x : Fin 5, x + 4 = x - 1 := by decide
  have hturn := getLsbD_rol ((columnSums a).get (x + 1)) 1 z (by decide)
  rw [show (1 : Fin 64).val = 1 from rfl] at hturn
  unfold bits
  rw [get_theta, BitVec.getLsbD_xor, BitVec.getLsbD_xor, hturn, bits_columnSums, bits_columnSums,
    hfour]
  rfl

/-- Each lane of the walk comes from the lane before it, by the turn that is due there. -/
theorem walk_table : ∀ x y : Fin 5, (x, y) ≠ (0, 0) →
    (lane x y = 10 ∧ lane (x + 3 * y) x = 1 ∧ Keccak.offset (x + 3 * y) x = 1) ∨
    ∃ i : Fin 23, pi[i.val]? = some (lane (x + 3 * y) x) ∧ pi[i.val + 1]? = some (lane x y) ∧
      rho[i.val + 1]? = some (Keccak.offset (x + 3 * y) x).val ∧
      Keccak.offset (x + 3 * y) x ≠ 0 := by
  decide

theorem map_fst_moves : moves.map Prod.fst = pi := rfl

theorem moves_getElem? {i : ℕ} {p : Fin 25} {s : ℕ} (hp : pi[i]? = some p) (hs : rho[i]? = some s) :
    moves[i]? = some (p, fun t => rol t s) :=
  List.getElem?_zipWith_eq_some.mpr ⟨p, s, hp, hs, rfl⟩

theorem get_rhoPi (a : Lanes) {x y : Fin 5} (hxy : (x, y) ≠ (0, 0)) :
    (rhoPi a).get (lane x y) =
        rol (a.get (lane (x + 3 * y) x)) (Keccak.offset (x + 3 * y) x).val ∧
      Keccak.offset (x + 3 * y) x ≠ 0 := by
  have hnodup : (moves.map Prod.fst).Nodup := by
    rw [map_fst_moves]
    decide
  rcases walk_table x y hxy with ⟨hto, hfrom, hturn⟩ | ⟨i, hfrom, hto, hturn, hne⟩
  · rw [hto, hfrom, hturn]
    refine ⟨?_, by decide⟩
    unfold rhoPi
    have hhead : (10 : Fin 25) ∉ moves.tail.map Prod.fst := (List.nodup_cons.mp hnodup).1
    exact carry_head (10, fun t => rol t 1) hhead
  · refine ⟨?_, hne⟩
    obtain ⟨s, hs⟩ : ∃ s, rho[i.val]? = some s :=
      ⟨_, List.getElem?_eq_getElem (Nat.lt_trans i.isLt (by decide))⟩
    have hnext := carry_next (t := a.get 1) (a := a) hnodup (moves_getElem? hfrom hs)
      (moves_getElem? hto hturn)
    exact hnext

theorem bits_rhoPi (a : Lanes) : bits (rhoPi a) = Keccak.pi (Keccak.rho (bits a)) := by
  funext x y z
  unfold Keccak.pi Keccak.rho bits
  by_cases hxy : (x, y) = (0, 0)
  · obtain ⟨rfl, rfl⟩ := Prod.mk.inj hxy
    have hzero : (rhoPi a).get (lane 0 0) = a.get (lane 0 0) := by
      unfold rhoPi
      apply carry_of_not_mem
      rw [map_fst_moves]
      decide
    rw [hzero]
    have hoff : Keccak.offset (0 + 3 * 0) 0 = 0 := by decide
    rw [hoff]
    simp
  · obtain ⟨hlane, hne⟩ := get_rhoPi a hxy
    rw [hlane, getLsbD_rol _ _ _ hne]

theorem RC_table : ∀ i : Fin 24, ∀ z : Fin 64,
    (RC.getD i.val 0).getLsbD z.val = Keccak.constant i.val z := by
  decide +kernel

/-- What one pass of chi makes of the lanes of a row. -/
def chiRow (y : Fin 5) (a : Lanes) : Lanes :=
  let b := change id (fun x _ => a.get (lane x y)) (List.finRange 5) (Vector.replicate 5 0)
  change (fun x => lane x y) (fun x _ => b.get x ^^^ (~~~b.get (x + 1) &&& b.get (x + 2)))
    (List.finRange 5) a

theorem chi_eq (a : Lanes) : chi a = (List.finRange 5).foldl (fun a y => chiRow y a) a := rfl

theorem get_chiRow_self (a : Lanes) (x y : Fin 5) : (chiRow y a).get (lane x y) =
    a.get (lane x y) ^^^ (~~~a.get (lane (x + 1) y) &&& a.get (lane (x + 2) y)) := by
  have hb (x : Fin 5) : (change id (fun x _ => a.get (lane x y)) (List.finRange 5)
      (Vector.replicate 5 0)).get x = a.get (lane x y) :=
    change_of_mem (i := x) Function.injective_id (List.nodup_finRange 5) (List.mem_finRange x)
  rw [chiRow, change_of_mem (lane_row_injective y) (List.nodup_finRange 5) (List.mem_finRange x),
    hb, hb, hb]

theorem get_chiRow_of_ne (a : Lanes) {x y y' : Fin 5} (h : y' ≠ y) :
    (chiRow y a).get (lane x y') = a.get (lane x y') := by
  unfold chiRow
  refine change_of_not_mem fun x' _ heq => ?_
  exact h (congrArg Prod.snd (@lane_injective (x', y) (x, y') heq)).symm

theorem get_foldl_chiRow (l : List (Fin 5)) (hl : l.Nodup) (a : Lanes) (x y : Fin 5) :
    (l.foldl (fun a y => chiRow y a) a).get (lane x y) =
      if y ∈ l then a.get (lane x y) ^^^ (~~~a.get (lane (x + 1) y) &&& a.get (lane (x + 2) y))
      else a.get (lane x y) := by
  induction l generalizing a with
  | nil => rfl
  | cons y' l ih =>
    obtain ⟨hy', hl⟩ := List.nodup_cons.mp hl
    rw [List.foldl_cons, ih hl]
    by_cases heq : y = y'
    · subst heq
      rw [if_neg hy', if_pos List.mem_cons_self, get_chiRow_self]
    · simp only [List.mem_cons, heq, false_or, get_chiRow_of_ne a heq]

theorem bits_chi (a : Lanes) : bits (chi a) = Keccak.chi (bits a) := by
  funext x y z
  unfold bits
  rw [chi_eq, get_foldl_chiRow _ (List.nodup_finRange 5), if_pos (List.mem_finRange y),
    BitVec.getLsbD_xor, BitVec.getLsbD_and, BitVec.getLsbD_not, decide_eq_true z.isLt,
    Bool.true_and]
  rfl

theorem bits_round (i : Fin 24) (a : Lanes) :
    bits (round (RC.getD i.val 0) a) = Keccak.round i.val (bits a) := by
  have hbits : bits (chi (rhoPi (theta a))) =
      Keccak.chi (Keccak.pi (Keccak.rho (Keccak.theta (bits a)))) := by
    rw [bits_chi, bits_rhoPi, bits_theta]
  funext x y z
  rw [Keccak.round, ← hbits, Keccak.iota]
  unfold round bits
  dsimp only
  by_cases hxy : (x, y) = (0, 0)
  · obtain ⟨rfl, rfl⟩ := Prod.mk.inj hxy
    rw [get_set_self, BitVec.getLsbD_xor, RC_table]
    rfl
  · have hne : lane x y ≠ lane 0 0 := fun h => hxy (@lane_injective (x, y) (0, 0) h)
    have hand : (decide (x = 0) && decide (y = 0)) = false := by
      rw [← Bool.decide_and]
      exact decide_eq_false fun h => hxy (Prod.ext h.1 h.2)
    rw [get_set_of_ne _ hne, hand, Bool.false_and, Bool.xor_false]

/-- The rounds on the array of lanes are those on the bits. -/
theorem bits_keccakf (a : Lanes) : bits (keccakf a) = Keccak.permutation (bits a) := by
  have hfold (l : List (Fin 24)) : bits ((l.map fun i => RC.getD i.val 0).foldl
      (fun a rc => round rc a) a) = (l.map Fin.val).foldl (fun A i => Keccak.round i A) (bits a) := by
    induction l using List.reverseRecOn with
    | nil => rfl
    | append_singleton l i ih =>
      rw [List.map_append, List.map_append, List.foldl_append, List.foldl_append]
      exact (bits_round i _).trans (congrArg _ ih)
  exact hfold (List.finRange 24)

theorem bits_injective : Function.Injective bits := by
  intro a b h
  refine Vector.ext fun i hi => ?_
  obtain ⟨x, y, hxy⟩ := exists_lane ⟨i, hi⟩
  show a.get ⟨i, hi⟩ = b.get ⟨i, hi⟩
  rw [← hxy]
  apply BitVec.eq_of_getLsbD_eq
  intro z hz
  exact congrFun (congrFun (congrFun h x) y) ⟨z, hz⟩

instance : Finite Lanes := Finite.of_injective bits bits_injective

/-- The code's rounds permute the arrays of lanes. -/
theorem keccakf_bijective : Function.Bijective keccakf := by
  have hinj : Function.Injective keccakf := by
    intro a b h
    apply bits_injective
    apply Keccak.permutation_bijective.injective
    rw [← bits_keccakf, ← bits_keccakf, h]
  exact Finite.injective_iff_bijective.mp hinj

end SHA3

end XChain
