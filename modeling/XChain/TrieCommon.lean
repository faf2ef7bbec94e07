import Mathlib.Data.Fin.Basic
import Mathlib.Data.List.Basic
import Mathlib.Data.List.Infix
import Mathlib.Data.List.Lex
import XChain.Patricia
import XChain.Rlp

/-!
# Nibbles and the hex prefix encoding

Keys are walked four bits at a time. The label of a two-item node is packed into
bytes behind a flag nibble that tells its parity and whether the node is a leaf.
Every encoder of the source packs the nibbles of its range, and the packed label
is read back as these nibbles.
-/
namespace XChain

abbrev Nibble := Fin 16

def hiNibble (b : UInt8) : Nibble := Fin.ofNat 16 (b >>> 4).toNat

def loNibble (b : UInt8) : Nibble := Fin.ofNat 16 (b &&& 15).toNat

def Nibble.byte (n : Nibble) : UInt8 := UInt8.ofNat n.val

/-- The nibble at an index, absent behind the end of the data. -/
def nibble (data : Bytes) (i : ℕ) : Option Nibble :=
  data[i / 2]?.map fun b => if i % 2 = 1 then loNibble b else hiNibble b

def asNibbles (data : Bytes) : List Nibble := data.flatMap fun b => [hiNibble b, loNibble b]

@[simp] theorem asNibbles_nil : asNibbles [] = [] := rfl

@[simp] theorem asNibbles_cons (b : UInt8) (data : Bytes) :
    asNibbles (b :: data) = hiNibble b :: loNibble b :: asNibbles data := rfl

@[simp] theorem length_asNibbles (data : Bytes) : (asNibbles data).length = data.length * 2 := by
  induction data with
  | nil => rfl
  | cons b data ih =>
    simp only [asNibbles_cons, List.length_cons, ih]
    omega

theorem nibble_eq (data : Bytes) (i : ℕ) : nibble data i = (asNibbles data)[i]? := by
  induction data generalizing i with
  | nil => rfl
  | cons b data ih =>
    match i with
    | 0 => rfl
    | 1 => rfl
    | i + 2 =>
      have hdiv : (i + 2) / 2 = i / 2 + 1 := by omega
      have hmod : (i + 2) % 2 = i % 2 := by omega
      have h := ih i
      unfold nibble at h ⊢
      simpa [hdiv, hmod] using h

/-- A byte is its two nibbles. -/
lemma nibbles_byte (b : UInt8) : (hiNibble b).byte * 16 + (loNibble b).byte = b := by
  have hb := b.toNat_lt
  have hhi : (b >>> 4).toNat = b.toNat / 16 := by
    rw [UInt8.toNat_shiftRight, Nat.shiftRight_eq_div_pow]
    rfl
  have hlo : (b &&& 15).toNat = b.toNat % 16 := by
    rw [UInt8.toNat_and]
    exact Nat.and_two_pow_sub_one_eq_mod b.toNat 4
  apply UInt8.toNat_inj.mp
  simp only [Nibble.byte, hiNibble, loNibble, Fin.val_ofNat, hhi, hlo, UInt8.toNat_add,
    UInt8.toNat_mul, UInt8.toNat_ofNat', UInt8.reduceToNat]
  omega

theorem asNibbles_injective : Function.Injective asNibbles := by
  intro x y h
  induction x generalizing y with
  | nil =>
    cases y with
    | nil => rfl
    | cons c y => simp at h
  | cons b x ih =>
    cases y with
    | nil => simp at h
    | cons c y =>
      simp only [asNibbles_cons, List.cons.injEq] at h
      obtain ⟨hhi, hlo, hrest⟩ := h
      rw [ih hrest, ← nibbles_byte b, hhi, hlo, nibbles_byte c]

theorem asNibbles_append (x y : Bytes) : asNibbles (x ++ y) = asNibbles x ++ asNibbles y := by
  simp [asNibbles]

/-- Byte strings begin alike exactly as their nibbles do. -/
theorem asNibbles_prefix_iff {x y : Bytes} : asNibbles x <+: asNibbles y ↔ x <+: y := by
  constructor
  · rintro h
    have hlen : x.length ≤ y.length := by
      have := h.length_le
      simp only [length_asNibbles] at this
      omega
    have htake : asNibbles x = asNibbles (y.take x.length) := by
      have hx := List.prefix_iff_eq_take.mp h
      rw [length_asNibbles] at hx
      have hy : asNibbles y = asNibbles (y.take x.length) ++ asNibbles (y.drop x.length) := by
        rw [← asNibbles_append, List.take_append_drop]
      rw [hx, hy, List.take_append_of_le_length (by simp [hlen]), List.take_of_length_le]
      simp [hlen]
    rw [asNibbles_injective htake]
    exact List.take_prefix _ _
  · rintro ⟨z, rfl⟩
    rw [asNibbles_append]
    exact List.prefix_append _ _

lemma byte_lt_iff (b c : UInt8) : b < c ↔
    hiNibble b < hiNibble c ∨ hiNibble b = hiNibble c ∧ loNibble b < loNibble c := by
  have hval (b : UInt8) : b.toNat = (hiNibble b).val * 16 + (loNibble b).val := by
    have h := congrArg UInt8.toNat (nibbles_byte b)
    have hhi := (hiNibble b).isLt
    have hlo := (loNibble b).isLt
    simp only [Nibble.byte, UInt8.toNat_add, UInt8.toNat_mul, UInt8.toNat_ofNat',
      UInt8.reduceToNat] at h
    omega
  have hb := (loNibble b).isLt
  have hc := (loNibble c).isLt
  rw [UInt8.lt_iff_toNat_lt, hval b, hval c, Fin.lt_def, Fin.lt_def, Fin.ext_iff]
  omega

/-- Byte strings are ordered as their nibbles are. -/
theorem asNibbles_lt_iff {x y : Bytes} : asNibbles x < asNibbles y ↔ x < y := by
  induction x generalizing y with
  | nil => cases y <;> simp
  | cons b x ih =>
    cases y with
    | nil => simp
    | cons c y =>
      have heq : hiNibble b = hiNibble c ∧ loNibble b = loNibble c ↔ b = c := by
        constructor
        · rintro ⟨hhi, hlo⟩
          rw [← nibbles_byte b, hhi, hlo, nibbles_byte c]
        · rintro rfl
          exact ⟨rfl, rfl⟩
      rw [asNibbles_cons, asNibbles_cons, List.cons_lt_cons_iff, List.cons_lt_cons_iff,
        List.cons_lt_cons_iff, ih, byte_lt_iff, ← heq]
      tauto

/-- The loop over two half-open ranges of nibbles, at most `fuel` steps. -/
def sharedNibblesLoop : ℕ → Bytes → ℕ → ℕ → Bytes → ℕ → ℕ → ℕ
  | 0, _, _, _, _, _, _ => 0
  | fuel + 1, first, beginFirst, endFirst, second, beginSecond, endSecond =>
    if beginFirst < endFirst ∧ beginSecond < endSecond ∧
        nibble first beginFirst = nibble second beginSecond then
      sharedNibblesLoop fuel first (beginFirst + 1) endFirst second (beginSecond + 1) endSecond + 1
    else 0

def sharedNibbles (first : Bytes) (beginFirst endFirst : ℕ) (second : Bytes)
    (beginSecond endSecond : ℕ) : ℕ :=
  sharedNibblesLoop (endFirst - beginFirst) first beginFirst endFirst second beginSecond endSecond

/-- A view of the nibbles of `data` from `offset` on. -/
structure NibbleSlice where
  data : Bytes
  offset : ℕ

namespace NibbleSlice

/-- The nibble at an index, absent out of bounds. -/
def at? (s : NibbleSlice) (i : ℕ) : Option Nibble := nibble s.data (s.offset + i)

def size (s : NibbleSlice) : ℕ := s.data.length * 2 - s.offset

def mid (s : NibbleSlice) (i : ℕ) : NibbleSlice := ⟨s.data, s.offset + i⟩

def shared (s k : NibbleSlice) : ℕ :=
  sharedNibbles s.data s.offset (s.offset + s.size) k.data k.offset (k.offset + k.size)

/-- Whether `k` is a prefix of `s`. -/
def contains (s k : NibbleSlice) : Bool := s.shared k == k.size

instance : BEq NibbleSlice := ⟨fun s k => k.size == s.size && s.shared k == k.size⟩

/-- A slice of nothing. -/
def clear : NibbleSlice := ⟨[], 0⟩

def empty (s : NibbleSlice) : Bool := s.size == 0

/-- The loop of `isEarlierThan` from nibble `i` on, at most `fuel` steps. A nibble is
absent behind the end of its slice, and there the loop ends. -/
def isEarlierThanLoop (s k : NibbleSlice) : ℕ → ℕ → Bool
  | 0, i => decide (i < k.size)
  | fuel + 1, i =>
    match s.at? i, k.at? i with
    | some a, some b =>
      if a < b then true
      else if b < a then false
      else isEarlierThanLoop s k fuel (i + 1)
    | _, _ => decide (i < k.size)

/-- Whether `s` comes before everything that begins with `k`. -/
def isEarlierThan (s k : NibbleSlice) : Bool := isEarlierThanLoop s k k.size 0

/-- The view starts inside its data. -/
def Valid (s : NibbleSlice) : Prop := s.offset ≤ s.data.length * 2

/-- The nibbles in view. -/
def nibbles (s : NibbleSlice) : List Nibble := (asNibbles s.data).drop s.offset

@[simp] theorem length_nibbles (s : NibbleSlice) : s.nibbles.length = s.size := by
  simp [nibbles, size]

@[simp] theorem nibbles_mid (s : NibbleSlice) (i : ℕ) : (s.mid i).nibbles = s.nibbles.drop i := by
  simp [nibbles, mid]

lemma Valid.mid {s : NibbleSlice} (hs : s.Valid) {i : ℕ} (hi : i ≤ s.size) : (s.mid i).Valid := by
  have hs : s.offset ≤ s.data.length * 2 := hs
  have hi : i ≤ s.data.length * 2 - s.offset := hi
  change s.offset + i ≤ s.data.length * 2
  omega

@[simp] lemma size_mid (s : NibbleSlice) (i : ℕ) : (s.mid i).size = s.size - i := by
  simp only [size, mid]
  omega

theorem at?_eq (s : NibbleSlice) (i : ℕ) : s.at? i = s.nibbles[i]? := by
  simp [at?, nibbles, nibble_eq]

lemma sharedNibblesLoop_eq (first second : Bytes) (b₁ b₂ n₁ n₂ : ℕ)
    (h₁ : b₁ + n₁ ≤ first.length * 2) (h₂ : b₂ + n₂ ≤ second.length * 2) :
    sharedNibblesLoop n₁ first b₁ (b₁ + n₁) second b₂ (b₂ + n₂) =
      Patricia.shared (((asNibbles first).drop b₁).take n₁)
        (((asNibbles second).drop b₂).take n₂) := by
  induction n₁ generalizing b₁ b₂ n₂ with
  | zero => simp [sharedNibblesLoop, Patricia.shared]
  | succ n₁ ih =>
    have hb₁ : b₁ < (asNibbles first).length := by rw [length_asNibbles]; omega
    rw [List.drop_eq_getElem_cons hb₁, List.take_succ_cons]
    cases n₂ with
    | zero => simp [sharedNibblesLoop, Patricia.shared]
    | succ n₂ =>
      have hb₂ : b₂ < (asNibbles second).length := by rw [length_asNibbles]; omega
      have hrec := ih (b₁ + 1) (b₂ + 1) n₂ (by omega) (by omega)
      rw [show b₁ + 1 + n₁ = b₁ + (n₁ + 1) by omega,
        show b₂ + 1 + n₂ = b₂ + (n₂ + 1) by omega] at hrec
      rw [List.drop_eq_getElem_cons hb₂, List.take_succ_cons]
      simp only [sharedNibblesLoop, Patricia.shared, hrec, nibble_eq,
        List.getElem?_eq_getElem hb₁, List.getElem?_eq_getElem hb₂, Option.some.injEq]
      have hlt₁ : b₁ < b₁ + (n₁ + 1) := by omega
      have hlt₂ : b₂ < b₂ + (n₂ + 1) := by omega
      simp only [hlt₁, hlt₂, true_and]

/-- Both slices end with their data, so only the common beginning is counted. -/
theorem shared_eq (s k : NibbleSlice) : s.shared k = Patricia.shared s.nibbles k.nibbles := by
  by_cases hs : s.offset ≤ s.data.length * 2
  · by_cases hk : k.offset ≤ k.data.length * 2
    · have h₁ : s.offset + s.size ≤ s.data.length * 2 := by rw [size]; omega
      have h₂ : k.offset + k.size ≤ k.data.length * 2 := by rw [size]; omega
      have h := sharedNibblesLoop_eq s.data k.data s.offset k.offset s.size k.size h₁ h₂
      rw [List.take_of_length_le (by simp [size]), List.take_of_length_le (by simp [size])] at h
      simpa [shared, sharedNibbles, nibbles] using h
    · have hsize : k.size = 0 := by rw [size]; omega
      have hnil : k.nibbles = [] := by rw [← List.length_eq_zero_iff, length_nibbles, hsize]
      rw [hnil, shared, sharedNibbles, hsize]
      rw [show s.offset + s.size - s.offset = s.size by omega]
      cases s.size <;> cases s.nibbles <;> simp [sharedNibblesLoop, Patricia.shared]
  · have hsize : s.size = 0 := by rw [size]; omega
    have hnil : s.nibbles = [] := by rw [← List.length_eq_zero_iff, length_nibbles, hsize]
    rw [hnil, shared, sharedNibbles, hsize]
    simp [sharedNibblesLoop, Patricia.shared]

theorem contains_iff (s k : NibbleSlice) : s.contains k = true ↔ k.nibbles <+: s.nibbles := by
  rw [contains, beq_iff_eq, shared_eq, ← length_nibbles, Patricia.shared_eq_right_iff]

lemma isEarlierThanLoop_iff (s k : NibbleSlice) {fuel i : ℕ} (hfuel : k.size ≤ i + fuel) :
    isEarlierThanLoop s k fuel i = true ↔ s.nibbles.drop i < k.nibbles.drop i := by
  have hdone (i : ℕ) (h : s.at? i = none ∨ k.at? i = none) :
      i < k.size ↔ s.nibbles.drop i < k.nibbles.drop i := by
    rw [at?_eq, at?_eq, List.getElem?_eq_none_iff, List.getElem?_eq_none_iff] at h
    rw [← length_nibbles k]
    constructor
    · intro hlt
      have hs : s.nibbles.length ≤ i := by omega
      rw [List.drop_of_length_le hs, List.drop_eq_getElem_cons hlt]
      exact List.nil_lt_cons _ _
    · intro hlt
      by_contra hge
      rw [List.drop_of_length_le (not_lt.mp hge)] at hlt
      exact absurd hlt (List.not_lt_nil _)
  induction fuel generalizing i with
  | zero =>
    rw [isEarlierThanLoop, decide_eq_true_iff]
    refine hdone i (Or.inr ?_)
    rw [at?_eq, List.getElem?_eq_none_iff, length_nibbles]
    omega
  | succ fuel ih =>
    cases hs : s.at? i with
    | none =>
      rw [isEarlierThanLoop, hs, decide_eq_true_iff]
      exact hdone i (Or.inl hs)
    | some a =>
      cases hk : k.at? i with
      | none =>
        rw [isEarlierThanLoop, hs, hk, decide_eq_true_iff]
        exact hdone i (Or.inr hk)
      | some b =>
        have hrec : isEarlierThanLoop s k fuel (i + 1) = true ↔
            s.nibbles.drop (i + 1) < k.nibbles.drop (i + 1) := ih (by omega)
        rw [at?_eq] at hs hk
        obtain ⟨hsi, rfl⟩ := List.getElem?_eq_some_iff.mp hs
        obtain ⟨hki, rfl⟩ := List.getElem?_eq_some_iff.mp hk
        rw [isEarlierThanLoop, at?_eq, at?_eq, hs, hk, List.drop_eq_getElem_cons hsi,
          List.drop_eq_getElem_cons hki, List.cons_lt_cons_iff]
        simp only
        split_ifs with hlt hgt
        · simp [hlt]
        · simp [hlt, hgt.ne']
        · have heq : s.nibbles[i] = k.nibbles[i] := le_antisymm (not_lt.mp hgt) (not_lt.mp hlt)
          rw [hrec]
          simp [heq]

theorem isEarlierThan_iff (s k : NibbleSlice) :
    s.isEarlierThan k = true ↔ s.nibbles < k.nibbles :=
  isEarlierThanLoop_iff s k (by omega)

@[simp] theorem nibbles_clear : clear.nibbles = [] := rfl

theorem empty_iff (s : NibbleSlice) : s.empty = true ↔ s.nibbles = [] := by
  rw [empty, beq_iff_eq, ← length_nibbles, List.length_eq_zero_iff]

theorem beq_iff (s k : NibbleSlice) : (s == k) = true ↔ s.nibbles = k.nibbles := by
  change (k.size == s.size && s.shared k == k.size) = true ↔ _
  rw [Bool.and_eq_true, beq_iff_eq, beq_iff_eq, shared_eq, ← length_nibbles, ← length_nibbles,
    Patricia.shared_eq_right_iff]
  constructor
  · rintro ⟨hlen, hp⟩
    exact (hp.eq_of_length hlen).symm
  · rintro h
    rw [h]
    exact ⟨rfl, List.prefix_refl _⟩

end NibbleSlice

/-- The content bytes of an item, without its header. -/
def Item.payload : Item → Bytes
  | .data b => b
  | .list l => Rlp.encodeAll l

/-- Whether a two-item node is a leaf; it is read from the first byte of its label. -/
def isLeaf : Item → Option Bool
  | .list [a, _] => a.payload.head?.map fun p => p &&& 0x20 != 0
  | _ => none

/-- The nibbles of a packed label. -/
def keyOfHpe (hpe : Bytes) : NibbleSlice :=
  match hpe with
  | [] => ⟨hpe, 0⟩
  | p :: _ => if p &&& 0x10 != 0 then ⟨hpe, 1⟩ else ⟨hpe, 2⟩

def keyOf : Item → NibbleSlice
  | .list (a :: _) => keyOfHpe a.payload
  | _ => ⟨[], 0⟩

/-- Packs pairs of nibbles into bytes. -/
def pack : List Nibble → Bytes
  | a :: b :: r => (a.byte * 16 + b.byte) :: pack r
  | _ => []

/-- The flag nibble in the upper half of the first byte of a label. -/
def flagByte (leaf odd : Bool) : UInt8 := ((if leaf then 2 else 0) ||| (if odd then 1 else 0)) * 16

/-- The packed label of a two-item node. -/
def hexPrefix (leaf : Bool) (ns : List Nibble) : Bytes :=
  if ns.length % 2 = 1 then
    (flagByte leaf true ||| (ns.headD 0).byte) :: pack ns.tail
  else flagByte leaf false :: pack ns

/-- `ret.back() |= n`. -/
def orBack (ret : Bytes) (n : Nibble) : Bytes :=
  ret.dropLast ++ (ret.getLast?.map fun b => b ||| n.byte).toList

/-- The loop of the slice encoders; at odd `d` a nibble completes the last byte. -/
def pushNibbles : ℕ → Bytes → List Nibble → Bytes
  | _, ret, [] => ret
  | d, ret, n :: ns =>
    pushNibbles (d + 1) (if d % 2 = 1 then orBack ret n else ret ++ [n.byte <<< 4]) ns

/-- The nibbles from `b` up to `e`, absent when the range leaves the data. -/
def nibbleRange (data : Bytes) (b e : ℕ) : Option (List Nibble) :=
  (List.range' b (e - b)).mapM (nibble data)

/-- The encoder of a vector of nibbles. -/
def hexPrefixEncodeHex (hexVector : List Nibble) (leaf : Bool) (b : ℕ) (e : ℤ) : Bytes :=
  let stop := if e < 0 then (hexVector.length + 1 + e).toNat else e.toNat
  let range := (hexVector.drop b).take (stop - b)
  if (stop - b) % 2 = 1 then
    (flagByte leaf true ||| (range.headD 0).byte) :: pack range.tail
  else flagByte leaf false :: pack range

/-- The encoder of a range of the nibbles of `data`. -/
def hexPrefixEncodeData (data : Bytes) (leaf : Bool) (beginNibble : ℕ) (endNibble : ℤ)
    (offset : ℕ) : Option Bytes :=
  let b := beginNibble + offset
  let e := ((if endNibble < 0 then (data.length * 2 - offset : ℤ) + 1 + endNibble
    else endNibble) + offset).toNat
  let odd := (e - b) % 2 = 1
  (nibbleRange data b e).map (pushNibbles (if odd then 1 else 2) [flagByte leaf odd])

/-- The encoder of two slices behind one another. -/
def hexPrefixEncodeTwo (data₁ : Bytes) (offset₁ : ℕ) (data₂ : Bytes) (offset₂ : ℕ)
    (leaf : Bool) : Option Bytes :=
  let odd := (data₁.length * 2 - offset₁ + (data₂.length * 2 - offset₂)) % 2 = 1
  match nibbleRange data₁ offset₁ (data₁.length * 2), nibbleRange data₂ offset₂ (data₂.length * 2) with
  | some n₁, some n₂ => some (pushNibbles (if odd then 1 else 2) [flagByte leaf odd] (n₁ ++ n₂))
  | _, _ => none

def hexPrefixEncode (s : NibbleSlice) (leaf : Bool) (beginNibble : ℕ) (endNibble : ℤ) :
    Option Bytes :=
  hexPrefixEncodeData s.data leaf beginNibble endNibble s.offset

def hexPrefixEncodePair (s₁ s₂ : NibbleSlice) (leaf : Bool) : Option Bytes :=
  hexPrefixEncodeTwo s₁.data s₁.offset s₂.data s₂.offset leaf

def Item.isEmpty : Item → Bool
  | .data [] => true
  | .list [] => true
  | _ => false

/-- The bytes of a string; a list has none. -/
def Item.toBytes : Item → Bytes
  | .data b => b
  | .list _ => []

def Item.isList : Item → Bool
  | .list _ => true
  | .data _ => false

/-- The loop of `uniqueInUse` from slot `i` on. -/
def uniqueInUseLoop (exc : ℕ) : List Item → ℕ → ℕ → ℕ
  | [], _, used => used
  | x :: xs, i, used =>
    if i ≠ exc ∧ ¬ x.isEmpty then
      if used = 255 then uniqueInUseLoop exc xs (i + 1) i else 255
    else uniqueInUseLoop exc xs (i + 1) used

/-- The slot in use when it is the only one, else 255; one slot may be left out. -/
def uniqueInUse (slots : List Item) (exc : ℕ) : ℕ := uniqueInUseLoop exc slots 0 255

section InUse

variable {exc : ℕ} {slots : List Item}

/-- Slot `j` counts for `uniqueInUse`. -/
def InUse (exc : ℕ) (slots : List Item) (j : ℕ) : Prop :=
  j ≠ exc ∧ ∃ x, slots[j]? = some x ∧ ¬ x.isEmpty

/-- Behind the last slot in use nothing changes. -/
lemma uniqueInUseLoop_done {xs : List Item} {i used : ℕ}
    (h : ∀ j x, xs[j]? = some x → i + j ≠ exc → x.isEmpty = true) :
    uniqueInUseLoop exc xs i used = used := by
  induction xs generalizing i with
  | nil => rfl
  | cons y ys ih =>
    have hy : ¬ (i ≠ exc ∧ ¬ y.isEmpty) := fun hy => hy.2 (h 0 y rfl hy.1)
    rw [uniqueInUseLoop, if_neg hy]
    exact ih fun j x hx hne => h (j + 1) x (by simpa using hx) (by omega)

/-- With a slot found already, any other one makes the answer 255. -/
lemma uniqueInUseLoop_other {xs : List Item} {i j used : ℕ} (hused : used ≠ 255)
    (hj : ∃ x, xs[j]? = some x ∧ ¬ x.isEmpty) (hexc : i + j ≠ exc) :
    uniqueInUseLoop exc xs i used = 255 := by
  induction xs generalizing i j with
  | nil => simp at hj
  | cons y ys ih =>
    by_cases hy : i ≠ exc ∧ ¬ y.isEmpty
    · rw [uniqueInUseLoop, if_pos hy, if_neg hused]
    · rw [uniqueInUseLoop, if_neg hy]
      obtain ⟨x, hx, hempty⟩ := hj
      cases j with
      | zero =>
        obtain rfl : y = x := by simpa using hx
        exact absurd ⟨hexc, hempty⟩ hy
      | succ j => exact ih ⟨x, by simpa using hx, hempty⟩ (by omega)

lemma uniqueInUseLoop_unique {xs : List Item} {i j : ℕ} (hlen : i + xs.length ≤ 255)
    (hj : ∃ x, xs[j]? = some x ∧ ¬ x.isEmpty) (hexc : i + j ≠ exc)
    (hu : ∀ j' x, xs[j']? = some x → i + j' ≠ exc → ¬ x.isEmpty → j' = j) :
    uniqueInUseLoop exc xs i 255 = i + j := by
  induction xs generalizing i j with
  | nil => simp at hj
  | cons y ys ih =>
    rw [List.length_cons] at hlen
    by_cases hy : i ≠ exc ∧ ¬ y.isEmpty
    · obtain rfl : 0 = j := hu 0 y rfl hy.1 hy.2
      rw [uniqueInUseLoop, if_pos hy, if_pos rfl, uniqueInUseLoop_done]
      · rfl
      · intro j x hx hne
        by_contra hempty
        exact absurd (hu (j + 1) x (by simpa using hx) (by omega) hempty) (by omega)
    · obtain ⟨x, hx, hempty⟩ := hj
      cases j with
      | zero =>
        obtain rfl : y = x := by simpa using hx
        exact absurd ⟨hexc, hempty⟩ hy
      | succ j =>
        have hrec := @ih (i + 1) j (by omega) ⟨x, by simpa using hx, hempty⟩ (by omega)
          fun j' x' hx' hne hempty' => by
            have := hu (j' + 1) x' (by simpa using hx') (by omega) hempty'
            omega
        rw [uniqueInUseLoop, if_neg hy, hrec]
        omega

lemma uniqueInUseLoop_two {xs : List Item} {i j j' : ℕ} (hlen : i + xs.length ≤ 255) (hne : j ≠ j')
    (hj : ∃ x, xs[j]? = some x ∧ ¬ x.isEmpty) (hexc : i + j ≠ exc)
    (hj' : ∃ x, xs[j']? = some x ∧ ¬ x.isEmpty) (hexc' : i + j' ≠ exc) :
    uniqueInUseLoop exc xs i 255 = 255 := by
  induction xs generalizing i j j' with
  | nil => simp at hj
  | cons y ys ih =>
    rw [List.length_cons] at hlen
    obtain ⟨x, hx, hempty⟩ := hj
    obtain ⟨x', hx', hempty'⟩ := hj'
    by_cases hy : i ≠ exc ∧ ¬ y.isEmpty
    · rw [uniqueInUseLoop, if_pos hy, if_pos rfl]
      cases j with
      | succ j => exact uniqueInUseLoop_other (by omega) ⟨x, by simpa using hx, hempty⟩ (by omega)
      | zero =>
        cases j' with
        | zero => contradiction
        | succ j' =>
          exact uniqueInUseLoop_other (by omega) ⟨x', by simpa using hx', hempty'⟩ (by omega)
    · cases j with
      | zero =>
        obtain rfl : y = x := by simpa using hx
        exact absurd ⟨hexc, hempty⟩ hy
      | succ j =>
        cases j' with
        | zero =>
          obtain rfl : y = x' := by simpa using hx'
          exact absurd ⟨hexc', hempty'⟩ hy
        | succ j' =>
          rw [uniqueInUseLoop, if_neg hy]
          simp only [List.getElem?_cons_succ] at hx hx'
          exact ih (by omega) (fun h => hne (congrArg (· + 1) h)) ⟨x, hx, hempty⟩ (by omega)
            ⟨x', hx', hempty'⟩ (by omega)

/-- The single slot in use is found. -/
theorem uniqueInUse_of_unique (hlen : slots.length ≤ 255) {j : ℕ} (hj : InUse exc slots j)
    (hu : ∀ j', InUse exc slots j' → j' = j) : uniqueInUse slots exc = j := by
  have h := uniqueInUseLoop_unique (i := 0) (by omega) hj.2 (by rw [Nat.zero_add]; exact hj.1)
    fun j' x hx hne hempty => hu j' ⟨by rwa [Nat.zero_add] at hne, x, hx, hempty⟩
  rwa [Nat.zero_add] at h

theorem uniqueInUse_of_two (hlen : slots.length ≤ 255) {j j' : ℕ} (hne : j ≠ j')
    (hj : InUse exc slots j) (hj' : InUse exc slots j') : uniqueInUse slots exc = 255 :=
  uniqueInUseLoop_two (by omega) hne hj.2 (by rw [Nat.zero_add]; exact hj.1) hj'.2
    (by rw [Nat.zero_add]; exact hj'.1)

end InUse

section Packing

lemma orBack_append (ret : Bytes) (b : UInt8) (n : Nibble) :
    orBack (ret ++ [b]) n = ret ++ [b ||| n.byte] := by
  simp [orBack]

lemma shift_or : ∀ a b : Nibble, a.byte <<< 4 ||| b.byte = a.byte * 16 + b.byte := by decide

/-- From an even position on the loop appends packed pairs. -/
lemma pushNibbles_even (ns : List Nibble) (d : ℕ) (ret : Bytes) (hd : d % 2 = 0)
    (hns : ns.length % 2 = 0) : pushNibbles d ret ns = ret ++ pack ns := by
  induction ns using pack.induct generalizing d ret with
  | case1 a b r ih =>
    have hr : r.length % 2 = 0 := by simp at hns; omega
    have hd1 : (d + 1) % 2 = 1 := by omega
    have hd0 : ¬ d % 2 = 1 := by omega
    simp only [pushNibbles, pack, if_neg hd0, hd1, if_true, orBack_append, shift_or]
    rw [ih (d + 1 + 1) _ (by omega) hr]
    simp
  | case2 ns h =>
    match ns with
    | [] => simp [pushNibbles, pack]
    | [a] => simp at hns
    | a :: b :: r => exact absurd rfl (h a b r)

/-- The loop of the slice encoders packs the label. -/
lemma pushNibbles_flag (leaf : Bool) (ns : List Nibble) :
    pushNibbles (if ns.length % 2 = 1 then 1 else 2) [flagByte leaf (ns.length % 2 = 1)] ns =
      hexPrefix leaf ns := by
  by_cases hodd : ns.length % 2 = 1
  · cases ns with
    | nil => simp at hodd
    | cons n ns =>
      have hns : ns.length % 2 = 0 := by simp at hodd; omega
      simp only [hexPrefix, hodd, if_true, pushNibbles, Nat.one_mod, decide_true]
      rw [pushNibbles_even ns 2 _ rfl hns]
      simp [orBack]
  · simp only [hexPrefix, hodd, if_false, decide_false]
    rw [pushNibbles_even ns 2 _ rfl (by omega)]
    rfl

lemma nibbleRange_eq (data : Bytes) (b e : ℕ) (he : e ≤ data.length * 2) :
    nibbleRange data b e = some (((asNibbles data).drop b).take (e - b)) := by
  unfold nibbleRange
  obtain ⟨n, hn⟩ : ∃ n, n = e - b := ⟨_, rfl⟩
  rw [← hn]
  by_cases hb : b ≤ e
  · have hbn : b + n ≤ data.length * 2 := by omega
    clear hn he hb
    induction n generalizing b with
    | zero => rfl
    | succ n ih =>
      have hlt : b < (asNibbles data).length := by rw [length_asNibbles]; omega
      rw [List.range'_succ, List.mapM_cons, ih (b + 1) (by omega), nibble_eq,
        List.getElem?_eq_getElem hlt, List.drop_eq_getElem_cons hlt]
      rfl
  · have h0 : n = 0 := by omega
    subst h0
    rfl

theorem hexPrefixEncode_eq (s : NibbleSlice) (leaf : Bool) (hs : s.Valid) (b e : ℕ)
    (he : e ≤ s.size) :
    hexPrefixEncode s leaf b e = some (hexPrefix leaf ((s.nibbles.drop b).take (e - b))) := by
  have hle : e + s.offset ≤ s.data.length * 2 := by
    have hs : s.offset ≤ s.data.length * 2 := hs
    have : s.size = s.data.length * 2 - s.offset := rfl
    omega
  have hstop : (((e : ℤ)) + (s.offset : ℤ)).toNat = e + s.offset := by omega
  have hneg : ¬ (e : ℤ) < 0 := by omega
  have hsub : e + s.offset - (b + s.offset) = e - b := by omega
  have hlen : ((s.nibbles.drop b).take (e - b)).length = e - b := by
    simp only [List.length_take, List.length_drop, NibbleSlice.length_nibbles]
    omega
  have hdrop : (asNibbles s.data).drop (b + s.offset) = s.nibbles.drop b := by
    simp [NibbleSlice.nibbles, Nat.add_comm]
  have hpush := pushNibbles_flag leaf ((s.nibbles.drop b).take (e - b))
  rw [hlen] at hpush
  simp only [hexPrefixEncode, hexPrefixEncodeData, if_neg hneg, hstop, hsub,
    nibbleRange_eq _ _ _ hle, Option.map_some, hdrop, hpush]

theorem hexPrefixEncode_all (s : NibbleSlice) (leaf : Bool) (hs : s.Valid) (b : ℕ) :
    hexPrefixEncode s leaf b (-1) = some (hexPrefix leaf (s.nibbles.drop b)) := by
  have h := hexPrefixEncode_eq s leaf hs b s.size le_rfl
  have hend : ((s.data.length * 2 - s.offset : ℤ) + 1 + -1) = (s.size : ℤ) := by
    have hs : s.offset ≤ s.data.length * 2 := hs
    have : s.size = s.data.length * 2 - s.offset := rfl
    omega
  rw [List.take_of_length_le (by simp)] at h
  have hneg : ¬ (s.size : ℤ) < 0 := by omega
  rw [← h]
  simp only [hexPrefixEncode, hexPrefixEncodeData, hend, if_neg hneg]
  simp

theorem hexPrefixEncodePair_eq (s₁ s₂ : NibbleSlice) (leaf : Bool) :
    hexPrefixEncodePair s₁ s₂ leaf = some (hexPrefix leaf (s₁.nibbles ++ s₂.nibbles)) := by
  have hlen : (s₁.nibbles ++ s₂.nibbles).length =
      s₁.data.length * 2 - s₁.offset + (s₂.data.length * 2 - s₂.offset) := by
    simp [NibbleSlice.size]
  have hpush := pushNibbles_flag leaf (s₁.nibbles ++ s₂.nibbles)
  rw [hlen] at hpush
  have htake (s : NibbleSlice) : ((asNibbles s.data).drop s.offset).take
      (s.data.length * 2 - s.offset) = s.nibbles := by
    rw [List.take_of_length_le (by simp)]
    rfl
  simp only [hexPrefixEncodePair, hexPrefixEncodeTwo, nibbleRange_eq _ _ _ le_rfl, htake, hpush]

theorem hexPrefixEncodeHex_eq (hexVector : List Nibble) (leaf : Bool) (b e : ℕ)
    (he : e ≤ hexVector.length) :
    hexPrefixEncodeHex hexVector leaf b e =
      hexPrefix leaf ((hexVector.drop b).take (e - b)) := by
  have hneg : ¬ (e : ℤ) < 0 := by omega
  have hlen : ((hexVector.drop b).take (e - b)).length = e - b := by
    simp only [List.length_take, List.length_drop]
    omega
  simp only [hexPrefixEncodeHex, hexPrefix, if_neg hneg, Int.toNat_natCast, hlen]

theorem hexPrefixEncodeHex_all (hexVector : List Nibble) (leaf : Bool) (b : ℕ) :
    hexPrefixEncodeHex hexVector leaf b (-1) = hexPrefix leaf (hexVector.drop b) := by
  have h := hexPrefixEncodeHex_eq hexVector leaf b hexVector.length le_rfl
  rw [List.take_of_length_le (by simp)] at h
  rw [← h]
  have hneg : ¬ (hexVector.length : ℤ) < 0 := by omega
  simp [hexPrefixEncodeHex, hneg]

end Packing

section Unpacking

lemma hiNibble_pack : ∀ a b : Nibble, hiNibble (a.byte * 16 + b.byte) = a := by decide

lemma loNibble_pack : ∀ a b : Nibble, loNibble (a.byte * 16 + b.byte) = b := by decide

lemma asNibbles_pack (ns : List Nibble) (hns : ns.length % 2 = 0) : asNibbles (pack ns) = ns := by
  induction ns using pack.induct with
  | case1 a b r ih =>
    have hr : r.length % 2 = 0 := by simp at hns; omega
    simp [pack, hiNibble_pack, loNibble_pack, ih hr]
  | case2 ns h =>
    match ns with
    | [] => rfl
    | [a] => simp at hns
    | a :: b :: r => exact absurd rfl (h a b r)

lemma pack_asNibbles (b : Bytes) : pack (asNibbles b) = b :=
  asNibbles_injective (asNibbles_pack _ (by simp))

lemma flagByte_odd : ∀ (leaf : Bool) (n : Nibble),
    (flagByte leaf true ||| n.byte) &&& 0x10 ≠ 0 ∧ loNibble (flagByte leaf true ||| n.byte) = n ∧
      ((flagByte leaf true ||| n.byte) &&& 0x20 != 0) = leaf := by decide

lemma flagByte_even : ∀ leaf : Bool, flagByte leaf false &&& 0x10 = 0 ∧
    (flagByte leaf false &&& 0x20 != 0) = leaf := by decide

/-- A packed label is read back. -/
@[simp] theorem nibbles_keyOfHpe (leaf : Bool) (ns : List Nibble) :
    (keyOfHpe (hexPrefix leaf ns)).nibbles = ns := by
  by_cases hodd : ns.length % 2 = 1
  · cases ns with
    | nil => simp at hodd
    | cons n ns =>
      have hns : ns.length % 2 = 0 := by simp at hodd; omega
      obtain ⟨hflag, hlo, -⟩ := flagByte_odd leaf n
      simp only [hexPrefix, hodd, if_true, List.headD_cons, List.tail_cons, keyOfHpe, bne_iff_ne,
        ne_eq, hflag, not_false_eq_true, NibbleSlice.nibbles, asNibbles_cons, hlo,
        asNibbles_pack ns hns]
      rfl
  · obtain ⟨hflag, -⟩ := flagByte_even leaf
    simp only [hexPrefix, hodd, if_false, keyOfHpe, hflag, bne_self_eq_false, Bool.false_eq_true,
      NibbleSlice.nibbles, asNibbles_cons, asNibbles_pack ns (by omega)]
    rfl

lemma valid_keyOfHpe (leaf : Bool) (ns : List Nibble) :
    (keyOfHpe (hexPrefix leaf ns)).Valid := by
  unfold hexPrefix keyOfHpe NibbleSlice.Valid
  split_ifs <;> simp <;> split_ifs <;> simp <;> omega

/-- The flag of a packed label is read back. -/
@[simp] theorem isLeaf_hexPrefix (leaf : Bool) (ns : List Nibble) (x : Item) :
    isLeaf (.list [.data (hexPrefix leaf ns), x]) = some leaf := by
  by_cases hodd : ns.length % 2 = 1
  · obtain ⟨-, -, hleaf⟩ := flagByte_odd leaf (ns.headD 0)
    simp only [isLeaf, Item.payload, hexPrefix, hodd, if_true, List.head?_cons, Option.map_some,
      hleaf]
  · obtain ⟨-, hleaf⟩ := flagByte_even leaf
    simp only [isLeaf, Item.payload, hexPrefix, hodd, if_false, List.head?_cons, Option.map_some,
      hleaf]

end Unpacking

end XChain
