import XChain.FixedHash

/-!
# Byte strings that hold secrets

A `SecureFixedHash` keeps its base to itself and has operators of its own, each for a
secret and for a plain string on the right. They hand over to operators of the base; all
the compound assignments hand over to the same one.
-/
namespace XChain

namespace FixedHash

variable {n : ℕ}

/-- The byte at an index. -/
def byteAt (a : FixedHash n) (i : Fin n) : UInt8 := a.bytes.get (i.cast a.size.symm)

theorem ext_byteAt {a b : FixedHash n} (h : ∀ i, a.byteAt i = b.byteAt i) : a = b := by
  apply FixedHash.ext
  refine List.ext_getElem (a.size.trans b.size.symm) fun i ha _ => ?_
  exact h ⟨i, by rwa [← a.size]⟩

theorem byteAt_inj {a b : FixedHash n} : a = b ↔ ∀ i, a.byteAt i = b.byteAt i :=
  ⟨fun h i => by rw [h], ext_byteAt⟩

@[simp] theorem byteAt_zero (i : Fin n) : (zero n).byteAt i = 0 := by
  simp [byteAt, zero]

@[simp] theorem byteAt_xor (a b : FixedHash n) (i : Fin n) :
    (a ^^^ b).byteAt i = a.byteAt i ^^^ b.byteAt i :=
  List.getElem_zipWith

def or (a b : FixedHash n) : FixedHash n :=
  ⟨List.zipWith (· ||| ·) a.bytes b.bytes, by
    rw [List.length_zipWith, a.size, b.size, Nat.min_self]⟩

instance : OrOp (FixedHash n) := ⟨or⟩

@[simp] theorem byteAt_or (a b : FixedHash n) (i : Fin n) :
    (a ||| b).byteAt i = a.byteAt i ||| b.byteAt i :=
  List.getElem_zipWith

def and (a b : FixedHash n) : FixedHash n :=
  ⟨List.zipWith (· &&& ·) a.bytes b.bytes, by
    rw [List.length_zipWith, a.size, b.size, Nat.min_self]⟩

instance : AndOp (FixedHash n) := ⟨and⟩

@[simp] theorem byteAt_and (a b : FixedHash n) (i : Fin n) :
    (a &&& b).byteAt i = a.byteAt i &&& b.byteAt i :=
  List.getElem_zipWith

def not (a : FixedHash n) : FixedHash n :=
  ⟨a.bytes.map (~~~ ·), by rw [List.length_map, a.size]⟩

section Bits

variable (x y : UInt8)

/-- Bits are combined alike by `^` and by `|` where they are not both set. -/
theorem byte_xor_eq_or : x ^^^ y = x ||| y ↔ x &&& y = 0 := by
  simp only [← UInt8.toBitVec_inj, BitVec.eq_of_getLsbD_eq_iff]
  refine forall₂_congr fun i _ => ?_
  simp only [UInt8.toBitVec_xor, UInt8.toBitVec_or, UInt8.toBitVec_and, UInt8.toBitVec_zero,
    BitVec.getLsbD_xor, BitVec.getLsbD_or, BitVec.getLsbD_and, BitVec.getLsbD_zero]
  cases x.toBitVec.getLsbD i <;> cases y.toBitVec.getLsbD i <;> decide

/-- Bits are combined alike by `^` and by `&` where neither is set. -/
theorem byte_xor_eq_and : x ^^^ y = x &&& y ↔ x = 0 ∧ y = 0 := by
  simp only [← UInt8.toBitVec_inj, BitVec.eq_of_getLsbD_eq_iff, ← forall_and]
  refine forall₂_congr fun i _ => ?_
  simp only [UInt8.toBitVec_xor, UInt8.toBitVec_and, UInt8.toBitVec_zero,
    BitVec.getLsbD_xor, BitVec.getLsbD_and, BitVec.getLsbD_zero]
  cases x.toBitVec.getLsbD i <;> cases y.toBitVec.getLsbD i <;> decide

end Bits

theorem xor_eq_or (a b : FixedHash n) : a ^^^ b = a ||| b ↔ a &&& b = zero n := by
  simp [byteAt_inj, byte_xor_eq_or]

theorem xor_eq_and (a b : FixedHash n) : a ^^^ b = a &&& b ↔ a = zero n ∧ b = zero n := by
  simp [byteAt_inj, byte_xor_eq_and, forall_and]

section Comparisons

/-- The loop of `operator<`: the first bytes that differ decide. -/
def ltLoop : Bytes → Bytes → Bool
  | x :: a, y :: b => if x < y then true else if y < x then false else ltLoop a b
  | _, _ => false

variable (a b : FixedHash n)

def eq : Bool := a.bytes == b.bytes

def ne : Bool := a.bytes != b.bytes

def lt : Bool := ltLoop a.bytes b.bytes

def ge : Bool := !a.lt b

def le : Bool := a.eq b || a.lt b

def gt : Bool := !a.le b

end Comparisons

end FixedHash

/-- The operators `^`, `|` and `&`. -/
inductive Bitwise where
  | xor
  | or
  | and

inductive Comparison where
  | eq
  | ne
  | lt
  | ge
  | le
  | gt

namespace FixedHash

variable {n : ℕ}

/-- The compound assignments; the result is what the left side holds afterwards. -/
def assign (a : FixedHash n) : Bitwise → FixedHash n → FixedHash n
  | .xor, c => a ^^^ c
  | .or, c => a ||| c
  | .and, c => a &&& c

/-- The operators without an assignment work on a copy. -/
def binary (a : FixedHash n) (op : Bitwise) (c : FixedHash n) : FixedHash n := a.assign op c

def compare (a : FixedHash n) : Comparison → FixedHash n → Bool
  | .eq, c => a.eq c
  | .ne, c => a.ne c
  | .lt, c => a.lt c
  | .ge, c => a.ge c
  | .le, c => a.le c
  | .gt, c => a.gt c

end FixedHash

structure SecureFixedHash (n : ℕ) where
  base : FixedHash n

def SecureFixedHash.makeInsecure {n : ℕ} (a : SecureFixedHash n) : FixedHash n := a.base

/-- The right side of an operator: each has an overload for a secret and one for a plain
string. -/
inductive Operand (n : ℕ) where
  | secure (b : SecureFixedHash n)
  | plain (c : FixedHash n)

/-- The operand as a string of the base class. -/
def Operand.makeInsecure {n : ℕ} : Operand n → FixedHash n
  | .secure b => b.makeInsecure
  | .plain c => c

namespace SecureFixedHash

variable {n : ℕ} (a : SecureFixedHash n)

def xorAssign (x : Operand n) : SecureFixedHash n := ⟨a.makeInsecure.assign .xor x.makeInsecure⟩

/-- The source hands over to `^=` of the base. -/
def orAssign (x : Operand n) : SecureFixedHash n := ⟨a.makeInsecure.assign .xor x.makeInsecure⟩

/-- The source hands over to `^=` of the base. -/
def andAssign (x : Operand n) : SecureFixedHash n := ⟨a.makeInsecure.assign .xor x.makeInsecure⟩

def xor (x : Operand n) : SecureFixedHash n := a.xorAssign x

def or (x : Operand n) : SecureFixedHash n := a.orAssign x

def and (x : Operand n) : SecureFixedHash n := a.andAssign x

def not : SecureFixedHash n := ⟨a.makeInsecure.not⟩

def eq (x : Operand n) : Bool := a.makeInsecure.eq x.makeInsecure

def ne (x : Operand n) : Bool := a.makeInsecure.ne x.makeInsecure

def lt (x : Operand n) : Bool := a.makeInsecure.lt x.makeInsecure

def ge (x : Operand n) : Bool := a.makeInsecure.ge x.makeInsecure

def le (x : Operand n) : Bool := a.makeInsecure.le x.makeInsecure

def gt (x : Operand n) : Bool := a.makeInsecure.gt x.makeInsecure

def assign : Bitwise → Operand n → SecureFixedHash n
  | .xor, x => a.xorAssign x
  | .or, x => a.orAssign x
  | .and, x => a.andAssign x

def binary : Bitwise → Operand n → SecureFixedHash n
  | .xor, x => a.xor x
  | .or, x => a.or x
  | .and, x => a.and x

def compare : Comparison → Operand n → Bool
  | .eq, x => a.eq x
  | .ne, x => a.ne x
  | .lt, x => a.lt x
  | .ge, x => a.ge x
  | .le, x => a.le x
  | .gt, x => a.gt x

/-- An operator and what stands to its right. -/
inductive Operation (n : ℕ) where
  | assign (op : Bitwise) (x : Operand n)
  | binary (op : Bitwise) (x : Operand n)
  | not
  | compare (op : Comparison) (x : Operand n)

/-- The operator gives what the one of the same name gives on the base. -/
def Commutes : Operation n → Prop
  | .assign op x => (a.assign op x).makeInsecure = a.makeInsecure.assign op x.makeInsecure
  | .binary op x => (a.binary op x).makeInsecure = a.makeInsecure.binary op x.makeInsecure
  | .not => a.not.makeInsecure = a.makeInsecure.not
  | .compare op x => a.compare op x = a.makeInsecure.compare op x.makeInsecure

/-- Where `^` stands in for an operator: for `|` on operands without a common bit, and for
`&` on operands without any. -/
def StandsIn (c d : FixedHash n) : Bitwise → Prop
  | .xor => True
  | .or => c &&& d = .zero n
  | .and => c = .zero n ∧ d = .zero n

/-- The condition on the operands of an operator. -/
def Fits : Operation n → Prop
  | .assign op x => StandsIn a.makeInsecure x.makeInsecure op
  | .binary op x => StandsIn a.makeInsecure x.makeInsecure op
  | .not => True
  | .compare _ _ => True

/-- Every compound assignment is `^=` of the base. -/
theorem makeInsecure_assign (op : Bitwise) (x : Operand n) :
    (a.assign op x).makeInsecure = a.makeInsecure ^^^ x.makeInsecure := by
  cases op <;> rfl

theorem makeInsecure_binary (op : Bitwise) (x : Operand n) :
    (a.binary op x).makeInsecure = a.makeInsecure ^^^ x.makeInsecure := by
  cases op <;> rfl

theorem standsIn_iff (c d : FixedHash n) (op : Bitwise) :
    c ^^^ d = c.assign op d ↔ StandsIn c d op := by
  cases op with
  | xor => exact iff_of_true rfl trivial
  | or => exact FixedHash.xor_eq_or c d
  | and => exact FixedHash.xor_eq_and c d

theorem commutes_iff (n : ℕ) (a : SecureFixedHash n) (o : Operation n) :
    a.Commutes o ↔ a.Fits o := by
  cases o with
  | assign op x =>
    rw [Commutes, makeInsecure_assign]
    exact standsIn_iff _ _ op
  | binary op x =>
    rw [Commutes, makeInsecure_binary]
    exact standsIn_iff _ _ op
  | not => exact iff_of_true rfl trivial
  | compare op x => exact iff_of_true (by cases op <;> rfl) trivial

/-- A secret of ones. -/
def ones : SecureFixedHash 32 := ⟨List.replicate 32 255, List.length_replicate⟩

/-- Combined with itself by `|` it becomes zero. -/
theorem not_commutes_ones : ¬ ones.Commutes (.binary .or (.secure ones)) ∧
    (ones.or (.secure ones)).makeInsecure = .zero 32 := by
  unfold Commutes
  decide

end SecureFixedHash
end XChain
