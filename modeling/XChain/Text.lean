import Mathlib.Data.List.TakeWhile
import XChain.FixedHash
import XChain.Positional

/-!
# Numbers and bytes as text

Decimal numbers, and two hexadecimal digits for each byte. A number is read up to the first
character that is no digit, and bytes only from digits.
-/
namespace XChain

open Positional

abbrev Text := List Char

namespace Text

/-- The part in front of the first such character and the part behind it. -/
def splitAt? (c : Char) : Text → Option (Text × Text)
  | [] => none
  | d :: s => if d = c then some ([], s) else (splitAt? c s).map fun p => (d :: p.1, p.2)

/-- Where such a character is first. -/
def find (s : Text) (c : Char) : Option ℕ := (splitAt? c s).map fun p => p.1.length

def isDigit (c : Char) : Bool := 48 ≤ c.toNat && c.toNat ≤ 57

def isSpace (c : Char) : Bool := c.toNat = 32 || (9 ≤ c.toNat && c.toNat ≤ 13)

def digitChar (d : ℕ) : Char := Char.ofNat (48 + d)

/-- What is written of a number. -/
def toString (n : ℕ) : Text := if n = 0 then ['0'] else (numeral 10 n).map digitChar

/-- Spaces, a sign and digits, of a number that is an int. Anything else throws. -/
def stoi (s : Text) : Option ℤ :=
  let s := s.dropWhile isSpace
  let digits := if s.head? = some '-' ∨ s.head? = some '+' then s.drop 1 else s
  let number := digits.takeWhile isDigit
  let magnitude : ℤ := value 10 (number.map fun c => c.toNat - 48)
  let n := if s.head? = some '-' then -magnitude else magnitude
  if number = [] ∨ n < -2 ^ 31 ∨ 2 ^ 31 ≤ n then none else some n

def hexChar (d : ℕ) : Char := if d < 10 then Char.ofNat (48 + d) else Char.ofNat (87 + d)

def toHex (b : Bytes) : Text := b.flatMap fun x => [hexChar (x.toNat / 16), hexChar (x.toNat % 16)]

def fromHexChar (c : Char) : Option ℕ :=
  if 48 ≤ c.toNat ∧ c.toNat ≤ 57 then some (c.toNat - 48)
  else if 97 ≤ c.toNat ∧ c.toNat ≤ 102 then some (c.toNat - 87)
  else if 65 ≤ c.toNat ∧ c.toNat ≤ 70 then some (c.toNat - 55)
  else none

def fromHexPairs : Text → Option Bytes
  | h :: l :: s => do
    let high ← fromHexChar h
    let low ← fromHexChar l
    let rest ← fromHexPairs s
    return UInt8.ofNat (high * 16 + low) :: rest
  | _ => some []

/-- Bytes from digits, behind a prefix if there is one. The first byte has one digit when their
number is odd. Nothing where a character is no digit. -/
def fromHex? (s : Text) : Option Bytes :=
  let digits := if s.take 2 = ['0', 'x'] then s.drop 2 else s
  if s.length % 2 = 0 then fromHexPairs digits
  else match digits with
    | [] => none
    | c :: digits => do
      let first ← fromHexChar c
      let rest ← fromHexPairs digits
      return UInt8.ofNat first :: rest

/-- No bytes where a character is no digit. -/
def fromHex (s : Text) : Bytes := (fromHex? s).getD []

section Split

variable {c : Char} {s : Text}

@[simp] theorem splitAt?_append (h : c ∉ s) (rest : Text) :
    splitAt? c (s ++ c :: rest) = some (s, rest) := by
  induction s with
  | nil => simp [splitAt?]
  | cons d s ih =>
    obtain ⟨hd, hs⟩ := not_or.mp (List.mem_cons.not.mp h)
    rw [List.cons_append, splitAt?, if_neg (Ne.symm hd), ih hs]
    rfl

@[simp] theorem splitAt?_eq_none (h : c ∉ s) : splitAt? c s = none := by
  induction s with
  | nil => rfl
  | cons d s ih =>
    obtain ⟨hd, hs⟩ := not_or.mp (List.mem_cons.not.mp h)
    rw [splitAt?, if_neg (Ne.symm hd), ih hs]
    rfl

end Split

section Decimal

/-- A digit is read as what it was written for. -/
theorem digitChar_spec {d : ℕ} (hd : d < 10) : isDigit (digitChar d) = true ∧
    (digitChar d).toNat - 48 = d := by
  revert d
  decide

theorem isDigit_toString {n : ℕ} {c : Char} (hc : c ∈ toString n) : isDigit c = true := by
  rw [toString] at hc
  split_ifs at hc
  · obtain rfl := List.mem_singleton.mp hc
    rfl
  · obtain ⟨d, hd, rfl⟩ := List.mem_map.mp hc
    exact (digitChar_spec (numeral_lt (by decide) hd)).1

theorem toString_ne_nil (n : ℕ) : toString n ≠ [] := by
  rw [toString]
  split_ifs with hn
  · simp
  · simpa using numeral_ne_nil hn

/-- A number is the value of its digits. -/
theorem value_toString (n : ℕ) : value 10 ((toString n).map fun c => c.toNat - 48) = n := by
  rw [toString]
  split_ifs with hn
  · subst hn
    rfl
  · rw [List.map_map]
    have hdigits : (numeral 10 n).map ((fun c : Char => c.toNat - 48) ∘ digitChar) =
        numeral 10 n := by
      conv_rhs => rw [← List.map_id (numeral 10 n)]
      apply List.map_congr_left
      intro d hd
      exact (digitChar_spec (numeral_lt (by decide) hd)).2
    rw [hdigits, value_numeral]

/-- What was written of an int is read back. -/
theorem stoi_toString {n : ℕ} (hn : n < 2 ^ 31) : stoi (toString n) = some (n : ℤ) := by
  obtain ⟨c, s, hs⟩ := List.exists_cons_of_ne_nil (toString_ne_nil n)
  have hall : ∀ d ∈ c :: s, isDigit d = true := by
    intro d hd
    exact isDigit_toString (hs ▸ hd)
  have hc := hall c (by simp)
  have hspace : (c :: s).dropWhile isSpace = c :: s := by
    apply List.dropWhile_cons_of_neg
    simp only [isDigit, isSpace, Bool.and_eq_true, Bool.or_eq_true, decide_eq_true_eq] at hc ⊢
    omega
  have hsign : ∀ d : Char, isDigit d = false → (c :: s).head? ≠ some d := by
    intro d hd heq
    obtain rfl : c = d := by simpa using heq
    rw [hc] at hd
    cases hd
  have htake : (c :: s).takeWhile isDigit = c :: s := List.takeWhile_eq_self_iff.mpr hall
  have hvalue := value_toString n
  rw [hs] at hvalue
  rw [stoi, hs]
  simp only [hspace, hsign '-' (by decide), hsign '+' (by decide), or_self, if_false, htake, hvalue]
  rw [if_neg]
  simp
  omega

end Decimal

section Hex

theorem fromHexChar_hexChar {d : ℕ} (hd : d < 16) : fromHexChar (hexChar d) = some d := by
  revert d
  decide

theorem hexChar_ne {d : ℕ} (hd : d < 16) : hexChar d ≠ 'x' ∧ hexChar d ≠ '@' := by
  revert d
  decide

theorem length_toHex (b : Bytes) : (toHex b).length = 2 * b.length := by
  induction b with
  | nil => rfl
  | cons x b ih =>
    rw [toHex, List.flatMap_cons, List.length_append, ← toHex, ih]
    simp
    omega

theorem mem_toHex {b : Bytes} {c : Char} (hc : c ∈ toHex b) : ∃ d < 16, c = hexChar d := by
  obtain ⟨x, -, hx⟩ := List.mem_flatMap.mp hc
  have hlt := x.toNat_lt
  simp only [List.mem_cons, List.not_mem_nil, or_false] at hx
  rcases hx with rfl | rfl
  · exact ⟨x.toNat / 16, by omega, rfl⟩
  · exact ⟨x.toNat % 16, by omega, rfl⟩

theorem fromHexPairs_toHex (b : Bytes) : fromHexPairs (toHex b) = some b := by
  induction b with
  | nil => rfl
  | cons x b ih =>
    have hlt := x.toNat_lt
    have hx : x.toNat / 16 * 16 + x.toNat % 16 = x.toNat := by omega
    rw [toHex, List.flatMap_cons, ← toHex]
    simp only [List.cons_append, List.nil_append, fromHexPairs]
    rw [fromHexChar_hexChar (by omega), fromHexChar_hexChar (by omega), ih]
    simp [-UInt8.ofNat_add, -UInt8.ofNat_mul, hx]

/-- The digits of bytes have no prefix and are read back as the bytes. -/
@[simp] theorem fromHex?_toHex (b : Bytes) : fromHex? (toHex b) = some b := by
  have hprefix : (toHex b).take 2 ≠ ['0', 'x'] := by
    intro h
    have hmem : 'x' ∈ toHex b := List.mem_of_mem_take (show 'x' ∈ (toHex b).take 2 by simp [h])
    obtain ⟨d, hd, hx⟩ := mem_toHex hmem
    exact (hexChar_ne hd).1 hx.symm
  have heven : (toHex b).length % 2 = 0 := by
    rw [length_toHex]
    omega
  rw [fromHex?]
  simp only [if_neg hprefix, if_pos heven]
  exact fromHexPairs_toHex b

@[simp] theorem fromHex_toHex (b : Bytes) : fromHex (toHex b) = b := by simp [fromHex]

end Hex

end Text
end XChain
