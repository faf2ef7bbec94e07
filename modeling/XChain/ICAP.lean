import Mathlib.Data.Int.ModEq
import XChain.Common
import XChain.Text

/-!
# Inter exchange client addresses

An address of the chain written as an account number: a country, two check digits, and the
address as a number in base 36 or the names of an asset, an institution and a client. The check
digits make the number that all characters stand for one more than a multiple of 97.
-/
namespace XChain

open Positional

namespace ICAP

/-- The value of a character, of which there are 256; their type is signed. -/
def charValue (c : Char) : ℤ := if c.toNat < 128 then c.toNat else (c.toNat : ℤ) - 256

def to_upper (s : Text) : Text := s.map Char.toUpper

/-- The number that the characters stand for, a letter with two digits. -/
def total (s : Text) : ℤ :=
  s.foldl (fun tot x =>
    if 65 ≤ charValue x then tot * 100 + charValue x - 65 + 10
    else tot * 10 + charValue x - 48) 0

/-- A number of at least two digits. -/
def setw2 (n : ℕ) : Text := List.replicate (2 - (Text.toString n).length) '0' ++ Text.toString n

/-- The check digits of a country and data, both in upper case. -/
def checkDigits (c d : Text) : Text :=
  let tot := total (d ++ c ++ ['0', '0'])
  setw2 (98 - tot.tmod 97).toNat

def iban (c d : Text) : Text :=
  let c := to_upper c
  let d := to_upper d
  c ++ checkDigits c d ++ d

/-- The country and the data. Both are empty if the check digits are wrong. -/
def fromIBAN (s : Text) : Text × Text :=
  if s.length < 4 then ([], [])
  else
    let s := to_upper s
    let c := s.take 2
    let d := s.drop 4
    if iban c d ≠ s then ([], []) else (c, d)

def base36Alphabet : Text :=
  ['0', '1', '2', '3', '4', '5', '6', '7', '8', '9', 'A', 'B', 'C', 'D', 'E', 'F', 'G', 'H', 'I',
    'J', 'K', 'L', 'M', 'N', 'O', 'P', 'Q', 'R', 'S', 'T', 'U', 'V', 'W', 'X', 'Y', 'Z']

/-- The digits of a value, of which zero has none. -/
def toBase36 {w : ℕ} (a : BitVec w) : Text :=
  (numeral 36 a.toNat).map fun r => base36Alphabet.getD r '0'

/-- Numbers of this size wrap around. -/
def fromBase36 (w : ℕ) (s : Text) : BitVec w :=
  s.foldl (fun ret c =>
    BitVec.ofInt w (ret.toNat * 36 +
      if charValue c < 65 then charValue c - 48 else charValue c - 65 + 10)) 0

/-- Characters of names. -/
def nameChars : Text :=
  ['q', 'w', 'e', 'r', 't', 'y', 'u', 'i', 'o', 'p', 'a', 's', 'd', 'f', 'g', 'h', 'j', 'k', 'l',
    'z', 'x', 'c', 'v', 'b', 'n', 'm', 'Q', 'W', 'E', 'R', 'T', 'Y', 'U', 'I', 'O', 'P', 'A', 'S',
    'D', 'F', 'G', 'H', 'J', 'K', 'L', 'Z', 'X', 'C', 'V', 'B', 'N', 'M', '1', '2', '3', '4', '5',
    '6', '7', '8', '9', '0']

def isName (s : Text) : Prop := ∀ c ∈ s, c ∈ nameChars

instance (s : Text) : Decidable (isName s) :=
  decidable_of_iff (s.all fun c => decide (c ∈ nameChars)) (by simp [isName])

/-- Kinds of addresses. -/
inductive Kind where
  | Invalid
  | Direct
  | Indirect
  deriving DecidableEq

end ICAP

open ICAP in
structure ICAP where
  m_type : Kind := .Invalid
  m_direct : Address := 0
  m_client : Text := []
  m_institution : Text := []
  m_asset : Text := []

namespace ICAP

def ofTarget (target : Address) : ICAP := { m_type := .Direct, m_direct := target }

def ofNames (c i a : Text) : ICAP where
  m_type := .Indirect
  m_client := to_upper c
  m_institution := to_upper i
  m_asset := to_upper a

def XET : Text := ['X', 'E', 'T']

def ETH : Text := ['E', 'T', 'H']

/-- Reads an address, or throws `InvalidICAP`. -/
def decoded (encoded : Text) : Option ICAP :=
  let r := fromIBAN encoded
  if r.1 ≠ ['X', 'E'] then none
  else if r.2.length = 30 ∨ r.2.length = 31 then
    some { m_type := .Direct, m_direct := fromBase36 160 r.2 }
  else if r.2.length = 16 then
    if r.2.take 3 = XET ∨ r.2.take 3 = ETH then
      some { m_type := .Indirect, m_asset := r.2.take 3, m_institution := (r.2.drop 3).take 4,
             m_client := r.2.drop 7 }
    else none
  else none

/-- Writes an address, or throws `InvalidICAP`. -/
def encoded (x : ICAP) : Option Text :=
  match x.m_type with
  | .Direct =>
    let d := toBase36 x.m_direct
    some (iban ['X', 'E'] (List.replicate (30 - d.length) '0' ++ d))
  | .Indirect =>
    if ¬ isName x.m_asset ∨ ¬ isName x.m_institution ∨ ¬ isName x.m_client ∨
        x.m_asset.length ≠ 3 ∨ (to_upper x.m_asset ≠ XET ∧ to_upper x.m_asset ≠ ETH) ∨
        x.m_institution.length ≠ 4 ∨ x.m_client.length ≠ 9 then none
    else some (iban ['X', 'E'] (x.m_asset ++ x.m_institution ++ x.m_client))
  | .Invalid => none

section Characters

theorem toNat_toUpper_of_lower {c : Char} (h : 'a'.val ≤ c.val ∧ c.val ≤ 'z'.val) :
    c.toUpper.toNat = c.toNat - 32 := by
  have hshift : ('A'.val - 'a'.val).toNat = 2 ^ 32 - 32 := by decide
  obtain ⟨hvalid, hup⟩ : ∃ hvalid, c.toUpper = ⟨c.val + ('A'.val - 'a'.val), hvalid⟩ :=
    ⟨_, dif_pos h⟩
  have hval : c.toUpper.toNat = (c.val + ('A'.val - 'a'.val)).toNat := by
    rw [hup]
    rfl
  have hle : 97 ≤ c.toNat := h.1
  have hle' : c.toNat ≤ 122 := h.2
  rw [hval, UInt32.toNat_add, hshift, Char.toNat_val]
  omega

theorem toUpper_of_not_lower {c : Char} (h : ¬ ('a'.val ≤ c.val ∧ c.val ≤ 'z'.val)) :
    c.toUpper = c :=
  dif_neg h

@[simp] theorem toUpper_toUpper (c : Char) : c.toUpper.toUpper = c.toUpper := by
  by_cases h : 'a'.val ≤ c.val ∧ c.val ≤ 'z'.val
  · have hval := toNat_toUpper_of_lower h
    apply toUpper_of_not_lower
    rintro ⟨hle, -⟩
    have hle' : 97 ≤ c.toUpper.toNat := hle
    have hz : c.toNat ≤ 122 := h.2
    omega
  · rw [toUpper_of_not_lower h, toUpper_of_not_lower h]

@[simp] theorem to_upper_to_upper (s : Text) : to_upper (to_upper s) = to_upper s := by
  simp [to_upper]

@[simp] theorem length_to_upper (s : Text) : (to_upper s).length = s.length := by simp [to_upper]

@[simp] theorem to_upper_append (s t : Text) : to_upper (s ++ t) = to_upper s ++ to_upper t := by
  simp [to_upper]

theorem to_upper_take (n : ℕ) (s : Text) : to_upper (s.take n) = (to_upper s).take n :=
  List.map_take

theorem to_upper_drop (n : ℕ) (s : Text) : to_upper (s.drop n) = (to_upper s).drop n :=
  List.map_drop

theorem to_upper_eq_self {s : Text} (h : ∀ c ∈ s, c.toUpper = c) : to_upper s = s := by
  rw [to_upper]
  conv_rhs => rw [← List.map_id s]
  exact List.map_congr_left h

/-- A digit is what it was written for, also among the digits of base 36. -/
theorem base36_spec {r : ℕ} (hr : r < 36) :
    (base36Alphabet.getD r '0').toUpper = base36Alphabet.getD r '0' ∧
      (base36Alphabet.getD r '0') ∈ nameChars ∧
      (if charValue (base36Alphabet.getD r '0') < 65
        then charValue (base36Alphabet.getD r '0') - 48
        else charValue (base36Alphabet.getD r '0') - 65 + 10) = r := by
  revert r
  decide

/-- No character of a name counts less than zero, in upper case either. -/
theorem name_spec {c : Char} (hc : c ∈ nameChars) :
    48 ≤ charValue c.toUpper ∧ c.toUpper ∈ nameChars := by
  have hall : nameChars.all fun c =>
      decide (48 ≤ charValue c.toUpper ∧ c.toUpper ∈ nameChars) := by decide
  exact of_decide_eq_true (List.all_eq_true.mp hall c hc)

theorem digitChar_spec {r : ℕ} (hr : r < 10) :
    charValue (Text.digitChar r) = 48 + r ∧ (Text.digitChar r).toUpper = Text.digitChar r := by
  revert r
  decide

end Characters

section Checksum

theorem total_concat (s : Text) (c : Char) :
    total (s ++ [c]) = if 65 ≤ charValue c then total s * 100 + charValue c - 65 + 10
      else total s * 10 + charValue c - 48 := by
  rw [total, List.foldl_concat, ← total]

theorem total_nonneg {s : Text} (h : ∀ c ∈ s, 48 ≤ charValue c) : 0 ≤ total s := by
  induction s using List.reverseRecOn with
  | nil => simp [total]
  | append_singleton s c ih =>
    have hs := ih fun x hx => h x (List.mem_append_left _ hx)
    have hc := h c (by simp)
    rw [total_concat]
    split_ifs <;> omega

/-- Two digits behind the rest. -/
theorem total_digits (s : Text) {n : ℕ} (hn : n < 100) :
    total (s ++ [Text.digitChar (n / 10), Text.digitChar (n % 10)]) = total s * 100 + n := by
  have hfirst := (digitChar_spec (r := n / 10) (by omega)).1
  have hsecond := (digitChar_spec (r := n % 10) (by omega)).1
  have hsplit : s ++ [Text.digitChar (n / 10), Text.digitChar (n % 10)] =
      s ++ [Text.digitChar (n / 10)] ++ [Text.digitChar (n % 10)] := by simp
  rw [hsplit, total_concat, total_concat, hfirst, hsecond, if_neg (by omega), if_neg (by omega)]
  omega

theorem total_zeros (s : Text) : total (s ++ ['0', '0']) = total s * 100 := by
  have hzero : Text.digitChar 0 = '0' := rfl
  simpa [hzero] using total_digits s (n := 0) (by omega)

theorem setw2_of_lt {n : ℕ} (hn : n < 100) :
    setw2 n = [Text.digitChar (n / 10), Text.digitChar (n % 10)] := by
  revert n
  decide

theorem length_setw2 {n : ℕ} (hn : 100 ≤ n) : 3 ≤ (setw2 n).length := by
  have hlen : ¬ (numeral 10 n).length ≤ 2 := by
    rw [length_numeral_le_iff (by omega)]
    omega
  have hne : n ≠ 0 := by omega
  simp [setw2, Text.toString, hne]
  omega

/-- The check digits of characters that count are two. -/
theorem check_bounds {tot : ℤ} (h : 0 ≤ tot) : (98 - tot.tmod 97).toNat < 100 := by
  have hmod := Int.tmod_nonneg 97 h
  omega

/-- A number with its check digits. -/
theorem total_check (s : Text) (h : (98 - (total s * 100).tmod 97).toNat < 100) :
    total (s ++ setw2 (98 - (total s * 100).tmod 97).toNat) % 97 = 1 := by
  have hlt := Int.tmod_lt_of_pos (total s * 100) (b := 97) (by omega)
  have hdiv := Int.mul_tdiv_add_tmod (total s * 100) 97
  rw [setw2_of_lt h, total_digits _ h]
  omega

end Checksum

section Numbers

variable {c d s : Text}

/-- The parts of an account number. -/
def country (s : Text) : Text := (to_upper s).take 2

def digits (s : Text) : Text := ((to_upper s).drop 2).take 2

def data (s : Text) : Text := (to_upper s).drop 4

theorem parts (s : Text) : country s ++ digits s ++ data s = to_upper s := by
  have hrest : digits s ++ data s = (to_upper s).drop 2 := by
    have hdrop : data s = ((to_upper s).drop 2).drop 2 := by rw [data, List.drop_drop]
    rw [hdrop, digits, List.take_append_drop]
  rw [List.append_assoc, hrest, country, List.take_append_drop]

@[simp] theorem to_upper_country : to_upper (country s) = country s := by
  rw [country, to_upper_take, to_upper_to_upper]

@[simp] theorem to_upper_data : to_upper (data s) = data s := by
  rw [data, to_upper_drop, to_upper_to_upper]

theorem fromIBAN_eq (s : Text) : fromIBAN s = if s.length < 4 then ([], [])
    else if iban (country s) (data s) ≠ to_upper s then ([], []) else (country s, data s) := rfl

/-- A number that is not refused has the check digits of its country and data. -/
theorem digits_of_accepted (h : fromIBAN s ≠ ([], [])) : digits s = checkDigits (country s) (data s)
    ∧ (checkDigits (country s) (data s)).length = 2 := by
  rw [fromIBAN_eq] at h
  split_ifs at h with hlen hiban
  · exact absurd rfl h
  · exact absurd rfl h
  rw [not_not] at hiban
  have hlen' : (digits s).length = 2 := by
    simp [digits]
    omega
  have hsame : digits s = checkDigits (country s) (data s) := by
    rw [iban, to_upper_country, to_upper_data, ← parts s] at hiban
    simpa using hiban.symm
  exact ⟨hsame, hsame ▸ hlen'⟩

/-- A number with other check digits is refused. -/
theorem fromIBAN_of_digits_ne (h : digits s ≠ checkDigits (country s) (data s)) :
    fromIBAN s = ([], []) := by
  by_contra haccepted
  exact h (digits_of_accepted haccepted).1

/-- A number that is not one more than a multiple of 97 is refused. -/
theorem fromIBAN_of_total_ne (h : total (data s ++ country s ++ digits s) % 97 ≠ 1) :
    fromIBAN s = ([], []) := by
  by_contra haccepted
  obtain ⟨hsame, hlen⟩ := digits_of_accepted haccepted
  apply h
  rw [hsame]
  simp only [checkDigits, total_zeros] at hlen ⊢
  apply total_check
  by_contra hlarge
  have hlong := length_setw2 (not_lt.mp hlarge)
  omega

theorem charValue_of_name (h : isName s) : ∀ x ∈ to_upper s, 48 ≤ charValue x := by
  intro x hx
  obtain ⟨y, hy, rfl⟩ := List.mem_map.mp hx
  exact (name_spec (h y hy)).1

/-- Characters of names have two check digits. -/
theorem checkDigits_of_name (hc : isName c) (hd : isName d) : ∃ n < 100,
    checkDigits (to_upper c) (to_upper d) = [Text.digitChar (n / 10), Text.digitChar (n % 10)] := by
  have hnonneg : 0 ≤ total (to_upper d ++ to_upper c ++ ['0', '0']) := by
    apply total_nonneg
    intro x hx
    simp only [List.mem_append] at hx
    rcases hx with (hx | hx) | hx
    · exact charValue_of_name hd x hx
    · exact charValue_of_name hc x hx
    · obtain rfl : x = '0' := by simpa using hx
      decide
  exact ⟨_, check_bounds hnonneg, setw2_of_lt (check_bounds hnonneg)⟩

/-- What is written is read back in upper case. -/
theorem fromIBAN_iban (hlen : c.length = 2) (hc : isName c) (hd : isName d) :
    fromIBAN (iban c d) = (to_upper c, to_upper d) := by
  obtain ⟨n, hn, hdigits⟩ := checkDigits_of_name hc hd
  have hsplit : iban c d = to_upper c ++ [Text.digitChar (n / 10), Text.digitChar (n % 10)] ++
      to_upper d := by rw [iban, hdigits]
  have hupper : to_upper (iban c d) = iban c d := by
    have hpair : to_upper [Text.digitChar (n / 10), Text.digitChar (n % 10)] =
        [Text.digitChar (n / 10), Text.digitChar (n % 10)] := by
      simp [to_upper, (digitChar_spec (r := n / 10) (by omega)).2,
        (digitChar_spec (r := n % 10) (by omega)).2]
    rw [hsplit, to_upper_append, to_upper_append, hpair, to_upper_to_upper, to_upper_to_upper]
  have hlen4 : ¬ (iban c d).length < 4 := by
    rw [hsplit]
    simp
    omega
  have htake : (iban c d).take 2 = to_upper c := by
    rw [hsplit, List.append_assoc]
    exact List.take_left' (by simpa using hlen)
  have hdrop : (iban c d).drop 4 = to_upper d := by
    rw [hsplit]
    exact List.drop_left' (by simp [hlen])
  have hsame : iban (to_upper c) (to_upper d) = iban c d := by
    rw [iban, to_upper_to_upper, to_upper_to_upper, iban]
  simp [fromIBAN, hlen4, hupper, htake, hdrop, hsame]

end Numbers

section Direct

variable {w : ℕ}

theorem length_toBase36 (a : BitVec w) : (toBase36 a).length = (numeral 36 a.toNat).length := by
  simp [toBase36]

theorem fromBase36_concat (s : Text) (c : Char) : fromBase36 w (s ++ [c]) =
    BitVec.ofInt w ((fromBase36 w s).toNat * 36 +
      if charValue c < 65 then charValue c - 48 else charValue c - 65 + 10) := by
  rw [fromBase36, List.foldl_concat, ← fromBase36]

/-- Digits are read as the value that they stand for, as far as it fits. -/
theorem fromBase36_digits {l : List ℕ} (h : ∀ r ∈ l, r < 36) :
    fromBase36 w (l.map fun r => base36Alphabet.getD r '0') = BitVec.ofNat w (value 36 l) := by
  induction l using List.reverseRecOn with
  | nil => simp [fromBase36]
  | append_singleton l r ih =>
    have hl := ih fun x hx => h x (List.mem_append_left _ hx)
    have hr := (base36_spec (h r (by simp))).2.2
    rw [List.map_append, List.map_cons, List.map_nil, fromBase36_concat, hl, hr, value_concat]
    have hnat : ((BitVec.ofNat w (value 36 l)).toNat * 36 + r : ℤ) =
        (((BitVec.ofNat w (value 36 l)).toNat * 36 + r : ℕ) : ℤ) := by norm_cast
    rw [hnat, BitVec.ofInt_natCast]
    apply BitVec.eq_of_toNat_eq
    simp [Nat.add_mod, Nat.mul_mod]

/-- A value is read back, whatever zeros stand in front of it. -/
theorem fromBase36_toBase36 (k : ℕ) (a : BitVec w) :
    fromBase36 w (List.replicate k '0' ++ toBase36 a) = a := by
  have hzeros : List.replicate k '0' ++ toBase36 a =
      (List.replicate k 0 ++ numeral 36 a.toNat).map fun r => base36Alphabet.getD r '0' := by
    simp [toBase36, base36Alphabet]
  rw [hzeros, fromBase36_digits, value_zeros, value_numeral, BitVec.ofNat_toNat, BitVec.setWidth_eq]
  intro r hr
  rcases List.mem_append.mp hr with hr | hr
  · have hzero := List.eq_of_mem_replicate hr
    omega
  · exact numeral_lt (by omega) hr

theorem base36_of_mem {a : BitVec w} {k : ℕ} {c : Char}
    (hc : c ∈ List.replicate k '0' ++ toBase36 a) : c.toUpper = c ∧ c ∈ nameChars := by
  rcases List.mem_append.mp hc with hc | hc
  · rw [List.eq_of_mem_replicate hc]
    decide
  · obtain ⟨r, hr, rfl⟩ := List.mem_map.mp hc
    have hspec := base36_spec (numeral_lt (by omega) hr)
    exact ⟨hspec.1, hspec.2.1⟩

/-- Every address has 30 or 31 digits, and is read back. -/
theorem decoded_direct (a : Address) :
    ∃ s, (ofTarget a).encoded = some s ∧ decoded s = some (ofTarget a) := by
  let d := List.replicate (30 - (toBase36 a).length) '0' ++ toBase36 a
  have hlen : d.length = 30 ∨ d.length = 31 := by
    have hle : (toBase36 a).length ≤ 31 := by
      rw [length_toBase36, length_numeral_le_iff (by omega)]
      exact a.isLt.trans (by norm_num)
    simp only [d, List.length_append, List.length_replicate]
    omega
  have hupper : to_upper d = d := to_upper_eq_self fun c hc => (base36_of_mem hc).1
  have hread : fromIBAN (iban ['X', 'E'] d) = (['X', 'E'], d) := by
    rw [fromIBAN_iban (by simp) (by decide) fun c hc => (base36_of_mem hc).2, hupper]
    rfl
  have hvalue : fromBase36 160 d = a := fromBase36_toBase36 _ a
  refine ⟨iban ['X', 'E'] d, by simp [encoded, ofTarget, d], ?_⟩
  simp only [decoded, hread, if_pos hlen, hvalue]
  simp [ofTarget]

end Direct

section Indirect

/-- A client at an institution, with an asset that is known. -/
structure Names where
  asset : Text
  institution : Text
  client : Text
  known : asset = XET ∨ asset = ETH
  institution_name : isName institution
  client_name : isName client
  institution_upper : to_upper institution = institution
  client_upper : to_upper client = client
  institution_length : institution.length = 4
  client_length : client.length = 9

def Names.toICAP (n : Names) : ICAP := ofNames n.client n.institution n.asset

variable (n : Names)

theorem Names.asset_spec : isName n.asset ∧ to_upper n.asset = n.asset ∧ n.asset.length = 3 := by
  rcases n.known with h | h
  all_goals
    rw [h]
    decide

theorem Names.encoded_eq : n.toICAP.encoded =
    some (iban ['X', 'E'] (n.asset ++ n.institution ++ n.client)) := by
  obtain ⟨hname, hupper, hlen⟩ := n.asset_spec
  have hok : ¬ (¬ isName n.asset ∨ ¬ isName n.institution ∨ ¬ isName n.client ∨
      n.asset.length ≠ 3 ∨ (n.asset ≠ XET ∧ n.asset ≠ ETH) ∨ n.institution.length ≠ 4 ∨
      n.client.length ≠ 9) := by
    simp [hname, n.institution_name, n.client_name, hlen, n.institution_length, n.client_length]
    exact or_iff_not_imp_left.mp n.known
  simp only [encoded, toICAP, ofNames, hupper, n.institution_upper, n.client_upper, if_neg hok]

/-- Names are read back from their places. -/
theorem Names.decoded_names : ∃ s, n.toICAP.encoded = some s ∧ decoded s = some n.toICAP := by
  obtain ⟨hname, hupper, hlen⟩ := n.asset_spec
  have hnames : isName (n.asset ++ n.institution ++ n.client) := by
    intro c hc
    simp only [List.mem_append] at hc
    rcases hc with (hc | hc) | hc
    · exact hname c hc
    · exact n.institution_name c hc
    · exact n.client_name c hc
  have hread : fromIBAN (iban ['X', 'E'] (n.asset ++ n.institution ++ n.client)) =
      (['X', 'E'], n.asset ++ n.institution ++ n.client) := by
    rw [fromIBAN_iban (by simp) (by decide) hnames, to_upper_append, to_upper_append, hupper,
      n.institution_upper, n.client_upper]
    rfl
  have hlength : (n.asset ++ n.institution ++ n.client).length = 16 := by
    simp [hlen, n.institution_length, n.client_length]
  have hasset : (n.asset ++ n.institution ++ n.client).take 3 = n.asset := by
    rw [List.append_assoc]
    exact List.take_left' hlen
  have hinstitution : ((n.asset ++ n.institution ++ n.client).drop 3).take 4 = n.institution := by
    rw [List.append_assoc, List.drop_left' hlen]
    exact List.take_left' n.institution_length
  have hclient : (n.asset ++ n.institution ++ n.client).drop 7 = n.client := by
    apply List.drop_left'
    simp [hlen, n.institution_length]
  refine ⟨_, n.encoded_eq, ?_⟩
  simp only [decoded, hread, hlength, hasset, hinstitution, hclient]
  simp [n.known, toICAP, ofNames, hupper, n.institution_upper, n.client_upper]

end Indirect

/-- Addresses are read back from what is written, and numbers with wrong check digits are
refused. -/
theorem decoded_encoded :
    (∀ a, ∃ s, (ofTarget a).encoded = some s ∧ decoded s = some (ofTarget a)) ∧
      (∀ n : Names, ∃ s, n.toICAP.encoded = some s ∧ decoded s = some n.toICAP) ∧
      (∀ c d, c.length = 2 → isName c → isName d →
        fromIBAN (iban c d) = (to_upper c, to_upper d)) ∧
      ∀ s, digits s ≠ checkDigits (country s) (data s) ∨
        total (data s ++ country s ++ digits s) % 97 ≠ 1 → fromIBAN s = ([], []) := by
  refine ⟨decoded_direct, Names.decoded_names, fun c d hlen hc hd => fromIBAN_iban hlen hc hd, ?_⟩
  rintro s (h | h)
  · exact fromIBAN_of_digits_ne h
  · exact fromIBAN_of_total_ne h

end ICAP
end XChain
