import Mathlib.Data.Nat.Digits.Lemmas

/-!
# Recursive length prefix encoding

The standard encoding of nested byte strings, with its decoder. A string or a
list shorter than 56 bytes carries its length in the first byte, a longer one
is preceded by the big-endian digits of its length and the number of those
digits. The standard stops at lengths of eight digits; longer ones are written
with a unary digit count behind an otherwise unused header, so that encoding is
total and decoding inverts it on every item.
-/
namespace XChain

abbrev Bytes := List UInt8

/-- A byte string or a list of items. -/
inductive Item where
  | data (b : Bytes)
  | list (l : List Item)

namespace Rlp

/-- Big-endian base-256 digits, without a leading zero. -/
def bigEndian (n : ℕ) : Bytes := ((Nat.digits 256 n).map UInt8.ofNat).reverse

def ofBigEndian (b : Bytes) : ℕ := Nat.ofDigits 256 (b.reverse.map UInt8.toNat)

@[simp] theorem ofBigEndian_bigEndian (n : ℕ) : ofBigEndian (bigEndian n) = n := by
  have h : ((Nat.digits 256 n).map UInt8.ofNat).map UInt8.toNat = Nat.digits 256 n := by
    rw [List.map_map]
    refine (List.map_congr_left fun d hd => ?_).trans (List.map_id _)
    have hlt : d < 256 := Nat.digits_lt_base (by omega) hd
    simp only [Function.comp_apply, UInt8.toNat_ofNat', id_eq]
    omega
  rw [ofBigEndian, bigEndian, List.reverse_reverse, h, Nat.ofDigits_digits]

lemma bigEndian_head_ne (n : ℕ) (hn : n ≠ 0) : (bigEndian n).head? ≠ some 0 := by
  have hne : Nat.digits 256 n ≠ [] := Nat.digits_ne_nil_iff_ne_zero.mpr hn
  have hlast := Nat.getLast_digit_ne_zero 256 hn
  have hlt : (Nat.digits 256 n).getLast hne < 256 :=
    Nat.digits_lt_base (by omega) (List.getLast_mem hne)
  rw [bigEndian, List.head?_reverse, List.getLast?_map, List.getLast?_eq_getLast_of_ne_nil hne]
  simp only [Option.map_some, ne_eq, Option.some.injEq]
  intro h
  have := congrArg UInt8.toNat h
  simp only [UInt8.toNat_ofNat', UInt8.toNat_zero] at this
  omega

lemma bigEndian_ne_nil (n : ℕ) (hn : n ≠ 0) : bigEndian n ≠ [] := by
  simp [bigEndian, Nat.digits_ne_nil_iff_ne_zero.mpr hn]

/-- The header of a payload of `n` bytes; `base` is `0x80` for strings and
`0xc0` for lists. -/
def header (base : UInt8) (n : ℕ) : Bytes :=
  if n < 56 then [base + UInt8.ofNat n]
  else
    let d := bigEndian n
    if d.length ≤ 8 then (base + 55 + UInt8.ofNat d.length) :: d
    else (base + 56) :: 0 :: (List.replicate d.length 1 ++ 0 :: d)

mutual
def encode : Item → Bytes
  | .data [x] => if x < 0x80 then [x] else header 0x80 1 ++ [x]
  | .data b => header 0x80 b.length ++ b
  | .list l => header 0xc0 (encodeAll l).length ++ encodeAll l
def encodeAll : List Item → Bytes
  | [] => []
  | x :: xs => encode x ++ encodeAll xs
end

/-- Reads a length of `k` digits, or one in the long unary form. -/
def readLength (k : ℕ) (b : Bytes) : Option (ℕ × Bytes) :=
  if k = 1 ∧ b.head? = some 0 then
    let d := ((b.drop 1).takeWhile (· == 1)).length
    let rest := b.drop (d + 2)
    if d ≤ rest.length then some (ofBigEndian (rest.take d), rest.drop d) else none
  else if k ≤ b.length then some (ofBigEndian (b.take k), b.drop k)
  else none

/-- Splits off the payload announced by a header byte at or above `base`. -/
def readPayload (base p : UInt8) (b : Bytes) : Option (Bytes × Bytes) :=
  let n := (p - base).toNat
  if n < 56 then
    if n ≤ b.length then some (b.take n, b.drop n) else none
  else
    match readLength (n - 55) b with
    | none => none
    | some (m, rest) => if m ≤ rest.length then some (rest.take m, rest.drop m) else none

mutual
/-- Reads one item and returns the bytes behind it. -/
def decodeItem : ℕ → Bytes → Option (Item × Bytes)
  | 0, _ => none
  | _ + 1, [] => none
  | fuel + 1, p :: b =>
    if p < 0x80 then some (.data [p], b)
    else if p < 0xc0 then
      (readPayload 0x80 p b).map fun r => (.data r.1, r.2)
    else
      match readPayload 0xc0 p b with
      | none => none
      | some (payload, rest) => (decodeItems fuel payload).map fun l => (.list l, rest)
def decodeItems : ℕ → Bytes → Option (List Item)
  | _, [] => some []
  | 0, _ :: _ => none
  | fuel + 1, p :: b =>
    match decodeItem fuel (p :: b) with
    | none => none
    | some (x, rest) => (decodeItems fuel rest).map (x :: ·)
end

/-- Decodes a byte string that holds exactly one item. -/
def decode (b : Bytes) : Option Item :=
  match decodeItem (2 * b.length) b with
  | some (x, []) => some x
  | _ => none

lemma header_ne_nil (base : UInt8) (n : ℕ) : header base n ≠ [] := by
  unfold header
  by_cases hn : n < 56
  · simp [hn]
  · rw [if_neg hn]
    dsimp only
    split_ifs <;> simp

theorem encode_ne_nil (x : Item) : encode x ≠ [] := by
  match x with
  | .data [] => simp [encode, header_ne_nil]
  | .data [x] => simp only [encode]; split_ifs <;> simp
  | .data (_ :: _ :: _) => simp [encode, header_ne_nil]
  | .list _ => simp [encode, header_ne_nil]

@[simp] theorem encode_empty : encode (.data []) = [0x80] := by decide

/-- A length in the unary form is read back. -/
lemma readLength_unary (d rest : Bytes) :
    readLength 1 (0 :: (List.replicate d.length 1 ++ 0 :: (d ++ rest))) =
      some (ofBigEndian d, rest) := by
  have htake : ((List.replicate d.length 1 ++ 0 :: (d ++ rest)).takeWhile
      (· == (1 : UInt8))).length = d.length := by
    rw [List.takeWhile_append_of_pos]
    · simp
    · intro x hx
      simp [List.eq_of_mem_replicate hx]
  have hdrop : (0 :: (List.replicate d.length 1 ++ 0 :: (d ++ rest))).drop (d.length + 2) =
      d ++ rest := by
    simp [List.drop_append]
  simp only [readLength, List.head?_cons, and_self, if_true, List.drop_succ_cons, List.drop_zero,
    htake]
  simp only [List.drop_succ_cons] at hdrop
  simp [hdrop]

/-- The header is read back, whatever follows the payload. -/
theorem readPayload_header (base : UInt8) (hb : base = 0x80 ∨ base = 0xc0) (b rest : Bytes) :
    ∃ p tail, header base b.length = p :: tail ∧ base ≤ p ∧ (base = 0x80 → p < 0xc0) ∧
      readPayload base p (tail ++ b ++ rest) = some (b, rest) := by
  have hbase : base.toNat = 128 ∨ base.toNat = 192 := by
    rcases hb with rfl | rfl
    · exact Or.inl rfl
    · exact Or.inr rfl
  have hbase' : base = 0x80 → base.toNat = 128 := by rintro rfl; rfl
  unfold header
  by_cases hshort : b.length < 56
  · refine ⟨base + UInt8.ofNat b.length, [], by simp [hshort], ?_, ?_, ?_⟩
    · rw [UInt8.le_iff_toNat_le, UInt8.toNat_add, UInt8.toNat_ofNat']
      omega
    · intro h
      have := hbase' h
      rw [UInt8.lt_iff_toNat_lt, UInt8.toNat_add, UInt8.toNat_ofNat']
      change _ < 192
      omega
    · have hn : (base + UInt8.ofNat b.length - base).toNat = b.length := by
        simp only [UInt8.toNat_sub, UInt8.toNat_add, UInt8.toNat_ofNat']
        omega
      simp only [readPayload, hn, if_pos hshort]
      simp
  · have hpos : b.length ≠ 0 := by omega
    have hd0 := bigEndian_ne_nil b.length hpos
    have hdpos : 0 < (bigEndian b.length).length := List.length_pos_of_ne_nil hd0
    by_cases hstd : (bigEndian b.length).length ≤ 8
    · refine ⟨base + 55 + UInt8.ofNat (bigEndian b.length).length, bigEndian b.length,
        by simp [hshort, hstd], ?_, ?_, ?_⟩
      · rw [UInt8.le_iff_toNat_le]
        simp only [UInt8.toNat_add, UInt8.toNat_ofNat', UInt8.reduceToNat]
        omega
      · intro h
        have := hbase' h
        rw [UInt8.lt_iff_toNat_lt]
        simp only [UInt8.toNat_add, UInt8.toNat_ofNat', UInt8.reduceToNat]
        omega
      · have hn : (base + 55 + UInt8.ofNat (bigEndian b.length).length - base).toNat =
            55 + (bigEndian b.length).length := by
          simp only [UInt8.toNat_sub, UInt8.toNat_add, UInt8.toNat_ofNat', UInt8.reduceToNat]
          omega
        have hhead : (bigEndian b.length ++ b ++ rest).head? ≠ some 0 := by
          rw [List.append_assoc, List.head?_append_of_ne_nil _ hd0]
          exact bigEndian_head_ne _ hpos
        have hlen : readLength (bigEndian b.length).length (bigEndian b.length ++ b ++ rest) =
            some (b.length, b ++ rest) := by
          rw [readLength, if_neg (fun h => hhead h.2), List.append_assoc]
          simp
        have hge : ¬ 55 + (bigEndian b.length).length < 56 := by omega
        simp only [readPayload, hn, if_neg hge, Nat.add_sub_cancel_left, hlen]
        simp
    · refine ⟨base + 56, 0 :: (List.replicate (bigEndian b.length).length 1 ++
        0 :: bigEndian b.length), by simp [hshort, hstd], ?_, ?_, ?_⟩
      · rw [UInt8.le_iff_toNat_le]
        simp only [UInt8.toNat_add, UInt8.reduceToNat]
        omega
      · intro h
        have := hbase' h
        rw [UInt8.lt_iff_toNat_lt]
        simp only [UInt8.toNat_add, UInt8.reduceToNat]
        omega
      · have hn : (base + 56 - base).toNat = 56 := by
          simp only [UInt8.toNat_sub, UInt8.toNat_add, UInt8.reduceToNat]
          omega
        have hlen := readLength_unary (bigEndian b.length) (b ++ rest)
        rw [ofBigEndian_bigEndian] at hlen
        have happ : 0 :: (List.replicate (bigEndian b.length).length 1 ++
            0 :: bigEndian b.length) ++ b ++ rest =
            0 :: (List.replicate (bigEndian b.length).length 1 ++
              0 :: (bigEndian b.length ++ (b ++ rest))) := by simp
        rw [happ]
        simp only [readPayload, hn, hlen]
        simp

lemma decodeItem_data (fuel : ℕ) (b rest : Bytes) :
    decodeItem (fuel + 1) (header 0x80 b.length ++ b ++ rest) = some (.data b, rest) := by
  obtain ⟨p, tail, hh, hle, hlt, hread⟩ := readPayload_header 0x80 (Or.inl rfl) b rest
  have h1 : ¬ p < 0x80 := by
    rw [UInt8.lt_iff_toNat_lt]
    rw [UInt8.le_iff_toNat_le] at hle
    omega
  rw [hh]
  simp only [List.cons_append, decodeItem, if_neg h1, if_pos (hlt rfl), hread, Option.map_some]

mutual
theorem decodeItem_encode : ∀ (x : Item) (fuel : ℕ) (rest : Bytes),
    2 * (encode x).length ≤ fuel + 1 → decodeItem fuel (encode x ++ rest) = some (x, rest)
  | x, 0, _, h => by
    have := List.length_pos_of_ne_nil (encode_ne_nil x)
    omega
  | .data [], fuel + 1, rest, _ => decodeItem_data fuel [] rest
  | .data [x], fuel + 1, rest, _ => by
    simp only [encode]
    split_ifs with hx
    · simp [decodeItem, hx]
    · exact decodeItem_data fuel [x] rest
  | .data (x :: y :: b), fuel + 1, rest, _ => decodeItem_data fuel (x :: y :: b) rest
  | .list l, fuel + 1, rest, h => by
    simp only [encode, List.length_append] at h ⊢
    have hpos := List.length_pos_of_ne_nil (header_ne_nil 0xc0 (encodeAll l).length)
    have hl := decodeItems_encodeAll l fuel (by omega)
    obtain ⟨p, tail, hh, hle, _, hread⟩ :=
      readPayload_header 0xc0 (Or.inr rfl) (encodeAll l) rest
    rw [UInt8.le_iff_toNat_le] at hle
    have hle' : 192 ≤ p.toNat := hle
    have h1 : ¬ p < 0x80 := by
      rw [UInt8.lt_iff_toNat_lt]
      change ¬ p.toNat < 128
      omega
    have h2 : ¬ p < 0xc0 := by
      rw [UInt8.lt_iff_toNat_lt]
      change ¬ p.toNat < 192
      omega
    rw [hh]
    simp only [List.cons_append, decodeItem, if_neg h1, if_neg h2, hread, hl, Option.map_some]
theorem decodeItems_encodeAll : ∀ (l : List Item) (fuel : ℕ),
    2 * (encodeAll l).length ≤ fuel → decodeItems fuel (encodeAll l) = some l
  | [], fuel, _ => by cases fuel <;> simp [encodeAll, decodeItems]
  | x :: xs, fuel, h => by
    simp only [encodeAll, List.length_append] at h ⊢
    have hpos := List.length_pos_of_ne_nil (encode_ne_nil x)
    obtain ⟨p, b, hcons⟩ := List.exists_cons_of_ne_nil (encode_ne_nil x)
    obtain ⟨f, rfl⟩ : ∃ f, fuel = f + 1 := ⟨fuel - 1, by omega⟩
    have hx := decodeItem_encode x f (encodeAll xs) (by omega)
    have hxs := decodeItems_encodeAll xs f (by omega)
    rw [hcons] at hx ⊢
    simp only [List.cons_append] at hx ⊢
    simp only [decodeItems, hx, hxs, Option.map_some]
end

/-- Decoding inverts encoding on every item. -/
@[simp] theorem decode_encode (x : Item) : decode (encode x) = some x := by
  have h := decodeItem_encode x (2 * (encode x).length) [] (by omega)
  rw [List.append_nil] at h
  simp only [decode, h]

theorem encode_injective : Function.Injective encode := by
  intro x y h
  have hx := decode_encode x
  rw [h, decode_encode] at hx
  exact (Option.some.inj hx).symm

/-- No encoding is a proper beginning of another one. -/
theorem encode_prefixFree {x y : Item} (h : encode x <+: encode y) : x = y := by
  obtain ⟨rest, h⟩ := h
  have hx := decodeItem_encode x (2 * (encode y).length) rest
    (by rw [← h, List.length_append]; omega)
  have hy := decodeItem_encode y (2 * (encode y).length) [] (by omega)
  rw [List.append_nil] at hy
  rw [h, hy] at hx
  exact (Prod.mk.inj (Option.some.inj hx)).1.symm

end Rlp
end XChain
