import XChain.FixedHash

/-!
# Arguments of contract calls

Every argument is written behind the selector of the method and read back with a cursor
that goes on by one word for each argument. Hashes and numbers take exactly one word, a
string of fixed size takes none and a string takes at least two of them.
-/
namespace XChain

/-- The types of arguments. A hash has at least one and at most 32 bytes. -/
inductive ArgType
  | hash (n : ℕ) (size : 0 < n ∧ n ≤ 32)
  | u256
  | u160
  | string32
  | string
  deriving DecidableEq

def ArgType.Value : ArgType → Type
  | .hash n _ => FixedHash n
  | .u256 => BitVec 256
  | .u160 => BitVec 160
  | .string32 => FixedHash 32
  | .string => Bytes

/-- One value for each type of a list. -/
def Args : List ArgType → Type
  | [] => Unit
  | t :: ts => t.Value × Args ts

/-- What fits into `n` bytes, and zeros in the bytes that are left. -/
def populate (b : Bytes) (n : ℕ) : Bytes := b.take n ++ List.replicate (n - b.length) 0

@[simp] theorem length_populate (b : Bytes) (n : ℕ) : (populate b n).length = n := by
  rw [populate, List.length_append, List.length_take, List.length_replicate]
  omega

theorem populate_length (b : Bytes) : populate b b.length = b := by
  simp [populate]

theorem populate_replicate (k n : ℕ) :
    populate (List.replicate k 0) n = List.replicate n 0 := by
  rw [populate, List.take_replicate, List.length_replicate, List.replicate_append_replicate]
  congr 1
  omega

def populated (n : ℕ) (b : Bytes) : FixedHash n := ⟨populate b n, length_populate b n⟩

namespace ABISerialiser

def serialise : (t : ArgType) → t.Value → Bytes
  | .hash n _, (a : FixedHash n) => List.replicate (32 - n) 0 ++ a.bytes
  | .u256, (a : BitVec 256) => Rlp.fixedBytes 32 a.toNat
  | .u160, (a : BitVec 160) => List.replicate 12 0 ++ Rlp.fixedBytes 20 a.toNat
  -- The vector to be filled has no elements.
  | .string32, (a : FixedHash 32) => populate a.bytes 0
  | .string, (a : Bytes) =>
    Rlp.fixedBytes 32 32 ++ Rlp.fixedBytes 32 a.length ++ populate a ((a.length + 31) / 32 * 32)

end ABISerialiser

def abiInAux : (ts : List ArgType) → Args ts → Bytes
  | [], _ => []
  | t :: ts, (a, rest) => ABISerialiser.serialise t a ++ abiInAux ts rest

def abiIn (sha3 : Bytes → FixedHash 32) (id : Bytes) (ts : List ArgType) (args : Args ts) : Bytes :=
  cropped (sha3 id).bytes 0 4 ++ abiInAux ts args

namespace ABIDeserialiser

/-- The word at a place, of which only the lowest two bytes count. -/
def lowBytes (io : Bytes) (start : ℕ) : ℕ :=
  Rlp.ofBigEndian (FixedHash.ofRef 32 (cropped io start 32)).bytes % 2 ^ 16

/-- The value of the next argument, and the bytes after its word. -/
def deserialise : (t : ArgType) → Bytes → t.Value × Bytes
  | .hash n _, io => (populated n (cropped io (32 - n) n), croppedFrom io 32)
  | .u256, io => (BitVec.ofNat 256 (Rlp.ofBigEndian (cropped io 0 32)), croppedFrom io 32)
  | .u160, io => (BitVec.ofNat 160 (Rlp.ofBigEndian (cropped io 12 20)), croppedFrom io 32)
  | .string32, io => (populated 32 (cropped io 0 32), croppedFrom io 32)
  | .string, io =>
    let o := lowBytes io 0
    let s := lowBytes io o
    (populate (cropped io (o + 32) s) s, croppedFrom io 32)

end ABIDeserialiser

def abiOut (t : ArgType) (data : Bytes) : t.Value × Bytes := ABIDeserialiser.deserialise t data

/-- The values of several arguments in order. -/
def abiOutAux : (ts : List ArgType) → Bytes → Args ts × Bytes
  | [], io => ((), io)
  | t :: ts, io =>
    let (a, io) := abiOut t io
    let (args, io) := abiOutAux ts io
    ((a, args), io)

section Words

/-- Arguments that take exactly one word. -/
def ArgType.OneWord (t : ArgType) : Prop := t ≠ .string32 ∧ t ≠ .string

theorem length_serialise {t : ArgType} (ht : t.OneWord) (a : t.Value) :
    (ABISerialiser.serialise t a).length = 32 := by
  obtain ⟨h32, hstr⟩ := ht
  cases t with
  | hash n hn =>
    have hsize := FixedHash.size a
    simp only [ABISerialiser.serialise, List.length_append, List.length_replicate, hsize]
    omega
  | u256 => simp [ABISerialiser.serialise]
  | u160 => simp [ABISerialiser.serialise]
  | string32 => exact absurd rfl h32
  | string => exact absurd rfl hstr

theorem ofNat_ofBigEndian_fixedBytes (n : ℕ) (w : BitVec (8 * n)) :
    BitVec.ofNat (8 * n) (Rlp.ofBigEndian (Rlp.fixedBytes n w.toNat)) = w := by
  have hlt : w.toNat < 256 ^ n := by
    have h := w.isLt
    rwa [pow_mul] at h
  rw [Rlp.ofBigEndian_fixedBytes, Nat.mod_eq_of_lt hlt, BitVec.ofNat_toNat, BitVec.setWidth_eq]

/-- The reader of an argument takes its word and leaves what follows. -/
theorem abiOut_serialise {t : ArgType} (ht : t.OneWord) (a : t.Value) (rest : Bytes) :
    abiOut t (ABISerialiser.serialise t a ++ rest) = (a, rest) := by
  have hrest : croppedFrom (ABISerialiser.serialise t a ++ rest) 32 = rest := by
    rw [croppedFrom_eq, List.drop_left' (length_serialise ht a)]
  obtain ⟨h32, hstr⟩ := ht
  cases t with
  | hash n hn =>
    refine Prod.ext (FixedHash.ext ?_) hrest
    have hpart : cropped (List.replicate (32 - n) 0 ++ FixedHash.bytes a ++ rest) (32 - n) n =
        FixedHash.bytes a := by
      have h := cropped_append (List.replicate (32 - n) 0) (FixedHash.bytes a) rest
      rwa [List.length_replicate, FixedHash.size a] at h
    have hfull := populate_length (FixedHash.bytes a)
    rw [FixedHash.size a] at hfull
    show populate (cropped (List.replicate (32 - n) 0 ++ FixedHash.bytes a ++ rest) (32 - n) n) n = _
    rw [hpart, hfull]
  | u256 =>
    refine Prod.ext ?_ hrest
    have hpart := cropped_append [] (Rlp.fixedBytes 32 (BitVec.toNat a)) rest
    rw [Rlp.length_fixedBytes] at hpart
    exact (congrArg (fun b => BitVec.ofNat 256 (Rlp.ofBigEndian b)) hpart).trans
      (ofNat_ofBigEndian_fixedBytes 32 a)
  | u160 =>
    refine Prod.ext ?_ hrest
    have hpart := cropped_append (List.replicate 12 0) (Rlp.fixedBytes 20 (BitVec.toNat a)) rest
    rw [Rlp.length_fixedBytes] at hpart
    exact (congrArg (fun b => BitVec.ofNat 160 (Rlp.ofBigEndian b)) hpart).trans
      (ofNat_ofBigEndian_fixedBytes 20 a)
  | string32 => exact absurd rfl h32
  | string => exact absurd rfl hstr

theorem abiOutAux_abiInAux {ts : List ArgType} (hts : ∀ t ∈ ts, t.OneWord) (args : Args ts) :
    abiOutAux ts (abiInAux ts args) = (args, []) := by
  induction ts with
  | nil => rfl
  | cons t ts ih =>
    obtain ⟨a, args⟩ := args
    have hhead := abiOut_serialise (hts t List.mem_cons_self) a (abiInAux ts args)
    have htail := ih (fun u hu => hts u (List.mem_cons_of_mem t hu)) args
    simp only [abiInAux, abiOutAux, hhead, htail]

end Words

section Shortage

theorem abiOut_snd (t : ArgType) (io : Bytes) : (abiOut t io).2 = io.drop 32 := by
  cases t <;> exact croppedFrom_eq io 32

/-- The cursor goes on by a word for each argument, whatever the arguments take. -/
theorem abiOutAux_snd (ts : List ArgType) (io : Bytes) :
    (abiOutAux ts io).2 = io.drop (32 * ts.length) := by
  induction ts generalizing io with
  | nil => simp [abiOutAux]
  | cons t ts ih =>
    simp only [abiOutAux, ih, abiOut_snd, List.drop_drop, List.length_cons]
    congr 1
    omega

/-- Zero in every argument, except for the bytes of strings of fixed size and the number
of bytes of strings. -/
def ArgType.filled (x : UInt8) (k : ℕ) : (t : ArgType) → t.Value
  | .hash n _ => FixedHash.zero n
  | .u256 => (0 : BitVec 256)
  | .u160 => (0 : BitVec 160)
  | .string32 => (⟨List.replicate 32 x, List.length_replicate⟩ : FixedHash 32)
  | .string => List.replicate k (0 : UInt8)

def Args.filled (x : UInt8) (k : ℕ) : (ts : List ArgType) → Args ts
  | [] => ()
  | t :: ts => (t.filled x k, Args.filled x k ts)

/-- A string makes the text longer than itself. -/
theorem lt_length_abiInAux {ts : List ArgType} (x : UInt8) (k : ℕ) (hts : ArgType.string ∈ ts) :
    k < (abiInAux ts (Args.filled x k ts)).length := by
  induction ts with
  | nil => simp at hts
  | cons t ts ih =>
    simp only [Args.filled, abiInAux, List.length_append]
    rcases List.mem_cons.mp hts with rfl | hts
    · simp only [ABISerialiser.serialise, ArgType.filled, List.length_append,
        Rlp.length_fixedBytes, length_populate, List.length_replicate]
      omega
    · have h := ih hts
      omega

theorem fixedBytes_zero (n : ℕ) : Rlp.fixedBytes n 0 = List.replicate n 0 := by
  simp [Rlp.fixedBytes, List.ofFn_const]

theorem ofBigEndian_replicate (k : ℕ) : Rlp.ofBigEndian (List.replicate k 0) = 0 := by
  have h := Rlp.ofBigEndian_fixedBytes k 0
  rwa [fixedBytes_zero, Nat.zero_mod] at h

theorem cropped_replicate (k start count : ℕ) :
    ∃ j, cropped (List.replicate k 0) start count = List.replicate j 0 := by
  by_cases h : start + count ≤ (List.replicate k (0 : UInt8)).length
  · rw [cropped, if_pos h, List.drop_replicate, List.take_replicate]
    exact ⟨_, rfl⟩
  · rw [cropped, if_neg h]
    exact ⟨0, rfl⟩

/-- Without strings nothing but zeros is written. -/
theorem abiInAux_filled {ts : List ArgType} (x : UInt8) (k : ℕ) (hts : ArgType.string ∉ ts) :
    ∃ j, abiInAux ts (Args.filled x k ts) = List.replicate j 0 := by
  induction ts with
  | nil => exact ⟨0, rfl⟩
  | cons t ts ih =>
    obtain ⟨j, hj⟩ := ih fun h => hts (List.mem_cons_of_mem t h)
    have hhead : ∃ i, ABISerialiser.serialise t (t.filled x k) = List.replicate i 0 := by
      cases t with
      | hash n hn =>
        refine ⟨32 - n + n, ?_⟩
        simp [ABISerialiser.serialise, ArgType.filled, FixedHash.zero,
          List.replicate_append_replicate]
      | u256 => exact ⟨32, fixedBytes_zero 32⟩
      | u160 =>
        refine ⟨12 + 20, ?_⟩
        show List.replicate 12 0 ++ Rlp.fixedBytes 20 0 = _
        rw [fixedBytes_zero, List.replicate_append_replicate]
      | string32 =>
        refine ⟨0, ?_⟩
        simp [ABISerialiser.serialise, populate]
      | string => exact absurd List.mem_cons_self hts
    obtain ⟨i, hi⟩ := hhead
    refine ⟨i + j, ?_⟩
    simp only [Args.filled, abiInAux, hi, hj, List.replicate_append_replicate]

/-- What is read from zeros is zero. -/
theorem abiOut_replicate {t : ArgType} (ht : t ≠ .string) (j : ℕ) :
    (abiOut t (List.replicate j 0)).1 = t.filled 0 0 := by
  cases t with
  | hash n hn =>
    obtain ⟨i, hi⟩ := cropped_replicate j (32 - n) n
    refine FixedHash.ext ?_
    show populate (cropped (List.replicate j 0) (32 - n) n) n = List.replicate n 0
    rw [hi, populate_replicate]
  | u256 =>
    obtain ⟨i, hi⟩ := cropped_replicate j 0 32
    show BitVec.ofNat 256 (Rlp.ofBigEndian (cropped (List.replicate j 0) 0 32)) = _
    rw [hi, ofBigEndian_replicate]
    rfl
  | u160 =>
    obtain ⟨i, hi⟩ := cropped_replicate j 12 20
    show BitVec.ofNat 160 (Rlp.ofBigEndian (cropped (List.replicate j 0) 12 20)) = _
    rw [hi, ofBigEndian_replicate]
    rfl
  | string32 =>
    obtain ⟨i, hi⟩ := cropped_replicate j 0 32
    refine FixedHash.ext ?_
    show populate (cropped (List.replicate j 0) 0 32) 32 = List.replicate 32 0
    rw [hi, populate_replicate]
  | string => exact absurd rfl ht

theorem abiOutAux_replicate {ts : List ArgType} (hts : ArgType.string ∉ ts) (j : ℕ) :
    (abiOutAux ts (List.replicate j 0)).1 = Args.filled 0 0 ts := by
  induction ts generalizing j with
  | nil => rfl
  | cons t ts ih =>
    have hne : t ≠ .string := fun h => hts (h ▸ List.mem_cons_self)
    have htail := ih (fun h => hts (List.mem_cons_of_mem t h)) (j - 32)
    simp only [abiOutAux, Args.filled]
    rw [abiOut_snd, List.drop_replicate, abiOut_replicate hne, htail]

theorem filled_ne {ts : List ArgType} (hts : ArgType.string32 ∈ ts) :
    Args.filled 1 0 ts ≠ Args.filled 0 0 ts := by
  induction ts with
  | nil => simp at hts
  | cons t ts ih =>
    intro h
    have hparts := Prod.ext_iff.mp h
    rcases List.mem_cons.mp hts with rfl | hts
    · have hbytes : List.replicate 32 (1 : UInt8) = List.replicate 32 0 :=
        congrArg FixedHash.bytes hparts.1
      exact absurd hbytes (by decide)
    · exact ih hts hparts.2

end Shortage

/-- Every list of values of some types comes back, and nothing is left over, if and only
if there is no string among the types. -/
theorem abiOut_abiIn_exact (sha3 : Bytes → FixedHash 32) (id : Bytes) (ts : List ArgType) :
    (∀ args : Args ts, abiOutAux ts ((abiIn sha3 id ts args).drop 4) = (args, [])) ↔
      ArgType.string32 ∉ ts ∧ ArgType.string ∉ ts := by
  have hselector : (cropped (sha3 id).bytes 0 4).length = 4 := by
    rw [cropped_zero (by simp), List.length_take, (sha3 id).size]
    rfl
  have hdrop : ∀ args : Args ts, (abiIn sha3 id ts args).drop 4 = abiInAux ts args := by
    intro args
    rw [abiIn, List.drop_left' hselector]
  simp only [hdrop]
  constructor
  · intro h
    have hstr : ArgType.string ∉ ts := by
      intro hmem
      -- A string that is long enough leaves something over.
      have hlong := lt_length_abiInAux 0 (32 * ts.length) hmem
      have hleft := congrArg Prod.snd (h (Args.filled 0 (32 * ts.length) ts))
      rw [abiOutAux_snd] at hleft
      have hshort := List.drop_eq_nil_iff.mp hleft
      omega
    have h32 : ArgType.string32 ∉ ts := by
      intro hmem
      obtain ⟨j, hj⟩ := abiInAux_filled 1 0 hstr
      have hvalue := congrArg Prod.fst (h (Args.filled 1 0 ts))
      rw [hj, abiOutAux_replicate hstr] at hvalue
      exact filled_ne hmem hvalue.symm
    exact ⟨h32, hstr⟩
  · intro h args
    refine abiOutAux_abiInAux (fun t ht => ?_) args
    exact ⟨fun ht32 => h.1 (ht32 ▸ ht), fun htstr => h.2 (htstr ▸ ht)⟩

/-- A string of fixed size is not written at all. -/
theorem strings_not_read :
    ¬ ∀ (sha3 : Bytes → FixedHash 32) (id : Bytes) (ts : List ArgType) (args : Args ts),
      abiOutAux ts ((abiIn sha3 id ts args).drop 4) = (args, []) := by
  intro h
  let ones : FixedHash 32 := ⟨List.replicate 32 1, List.length_replicate⟩
  have hback := h (fun _ => FixedHash.zero 32) [] [.string32] (ones, ())
  exact absurd (congrArg (fun r => FixedHash.bytes r.1.1) hback) (by decide)

end XChain
