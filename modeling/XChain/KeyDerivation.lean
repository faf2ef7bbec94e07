import XChain.Ecies

/-!
# How many bytes the key derivation makes

The derivation hashes a counter and the secret round by round and cuts the digests to the
length that is asked for. The number of rounds comes from the length in bits by a division
by 512, where a digest has 256 bits. So it makes one digest for each 64 bytes, and a length
that is not covered is filled up with zeros.
-/
namespace XChain
namespace Ecies

/-- The four bytes of the counter. -/
structure Counter where
  b0 : UInt8
  b1 : UInt8
  b2 : UInt8
  b3 : UInt8

def Counter.bytes (ctr : Counter) : Bytes := [ctr.b0, ctr.b1, ctr.b2, ctr.b3]

/-- A byte is increased when those behind it have come to zero. -/
def Counter.increment (ctr : Counter) : Counter :=
  if ctr.b3 + 1 ≠ 0 then { ctr with b3 := ctr.b3 + 1 }
  else if ctr.b2 + 1 ≠ 0 then { ctr with b3 := 0, b2 := ctr.b2 + 1 }
  else if ctr.b1 + 1 ≠ 0 then { ctr with b3 := 0, b2 := 0, b1 := ctr.b1 + 1 }
  else ⟨ctr.b0 + 1, 0, 0, 0⟩

variable (sha256 : Bytes → FixedHash 32) (z : Secret) (s1 : Bytes)

/-- The rounds, each of which puts a digest behind `k`. -/
def kdfLoop : ℕ → Counter → Bytes → Bytes
  | 0, _, k => k
  | rounds + 1, ctr, k =>
    kdfLoop rounds ctr.increment (k ++ (sha256 (ctr.bytes ++ z.bytes ++ s1)).bytes)

def reps (kdByteLen : BitVec 32) : BitVec 32 := (kdByteLen + 7) * 8 / 512

/-- The bytes the rounds make for a length. -/
def derived (kdByteLen : BitVec 32) : Bytes :=
  kdfLoop sha256 z s1 ((reps kdByteLen).toNat + 1) ⟨0, 0, 0, 1⟩ []

def kdf (kdByteLen : BitVec 32) : Bytes :=
  let k := derived sha256 z s1 kdByteLen
  k.take kdByteLen.toNat ++ List.replicate (kdByteLen.toNat - k.length) 0

section Stream

/-- The digest for a number of the counter. -/
def digest (c : ℕ) : Bytes := (sha256 (Rlp.fixedBytes 4 c ++ z.bytes ++ s1)).bytes

/-- The digests for 1, 2, 3 and so on as one stream. -/
def stream (i : ℕ) : UInt8 := (digest sha256 z s1 (i / 32 + 1)).getD (i % 32) 0

@[simp] theorem length_digest (c : ℕ) : (digest sha256 z s1 c).length = 32 := FixedHash.size _

/-- The derivation gives the first bytes of the stream, none of them filled in. -/
structure Derives (kdByteLen : BitVec 32) : Prop where
  eq_stream : kdf sha256 z s1 kdByteLen =
    (List.range kdByteLen.toNat).map (stream sha256 z s1)
  not_filled : kdByteLen.toNat ≤ (derived sha256 z s1 kdByteLen).length

/-- The lengths that the rounds cover. -/
def Covered (n : ℕ) : Prop := n ≤ 32 ∨ 57 ≤ n ∧ n ≤ 64

instance (n : ℕ) : Decidable (Covered n) := inferInstanceAs (Decidable (_ ∨ _))

end Stream

section Counter

lemma ofNat_eq_zero (n : ℕ) : UInt8.ofNat n = 0 ↔ n % 256 = 0 := by
  rw [← UInt8.toNat_inj, UInt8.toNat_ofNat']
  rfl

lemma ofNat_add_one (n : ℕ) : UInt8.ofNat n + 1 = UInt8.ofNat (n + 1) := by
  rw [UInt8.ofNat_add]
  rfl

/-- The counter with a number. -/
def Counter.ofNat (c : ℕ) : Counter :=
  ⟨UInt8.ofNat (c / 2 ^ 24), UInt8.ofNat (c / 2 ^ 16), UInt8.ofNat (c / 2 ^ 8), UInt8.ofNat c⟩

lemma Counter.bytes_ofNat (c : ℕ) : (Counter.ofNat c).bytes = Rlp.fixedBytes 4 c := by
  simp [Counter.ofNat, Counter.bytes, Rlp.fixedBytes, List.ofFn_succ]

/-- The carry of the counter is the one of addition. -/
lemma Counter.increment_ofNat (c : ℕ) :
    (Counter.ofNat c).increment = Counter.ofNat (c + 1) := by
  simp only [increment, ofNat, ne_eq, ofNat_add_one, ofNat_eq_zero, ite_not]
  -- One case for each byte at which the carry ends.
  split_ifs with h3 h2 h1
  · have hlast : UInt8.ofNat (c + 1) = 0 := (ofNat_eq_zero _).mpr h3
    have hthird : UInt8.ofNat ((c + 1) / 2 ^ 8) = 0 := by
      rw [ofNat_eq_zero]
      omega
    have hsecond : UInt8.ofNat ((c + 1) / 2 ^ 16) = 0 := by
      rw [ofNat_eq_zero]
      omega
    rw [hlast, hthird, hsecond, show (c + 1) / 2 ^ 24 = c / 2 ^ 24 + 1 by omega]
  · have hlast : UInt8.ofNat (c + 1) = 0 := (ofNat_eq_zero _).mpr h3
    have hthird : UInt8.ofNat ((c + 1) / 2 ^ 8) = 0 := by
      rw [ofNat_eq_zero]
      omega
    rw [hlast, hthird, show (c + 1) / 2 ^ 16 = c / 2 ^ 16 + 1 by omega,
      show (c + 1) / 2 ^ 24 = c / 2 ^ 24 by omega]
  · have hlast : UInt8.ofNat (c + 1) = 0 := (ofNat_eq_zero _).mpr h3
    rw [hlast, show (c + 1) / 2 ^ 8 = c / 2 ^ 8 + 1 by omega,
      show (c + 1) / 2 ^ 16 = c / 2 ^ 16 by omega, show (c + 1) / 2 ^ 24 = c / 2 ^ 24 by omega]
  · rw [show (c + 1) / 2 ^ 8 = c / 2 ^ 8 by omega, show (c + 1) / 2 ^ 16 = c / 2 ^ 16 by omega,
      show (c + 1) / 2 ^ 24 = c / 2 ^ 24 by omega]

end Counter

section Rounds

variable {sha256 z s1}

/-- The rounds from a number of the counter on put the digests for it and for the following
numbers behind each other. -/
theorem kdfLoop_ofNat (rounds c : ℕ) (k : Bytes) :
    kdfLoop sha256 z s1 rounds (.ofNat c) k =
      k ++ (List.range rounds).flatMap fun i => digest sha256 z s1 (c + i) := by
  induction rounds generalizing c k with
  | zero => simp [kdfLoop]
  | succ rounds ih =>
    have hshift : ((List.range rounds).map Nat.succ).flatMap (fun i => digest sha256 z s1 (c + i)) =
        (List.range rounds).flatMap fun i => digest sha256 z s1 (c + 1 + i) := by
      rw [List.flatMap_map]
      simp only [Nat.succ_eq_add_one, Nat.add_right_comm, Nat.add_assoc]
    rw [kdfLoop, Counter.increment_ofNat, ih, Counter.bytes_ofNat, List.range_succ_eq_map,
      List.flatMap_cons, hshift, List.append_assoc]
    rfl

/-- The digests behind each other are the beginning of the stream. -/
theorem flatMap_digest (rounds : ℕ) :
    ((List.range rounds).flatMap fun i => digest sha256 z s1 (1 + i)) =
      (List.range (32 * rounds)).map (stream sha256 z s1) := by
  induction rounds with
  | zero => rfl
  | succ rounds ih =>
    have hlast : digest sha256 z s1 (1 + rounds) =
        (List.range 32).map fun j => stream sha256 z s1 (32 * rounds + j) := by
      refine List.ext_getElem (by simp) fun j hj _ => ?_
      have hlt : j < 32 := by simpa using hj
      simp only [List.getElem_map, List.getElem_range, stream,
        show (32 * rounds + j) / 32 + 1 = 1 + rounds by omega,
        show (32 * rounds + j) % 32 = j by omega]
      rw [List.getD_eq_getElem?_getD, List.getElem?_eq_getElem hj, Option.getD_some]
    rw [List.range_succ, List.flatMap_append, ih, List.flatMap_singleton, hlast, Nat.mul_succ,
      List.range_add, List.map_append, List.map_map]
    rfl

theorem derived_eq (n : BitVec 32) :
    derived sha256 z s1 n =
      (List.range (32 * ((reps n).toNat + 1))).map (stream sha256 z s1) := by
  have hone : (⟨0, 0, 0, 1⟩ : Counter) = .ofNat 1 := rfl
  rw [derived, hone, kdfLoop_ofNat, List.nil_append, flatMap_digest]

/-- Longer material begins with shorter material where both are covered. -/
lemma Derives.isPrefix {m n : BitVec 32} (hm : Derives sha256 z s1 m) (hn : Derives sha256 z s1 n)
    (h : m.toNat ≤ n.toNat) : kdf sha256 z s1 m <+: kdf sha256 z s1 n := by
  obtain ⟨d, hd⟩ := Nat.exists_eq_add_of_le h
  rw [hm.eq_stream, hn.eq_stream, hd, List.range_add, List.map_append]
  exact List.prefix_append _ _

/-- There is one round for the first 56 bytes and one for every 64 bytes more. -/
lemma toNat_reps (n : BitVec 32) : (reps n).toNat = (n.toNat + 7) * 8 % 2 ^ 32 / 512 := by
  simp [reps, BitVec.toNat_udiv, BitVec.toNat_mul, BitVec.toNat_add]

lemma covered_iff (n : BitVec 32) :
    n.toNat ≤ 32 * ((reps n).toNat + 1) ↔ Covered n.toNat := by
  have hn := n.isLt
  rw [toNat_reps, Covered]
  omega

lemma derives_of_le {n : BitVec 32} (h : n.toNat ≤ 32 * ((reps n).toNat + 1)) :
    Derives sha256 z s1 n := by
  have hlen : (derived sha256 z s1 n).length = 32 * ((reps n).toNat + 1) := by
    simp [derived_eq]
  refine ⟨?_, by rw [hlen]; exact h⟩
  have hfill : n.toNat - (derived sha256 z s1 n).length = 0 := by omega
  rw [kdf, hfill, derived_eq, ← List.map_take, List.take_range, Nat.min_eq_left h]
  exact List.append_nil _

end Rounds

/-- Where no sum is beyond 32 bits, the rounds are those of the derivation in one piece. -/
theorem kdf_eq (P : CryptoPrimitives) {n : BitVec 32} (h : n.toNat < 2 ^ 28) :
    kdf P.sha256 z s1 n = P.kdf z s1 n.toNat := by
  have hreps : (reps n).toNat = (n.toNat + 7) * 8 / 512 := by
    rw [toNat_reps, Nat.mod_eq_of_lt (by omega)]
  have hone : (⟨0, 0, 0, 1⟩ : Counter) = .ofNat 1 := rfl
  rw [kdf, CryptoPrimitives.kdf, derived, hone, kdfLoop_ofNat, List.nil_append, hreps]
  simp only [digest, Nat.add_comm 1]

/-- A length is derived as it should be when the rounds cover it. -/
theorem derives_iff (n : BitVec 32) :
    (Derives sha256 z s1 n ↔ Covered n.toNat) ∧
      ∀ m : BitVec 32, m.toNat ≤ n.toNat → Covered m.toNat → Covered n.toNat →
        kdf sha256 z s1 m <+: kdf sha256 z s1 n := by
  have hiff (k : BitVec 32) : Derives sha256 z s1 k ↔ Covered k.toNat := by
    rw [← covered_iff]
    refine ⟨fun h => ?_, derives_of_le⟩
    have hfull := h.not_filled
    rwa [derived_eq, List.length_map, List.length_range] at hfull
  exact ⟨hiff n, fun m hle hm hn => ((hiff m).mpr hm).isPrefix ((hiff n).mpr hn) hle⟩

/-- A secret for the examples. -/
def secretOne : Secret := ⟨Rlp.fixedBytes 32 1, Rlp.length_fixedBytes 32 1⟩

/-- The digests of the first two rounds for that secret. -/
def knownSha256 (b : Bytes) : FixedHash 32 :=
  if b = Rlp.fixedBytes 4 1 ++ secretOne.bytes then
    ⟨Rlp.fixedBytes 32
      0x1725d9de6d4111e30ff7429e88a5c1ca6b7f6216a68a0f73fb152d69b6cdeeca, Rlp.length_fixedBytes _ _⟩
  else if b = Rlp.fixedBytes 4 2 ++ secretOne.bytes then
    ⟨Rlp.fixedBytes 32
      0x28c64d18ef4a69f7233fd562308c9429b73d93191b28ed4de56814f71b79ff3b, Rlp.length_fixedBytes _ _⟩
  else .zero 32

theorem derives_sixtyFour :
    (Derives knownSha256 secretOne [] 64 ↔ Covered 64) ∧
      kdf knownSha256 secretOne [] 32 <+: kdf knownSha256 secretOne [] 64 :=
  have h := derives_iff knownSha256 secretOne [] 64
  ⟨h.1, h.2 32 (by decide) (by decide) (by decide)⟩

/-- For 33 bytes one digest is made, and the last byte is filled in. -/
theorem not_derives_thirtyThree : ¬Derives knownSha256 secretOne [] 33 ∧
    (kdf knownSha256 secretOne [] 33)[32]? = some 0 ∧
      stream knownSha256 secretOne [] 32 = 0x28 := by
  refine ⟨fun h => ?_, by decide +kernel, by decide +kernel⟩
  exact absurd h.eq_stream (by decide +kernel)

end Ecies
end XChain
