import XChain.RLPXHandshakeRuns

/-!
# Encryptions that were changed on the way

The tag of an encryption covers its vector, its cipher text and the data that both sides know.
The first byte and the public key in front of them are not covered.
-/
namespace XChain
namespace CryptoPrimitives

variable (P : CryptoPrimitives)

section Tampering

variable (seed : EciesSeed) (k : Public) (sharedMacData plain : Bytes)

/-- Ideal tags. Nothing but what was tagged has a tag that is found in the encryption. -/
def IdealHmac : Prop :=
  ∀ data, data ≠ P.cipherWithIV seed k plain ++ sharedMacData →
    ¬ (P.hmac (P.macKey (P.agree seed.r k)) data).bytes <:+:
      P.encryptECIES seed k sharedMacData plain

variable {P seed sharedMacData plain} {k : Secret} {body tag other : Bytes}

theorem length_head : ([0x04] ++ (P.toPublic seed.r).bytes).length = 65 := by
  simp [FixedHash.size]

/-- What is behind the public key is refused unless it is what was sent. -/
theorem decrypt_altered (hideal : P.IdealHmac seed (P.toPublic k) sharedMacData plain)
    (hbody : 17 ≤ body.length) (htag : tag.length = 32)
    (hsame : body ++ other = P.cipherWithIV seed (P.toPublic k) plain ++ sharedMacData →
      tag ≠ (P.tag seed (P.toPublic k) sharedMacData plain).bytes)
    (hother : body ++ other ≠ P.cipherWithIV seed (P.toPublic k) plain ++ sharedMacData →
      tag <:+: P.encryptECIES seed (P.toPublic k) sharedMacData plain) :
    P.decryptECIES k other ([0x04] ++ (P.toPublic seed.r).bytes ++ body ++ tag) = none := by
  have hsecret : P.agree k (P.toPublic seed.r) = P.agree seed.r (P.toPublic k) :=
    P.agree_comm k seed.r
  rw [P.decryptECIES_parts k _ other hbody htag, hsecret]
  apply if_pos
  intro heq
  by_cases hdata :
      body ++ other = P.cipherWithIV seed (P.toPublic k) plain ++ sharedMacData
  · apply hsame hdata
    rw [← heq, CryptoPrimitives.tag, hdata]
  · apply hideal _ hdata
    rw [heq]
    exact hother hdata

/-- Behind the public key a message is the cipher text and the tag. -/
theorem infix_encryptECIES (h : plain ≠ []) {t : Bytes}
    (ht : t <:+: P.cipherWithIV seed (P.toPublic k) plain ++
      (P.tag seed (P.toPublic k) sharedMacData plain).bytes) :
    t <:+: P.encryptECIES seed (P.toPublic k) sharedMacData plain := by
  rw [P.encryptECIES_eq seed (P.toPublic k) sharedMacData h, List.append_assoc]
  exact ht.trans (List.suffix_append _ _).isInfix

/-- A byte of the vector, of the cipher text or of the tag that is changed. -/
theorem decrypt_set (h : plain ≠ [])
    (hideal : P.IdealHmac seed (P.toPublic k) sharedMacData plain) {i : ℕ} {b : UInt8}
    (hi : 65 ≤ i)
    (hlt : i < (P.encryptECIES seed (P.toPublic k) sharedMacData plain).length)
    (hb : (P.encryptECIES seed (P.toPublic k) sharedMacData plain)[i]? ≠ some b) :
    P.decryptECIES k sharedMacData
      ((P.encryptECIES seed (P.toPublic k) sharedMacData plain).set i b) = none := by
  have hpos := List.length_pos_iff.mpr h
  have hcipher := P.length_cipherWithIV seed (P.toPublic k) plain
  have htag : (P.tag seed (P.toPublic k) sharedMacData plain).bytes.length = 32 :=
    FixedHash.size _
  have heq := P.encryptECIES_eq seed (P.toPublic k) sharedMacData h
  have hhead : ([0x04] ++ (P.toPublic seed.r).bytes).length = 65 := length_head
  rw [List.append_assoc] at heq
  have hread : (P.cipherWithIV seed (P.toPublic k) plain ++
      (P.tag seed (P.toPublic k) sharedMacData plain).bytes)[i - 65]? ≠ some b := by
    rw [heq, List.getElem?_append_right (by omega), hhead] at hb
    exact hb
  have hne : ∀ {t : Bytes} {j : ℕ}, j < t.length → t[j]? ≠ some b → t.set j b ≠ t := by
    intro t j hj hread hset
    apply hread
    rw [← hset, List.getElem?_set_self (by simpa using hj)]
  rw [heq, List.set_append, hhead, if_neg (by omega), List.set_append]
  by_cases hside : i - 65 < (P.cipherWithIV seed (P.toPublic k) plain).length
  · -- what is tagged has changed and the tag has not
    rw [List.getElem?_append_left hside] at hread
    rw [if_pos hside, ← List.append_assoc]
    apply decrypt_altered hideal _ htag
    · intro hdata
      exact absurd (List.append_cancel_right hdata) (hne hside hread)
    · intro _
      exact infix_encryptECIES h (List.suffix_append _ _).isInfix
    · simp
      omega
  · have hplace : i - 65 - (P.cipherWithIV seed (P.toPublic k) plain).length < 32 := by
      rw [heq] at hlt
      simp only [List.length_append, hhead, htag] at hlt hside
      omega
    rw [List.getElem?_append_right (by omega)] at hread
    rw [if_neg hside, ← List.append_assoc]
    apply decrypt_altered hideal (by omega)
    · simp
    · intro _
      exact hne (by omega) hread
    · intro hdata
      exact absurd rfl hdata

/-- A message of which bytes are missing at its end. -/
theorem decrypt_take (h : plain ≠ [])
    (hideal : P.IdealHmac seed (P.toPublic k) sharedMacData plain) {n : ℕ}
    (hn : n < (P.encryptECIES seed (P.toPublic k) sharedMacData plain).length) :
    P.decryptECIES k sharedMacData
      ((P.encryptECIES seed (P.toPublic k) sharedMacData plain).take n) = none := by
  have hlen := P.length_encryptECIES seed (P.toPublic k) sharedMacData h
  have hcipher := P.length_cipherWithIV seed (P.toPublic k) plain
  have htag : (P.tag seed (P.toPublic k) sharedMacData plain).bytes.length = 32 :=
    FixedHash.size _
  have hhead : ([0x04] ++ (P.toPublic seed.r).bytes).length = 65 := length_head
  rw [c_eciesOverhead] at hlen
  by_cases hshort : n < 114
  · rw [decryptECIES]
    split_ifs with hfirst hsize
    · rfl
    · rfl
    · rw [List.length_take] at hsize
      omega
  · have heq := P.encryptECIES_eq seed (P.toPublic k) sharedMacData h
    rw [List.append_assoc] at heq
    generalize hrest : P.cipherWithIV seed (P.toPublic k) plain ++
      (P.tag seed (P.toPublic k) sharedMacData plain).bytes = rest at heq
    have hrestLen : rest.length = 48 + plain.length := by
      simp [← hrest, hcipher, htag]
      omega
    have hparts : (P.encryptECIES seed (P.toPublic k) sharedMacData plain).take n =
        [0x04] ++ (P.toPublic seed.r).bytes ++ rest.take (n - 97) ++
          (rest.drop (n - 97)).take 32 := by
      have hsum : n - 65 = n - 97 + 32 := by omega
      rw [heq, List.take_append, hhead, List.take_of_length_le (by omega), hsum, List.take_add,
        ← List.append_assoc]
    rw [hparts]
    apply decrypt_altered hideal
    · rw [List.length_take]
      omega
    · rw [List.length_take, List.length_drop]
      omega
    · intro hdata
      have hbody := congrArg List.length (List.append_cancel_right hdata)
      rw [List.length_take] at hbody
      omega
    · intro _
      apply infix_encryptECIES h
      rw [hrest]
      exact (List.take_prefix 32 _).isInfix.trans (List.drop_suffix (n - 97) rest).isInfix

/-- A message that is read with other data. -/
theorem decrypt_other (h : plain ≠ [])
    (hideal : P.IdealHmac seed (P.toPublic k) sharedMacData plain)
    (hne : other ≠ sharedMacData) :
    P.decryptECIES k other (P.encryptECIES seed (P.toPublic k) sharedMacData plain) = none := by
  have hpos := List.length_pos_iff.mpr h
  have hcipher := P.length_cipherWithIV seed (P.toPublic k) plain
  have heq := P.encryptECIES_eq seed (P.toPublic k) sharedMacData h
  rw [heq]
  apply decrypt_altered hideal (by omega) (FixedHash.size _)
  · intro hdata
    exact absurd (List.append_cancel_left hdata) hne
  · intro _
    exact infix_encryptECIES h (List.suffix_append _ _).isInfix

end Tampering

/-- What was encrypted for a public key is read with its secret and the same data. With ideal
tags nothing is read from it when a byte behind the public key is changed, when bytes are
missing at the end or with other data. -/
theorem decrypts_only_untouched (seed : EciesSeed) (k : Secret) (sharedMacData plain : Bytes)
    (h : plain ≠ []) :
    P.decryptECIES k sharedMacData (P.encryptECIES seed (P.toPublic k) sharedMacData plain) =
      some plain ∧
    (P.IdealHmac seed (P.toPublic k) sharedMacData plain →
      (∀ i b, 65 ≤ i →
        i < (P.encryptECIES seed (P.toPublic k) sharedMacData plain).length →
        (P.encryptECIES seed (P.toPublic k) sharedMacData plain)[i]? ≠ some b →
        P.decryptECIES k sharedMacData
          ((P.encryptECIES seed (P.toPublic k) sharedMacData plain).set i b) = none) ∧
      (∀ n < (P.encryptECIES seed (P.toPublic k) sharedMacData plain).length,
        P.decryptECIES k sharedMacData
          ((P.encryptECIES seed (P.toPublic k) sharedMacData plain).take n) = none) ∧
      ∀ other ≠ sharedMacData,
        P.decryptECIES k other (P.encryptECIES seed (P.toPublic k) sharedMacData plain) =
          none) :=
  ⟨P.decrypt_encrypt seed sharedMacData k h, fun hideal =>
    ⟨fun _ _ hi hlt hb => decrypt_set h hideal hi hlt hb, fun _ hn => decrypt_take h hideal hn,
      fun _ hne => decrypt_other h hideal hne⟩⟩

section Example

open P2P.RLPXHandshake

def exampleSeed : EciesSeed := ⟨⟨List.replicate 32 3, length_repeated 3⟩, .zero 16⟩

def exampleSecret : Secret := ⟨List.replicate 32 5, length_repeated 5⟩

/-- What is tagged when two bytes are encrypted. -/
def exampleData : Bytes :=
  xorCrypto.cipherWithIV exampleSeed (xorCrypto.toPublic exampleSecret) [7, 8] ++ [1, 2]

/-- Tags that tell one text from all others. -/
def markingCrypto : CryptoPrimitives :=
  { xorCrypto with
    hmac := fun _ data =>
      ⟨List.replicate 32 (if data = exampleData then 0xaa else 0xbb), length_repeated _⟩ }

theorem markingCrypto_ideal :
    markingCrypto.IdealHmac exampleSeed (markingCrypto.toPublic exampleSecret) [1, 2] [7, 8] := by
  intro data hne hinfix
  have hmark : (markingCrypto.hmac (markingCrypto.macKey (markingCrypto.agree exampleSeed.r
      (markingCrypto.toPublic exampleSecret))) data).bytes = List.replicate 32 0xbb :=
    congrArg (List.replicate 32) (if_neg hne)
  rw [hmark] at hinfix
  revert hinfix
  decide +kernel

theorem decrypts_only_untouched_marked :
    let text := markingCrypto.encryptECIES exampleSeed (markingCrypto.toPublic exampleSecret)
      [1, 2] [7, 8]
    markingCrypto.decryptECIES exampleSecret [1, 2] text = some [7, 8] ∧
    markingCrypto.decryptECIES exampleSecret [1, 2] (text.set 82 0) = none ∧
    markingCrypto.decryptECIES exampleSecret [1, 2] (text.take 114) = none ∧
    markingCrypto.decryptECIES exampleSecret [1] text = none := by
  obtain ⟨hread, htampered⟩ := markingCrypto.decrypts_only_untouched exampleSeed exampleSecret
    [1, 2] [7, 8] (by decide)
  obtain ⟨hset, htake, hother⟩ := htampered markingCrypto_ideal
  refine ⟨hread, hset 82 0 (by decide) ?_ ?_, htake 114 ?_, hother [1] (by decide)⟩
  · decide +kernel
  · decide +kernel
  · decide +kernel

end Example

end CryptoPrimitives
end XChain
