import XChain.RLPXFrameCoder

/-!
# Encryption for a public key

A fresh key agrees with the public key on a secret, from which a key of the cipher and one of
the code are derived. The code covers the vector, the cipher text and data that both sides
know.
-/
namespace XChain

abbrev Signature := FixedHash 65

theorem cropped_part {t a b c : Bytes} {start count : ℕ} (h : t = a ++ b ++ c)
    (ha : a.length = start) (hb : b.length = count) : cropped t start count = b := by
  rw [h, ← ha, ← hb, cropped_append]

/-- `ctr key iv` is counter mode from a vector. A signature is recovered to the public key of
the secret that signed. -/
structure CryptoPrimitives extends Primitives where
  sign : Secret → FixedHash 32 → Signature
  recover : Signature → FixedHash 32 → Public
  sha256 : Bytes → FixedHash 32
  hmac : FixedHash 32 → Bytes → FixedHash 32
  ctr : FixedHash 16 → FixedHash 16 → ℕ → UInt8
  recover_sign : ∀ k m, recover (sign k m) m = toPublic k

/-- Amount of bytes added by encryption. -/
def c_eciesOverhead : ℕ := 113

/-- What is drawn for one encryption. -/
structure EciesSeed where
  r : Secret
  iv : FixedHash 16

namespace CryptoPrimitives

variable (P : CryptoPrimitives)

/-- Hashes of a counter and the secret until there are bytes enough. -/
def kdf (z : Secret) (s1 : Bytes) (kdByteLen : ℕ) : Bytes :=
  let reps := (kdByteLen + 7) * 8 / 512
  let k := (List.range (reps + 1)).flatMap fun i =>
    (P.sha256 (Rlp.fixedBytes 4 (i + 1) ++ z.bytes ++ s1)).bytes
  k.take kdByteLen ++ List.replicate (kdByteLen - k.length) 0

/-- A text without bytes is left as it is. -/
def encryptECIES (seed : EciesSeed) (k : Public) (sharedMacData plain : Bytes) : Bytes :=
  let key := P.kdf (P.agree seed.r k) [] 32
  let eKey := FixedHash.ofRef 16 (cropped key 0 16)
  let mKey := P.sha256 (cropped key 16 16)
  let cipherText := mask (P.ctr eKey seed.iv) 0 plain
  if cipherText.isEmpty then plain
  else
    let cipherWithIV := seed.iv.bytes ++ cipherText
    [0x04] ++ (P.toPublic seed.r).bytes ++ cipherWithIV ++
      (P.hmac mKey (cipherWithIV ++ sharedMacData)).bytes

def decryptECIES (k : Secret) (sharedMacData text : Bytes) : Option Bytes :=
  if text.isEmpty || text.headD 0 < 2 || 4 < text.headD 0 then none
  else if text.length < 1 + 64 + 16 + 1 + 32 then none
  else
    let key := P.kdf (P.agree k (.ofRef 64 (cropped text 1 64))) [] 64
    let eKey := FixedHash.ofRef 16 (cropped key 0 16)
    let mKey := P.sha256 (cropped key 16 16)
    let cipherLen := text.length - 1 - 64 - 16 - 32
    let cipherWithIV := cropped text (1 + 64) (16 + cipherLen)
    let iv := FixedHash.ofRef 16 (cropped cipherWithIV 0 16)
    let cipherNoIV := cropped cipherWithIV 16 cipherLen
    let msgMac := cropped text (1 + 64 + 16 + cipherLen) 32
    if (P.hmac mKey (cipherWithIV ++ sharedMacData)).bytes ≠ msgMac then none
    else some (mask (P.ctr eKey iv) 0 cipherNoIV)

theorem length_kdf (z : Secret) (s1 : Bytes) (kdByteLen : ℕ) :
    (P.kdf z s1 kdByteLen).length = kdByteLen := by
  simp only [kdf, List.length_append, List.length_take, List.length_replicate]
  omega

/-- Longer key material begins with the shorter one. -/
theorem kdf_take (z : Secret) (s1 : Bytes) : (P.kdf z s1 64).take 32 = P.kdf z s1 32 := by
  simp [kdf, List.range_succ, List.take_append]

theorem cropped_kdf (z : Secret) (s1 : Bytes) {start count : ℕ} (h : start + count ≤ 32) :
    cropped (P.kdf z s1 64) start count = cropped (P.kdf z s1 32) start count := by
  have hlong : start + count ≤ (P.kdf z s1 64).length := by
    rw [length_kdf]
    omega
  have hshort : start + count ≤ (P.kdf z s1 32).length := by
    rw [length_kdf]
    exact h
  rw [cropped, if_pos hlong, cropped, if_pos hshort, ← kdf_take, List.drop_take, List.take_take,
    Nat.min_eq_left (by omega)]

/-- The key of the cipher under an agreed secret. -/
def cipherKey (z : Secret) : FixedHash 16 := .ofRef 16 (cropped (P.kdf z [] 32) 0 16)

/-- The key of the tag under an agreed secret. -/
def macKey (z : Secret) : FixedHash 32 := P.sha256 (cropped (P.kdf z [] 32) 16 16)

section Parts

variable (k : Secret) (pub : Public) (sharedMacData : Bytes) {body tag : Bytes}

/-- A message in its parts is read when its tag is the tag of the vector and the cipher text. -/
theorem decryptECIES_parts (hbody : 17 ≤ body.length) (htag : tag.length = 32) :
    P.decryptECIES k sharedMacData ([0x04] ++ pub.bytes ++ body ++ tag) =
      if (P.hmac (P.macKey (P.agree k pub)) (body ++ sharedMacData)).bytes ≠ tag then none
      else some (mask (P.ctr (P.cipherKey (P.agree k pub)) (.ofRef 16 (body.take 16))) 0
        (body.drop 16)) := by
  have hpub : pub.bytes.length = 64 := FixedHash.size _
  generalize htext : [0x04] ++ pub.bytes ++ body ++ tag = text
  have hlen : text.length = 97 + body.length := by
    simp [← htext, hpub, htag]
    omega
  have hhead : text.headD 0 = 4 := by simp [← htext]
  have hempty : text.isEmpty = false := by simp [← htext]
  have hpubPart : cropped text 1 64 = pub.bytes := by
    apply cropped_part (a := [0x04]) (c := body ++ tag) _ rfl hpub
    simp [← htext]
  have hbodyPart : cropped text (1 + 64) body.length = body := by
    apply cropped_part htext.symm _ rfl
    simp [hpub]
  have htagPart : cropped text (1 + 64 + body.length) 32 = tag := by
    apply cropped_part (c := []) _ _ htag
    · exact [0x04] ++ pub.bytes ++ body
    · simp [← htext]
    · simp [hpub]
      omega
  have hiv : cropped body 0 16 = body.take 16 := cropped_zero (by omega)
  have hcipher : cropped body 16 (body.length - 16) = body.drop 16 := by
    apply cropped_part (a := body.take 16) (c := [])
    · simp
    · simp
      omega
    · simp
  have hcipherLen : text.length - 1 - 64 - 16 - 32 = body.length - 16 := by omega
  have hcount : 16 + (body.length - 16) = body.length := by omega
  have hoffset : 1 + 64 + 16 + (body.length - 16) = 1 + 64 + body.length := by omega
  rw [decryptECIES, hempty, hhead, if_neg (by decide), if_neg (by omega)]
  simp only [hcipherLen, hcount, hoffset, hpubPart, hbodyPart, htagPart, hiv, hcipher,
    FixedHash.ofRef_self, P.cropped_kdf _ _ (show 0 + 16 ≤ 32 by omega),
    P.cropped_kdf _ _ (show 16 + 16 ≤ 32 by omega), macKey, cipherKey]
  congr

end Parts

section RoundTrip

variable (seed : EciesSeed) (k : Public) (sharedMacData : Bytes) {plain : Bytes}

/-- The vector and the cipher text. -/
def cipherWithIV (plain : Bytes) : Bytes :=
  seed.iv.bytes ++ mask (P.ctr (P.cipherKey (P.agree seed.r k)) seed.iv) 0 plain

/-- The tag of an encryption. -/
def tag (plain : Bytes) : FixedHash 32 :=
  P.hmac (P.macKey (P.agree seed.r k)) (P.cipherWithIV seed k plain ++ sharedMacData)

theorem length_cipherWithIV (plain : Bytes) :
    (P.cipherWithIV seed k plain).length = 16 + plain.length := by
  simp [cipherWithIV]

theorem encryptECIES_eq (h : plain ≠ []) :
    P.encryptECIES seed k sharedMacData plain =
      [0x04] ++ (P.toPublic seed.r).bytes ++ P.cipherWithIV seed k plain ++
        (P.tag seed k sharedMacData plain).bytes := by
  have hne : (mask (P.ctr (P.cipherKey (P.agree seed.r k)) seed.iv) 0 plain).isEmpty =
      false := by
    rw [List.isEmpty_eq_false_iff]
    apply List.ne_nil_of_length_pos
    rw [length_mask]
    exact List.length_pos_iff.mpr h
  rw [cipherKey] at hne
  rw [encryptECIES]
  simp only [hne, Bool.false_eq_true, if_false, tag, cipherWithIV, macKey, cipherKey]

theorem length_encryptECIES (h : plain ≠ []) :
    (P.encryptECIES seed k sharedMacData plain).length = plain.length + c_eciesOverhead := by
  rw [P.encryptECIES_eq seed k sharedMacData h]
  simp only [List.length_append, List.length_singleton, FixedHash.size, length_cipherWithIV,
    c_eciesOverhead]
  omega

/-- The owner of the secret reads what was encrypted for the public key. -/
theorem decrypt_encrypt (k : Secret) (h : plain ≠ []) :
    P.decryptECIES k sharedMacData (P.encryptECIES seed (P.toPublic k) sharedMacData plain) =
      some plain := by
  have hpos := List.length_pos_iff.mpr h
  have hlen := P.length_cipherWithIV seed (P.toPublic k) plain
  have hsecret : P.agree k (P.toPublic seed.r) = P.agree seed.r (P.toPublic k) :=
    P.agree_comm k seed.r
  rw [P.encryptECIES_eq seed (P.toPublic k) sharedMacData h,
    P.decryptECIES_parts k _ sharedMacData (by omega) (FixedHash.size _), hsecret, tag,
    if_neg (not_not.mpr rfl), cipherWithIV]
  simp

end RoundTrip

end CryptoPrimitives

end XChain
