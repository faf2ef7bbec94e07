import XChain.KeyFile

/-!
# Older key files

A key file holds an encrypted secret with its uuid and perhaps its address. Files of older
versions are brought into the form of the newest one, with the flag of compatibility set.
-/
namespace XChain

namespace KeyFile

variable (C : Crypto)

def c_keyFileVersion : BitVec 32 := 3

def cbcName : Text := ['a', 'e', 's', '-', '1', '2', '8', '-', 'c', 'b', 'c']

/-- The version of a file, zero if it does not say. -/
def fileVersion (ret : JsonObj) : Option (BitVec 32) :=
  if ret.count "Version" then
    ((ret.get "Version").getStr >>= Text.stoi).map fun n => BitVec.ofInt 32 n
  else if ret.count "version" then (ret.get "version").getInt
  else some 0

/-- The parameters of the key under their new names. -/
def renamed (kp : JsonObj) (params : List (String × Json)) : JsonObj :=
  params.foldl (fun kp p => if p.1 = "SaltLen" then kp else kp.set p.1.toLower p.2) kp

/-- A file of the first version as one of the second. The whole text is kept for its mac. -/
def fromFirst (s : Text) (old : JsonObj) : Option JsonObj := do
  let crypto ← (old.get "Crypto").getObj
  let header ← (crypto.get "KeyHeader").getObj
  let params ← (header.get "KdfParams").getObj
  let c := (JsonObj.nil.set "ciphertext" (crypto.get "CipherText")).set "cipher" (.str cbcName)
  let c := c.set "cipherparams" (.obj (JsonObj.nil.set "iv" (crypto.get "IV")))
  let c := c.set "kdf" (header.get "Kdf")
  let kp := renamed (JsonObj.nil.set "salt" (crypto.get "Salt")) params.toList
  let c := c.set "kdfparams" (.obj kp)
  let c := (c.set "sillymac" (crypto.get "MAC")).set "sillymacjson" (.str s)
  some ((JsonObj.nil.set "id" (old.get "Id")).set "crypto" (.obj c))

/-- A file of the second version as one of the third. -/
def fromSecond (ret : JsonObj) : Option JsonObj :=
  (ret.get "crypto").getObj.map fun c =>
    ret.set "crypto" (.obj ((c.set "cipher" (.str cipherName)).set "compat" (.str ['2'])))

/-- An entry that was written with a capital letter. -/
def lowerCrypto (ret : JsonObj) : JsonObj :=
  if ret.count "Crypto" && !ret.count "crypto" then
    (ret.set "crypto" (ret.get "Crypto")).erase "Crypto"
  else ret

/-- The object of a key file in the newest form, if it can be brought there. -/
def upgraded (s : Text) : Option JsonObj := do
  let ret ← C.read_string s >>= Json.getObj
  let version ← fileVersion ret
  if version = 1 then
    let ret ← fromFirst s ret
    fromSecond (lowerCrypto ret)
  else if version = 2 then fromSecond (lowerCrypto ret)
  else if version = c_keyFileVersion then some (lowerCrypto ret)
  else none

/-- The secret in the text of a file. There is none if anything throws. -/
def secretOf (content pass : Text) : Bytes :=
  (do
    let o ← upgraded C content
    decrypt C (C.write_string (o.get "crypto") false) pass).getD []

section Upgraded

variable {C : Crypto} {s : Text} {ret o : JsonObj}

theorem compat_fromSecond (h : fromSecond ret = some o) :
    ∃ c, o.get "crypto" = .obj c ∧ compat c = some true := by
  obtain ⟨c, -, rfl⟩ := Option.map_eq_some_iff.mp h
  exact ⟨_, by simp; rfl, by simp [compat]⟩

/-- What a file of an older version holds is read by the old rules. -/
theorem compat_upgraded {version : BitVec 32} (h : upgraded C s = some o)
    (hread : C.read_string s = some (.obj ret)) (hversion : fileVersion ret = some version)
    (hold : version = 1 ∨ version = 2) :
    ∃ c, o.get "crypto" = .obj c ∧ compat c = some true := by
  simp only [upgraded, hread, Option.bind_eq_bind, Option.bind_some, Json.getObj_obj,
    hversion] at h
  rcases hold with rfl | rfl
  · obtain ⟨first, -, hsecond⟩ := Option.bind_eq_some_iff.mp h
    exact compat_fromSecond hsecond
  · exact compat_fromSecond h

/-- A file of the newest version is left as it is. -/
theorem upgraded_newest (hread : C.read_string s = some (.obj ret))
    (hversion : fileVersion ret = some 3) (hcrypto : ret.count "Crypto" = false) :
    upgraded C s = some ret := by
  simp [upgraded, hread, hversion, lowerCrypto, hcrypto, c_keyFileVersion]

end Upgraded

end KeyFile
end XChain
