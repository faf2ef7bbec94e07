import XChain.Text

/-!
# Peers as a user writes them

An optional id, a host and its ports. One port stands for both; two ports are written one after
the other.
-/
namespace XChain

namespace P2P

structure NodeSpec where
  m_address : Text := []
  m_tcpPort : BitVec 16 := 0
  m_udpPort : BitVec 16 := 0
  m_id : FixedHash 64 := .zero 64
  deriving DecidableEq

namespace NodeSpec

def enodePrefix : Text := ['e', 'n', 'o', 'd', 'e', ':', '/', '/']

/-- The id in front of a host, if it has its place there, and what is left. -/
def splitId (user : Text) : Option (FixedHash 64 × Text) :=
  if user.take 8 = enodePrefix ∧ user.find '@' = some 136 then
    (Text.fromHex? ((user.drop 8).take 128)).map fun b => (FixedHash.ofRef 64 b, user.drop 137)
  else some (.zero 64, user)

/-- The tcp and the udp port. -/
def splitPorts (ports : Text) : Option (BitVec 16 × BitVec 16) :=
  match Text.splitAt? '.' ports with
  | some (tcp, udp) => do
    let udpPort ← Text.stoi udp
    let tcpPort ← Text.stoi tcp
    return (BitVec.ofInt 16 tcpPort, BitVec.ofInt 16 udpPort)
  | none => do
    let port ← Text.stoi ports
    return (BitVec.ofInt 16 port, BitVec.ofInt 16 port)

/-- Reads `(enode://pubkey@)host({:port,:tcpport.udpport})`. A number or an id that cannot be
read throws. -/
def ofUser (user : Text) : Option NodeSpec := do
  let (m_id, address) ← splitId user
  match Text.splitAt? ':' address with
  | some (m_address, ports) =>
    let (m_tcpPort, m_udpPort) ← splitPorts ports
    return { m_address, m_tcpPort, m_udpPort, m_id }
  | none => return { m_address := address, m_id }

variable (s : NodeSpec)

def portsText : Text :=
  let tcp := Text.toString s.m_tcpPort.toNat
  let udp := Text.toString s.m_udpPort.toNat
  if s.m_tcpPort ≠ 0 then
    if s.m_udpPort ≠ 0 ∧ s.m_tcpPort ≠ s.m_udpPort then ':' :: (tcp ++ '.' :: udp) else ':' :: tcp
  else if s.m_udpPort ≠ 0 then ':' :: udp
  else []

def enode : Text :=
  let ret := s.m_address ++ s.portsText
  if s.m_id.isSet then enodePrefix ++ Text.toHex s.m_id.bytes ++ '@' :: ret else ret

section Ports

theorem splitPorts_one (p : BitVec 16) : splitPorts (Text.toString p.toNat) = some (p, p) := by
  have hdot : '.' ∉ Text.toString p.toNat := by
    intro h
    cases Text.isDigit_toString h
  have hlt := p.isLt
  rw [splitPorts, Text.splitAt?_eq_none hdot]
  simp only [Text.stoi_toString (show p.toNat < 2 ^ 31 by omega), Option.bind_eq_bind,
    Option.bind_some, Option.pure_def]
  simp

theorem splitPorts_two (tcp udp : BitVec 16) :
    splitPorts (Text.toString tcp.toNat ++ '.' :: Text.toString udp.toNat) = some (tcp, udp) := by
  have hdot : '.' ∉ Text.toString tcp.toNat := by
    intro h
    cases Text.isDigit_toString h
  have htcp := tcp.isLt
  have hudp := udp.isLt
  rw [splitPorts, Text.splitAt?_append hdot]
  simp only [Text.stoi_toString (show tcp.toNat < 2 ^ 31 by omega),
    Text.stoi_toString (show udp.toNat < 2 ^ 31 by omega), Option.bind_eq_bind, Option.bind_some,
    Option.pure_def]
  simp

end Ports

section Reading

variable {s : NodeSpec}

/-- The ports that are read from what was written. -/
def portsRead (s : NodeSpec) : BitVec 16 × BitVec 16 :=
  if s.m_tcpPort ≠ 0 then
    if s.m_udpPort ≠ 0 ∧ s.m_tcpPort ≠ s.m_udpPort then (s.m_tcpPort, s.m_udpPort)
    else (s.m_tcpPort, s.m_tcpPort)
  else (s.m_udpPort, s.m_udpPort)

theorem portsText_eq_nil (h : s.portsText = []) : s.m_tcpPort = 0 ∧ s.m_udpPort = 0 := by
  rw [portsText] at h
  split_ifs at h with htcp hboth hudp
  exact ⟨not_not.mp htcp, not_not.mp hudp⟩

/-- Behind a colon the ports are read. -/
theorem splitPorts_portsText {ports : Text} (h : s.portsText = ':' :: ports) :
    splitPorts ports = some s.portsRead := by
  rw [portsText] at h
  rw [portsRead]
  split_ifs at h ⊢
  · obtain rfl := (List.cons.inj h).2
    exact splitPorts_two _ _
  · obtain rfl := (List.cons.inj h).2
    exact splitPorts_one _
  · obtain rfl := (List.cons.inj h).2
    exact splitPorts_one _

theorem portsText_cases (s : NodeSpec) : s.portsText = [] ∨ ∃ ports, s.portsText = ':' :: ports := by
  rw [portsText]
  split_ifs <;> simp

theorem slash_not_mem (s : NodeSpec) : '/' ∉ s.portsText := by
  have hdigit : ∀ n, '/' ∉ Text.toString n := by
    intro n h
    cases Text.isDigit_toString h
  rw [portsText]
  split_ifs <;> simp [hdigit]

theorem not_enodePrefix (h : ':' ∉ s.m_address) :
    (s.m_address ++ s.portsText).take 8 ≠ enodePrefix := by
  intro htake
  have hread : ∀ i : ℕ, i < 8 → (s.m_address ++ s.portsText)[i]? = enodePrefix[i]? := by
    intro i hi
    rw [← htake, List.getElem?_take_of_lt hi]
  by_cases hlen : 5 < s.m_address.length
  · have hcolon := hread 5 (by decide)
    rw [List.getElem?_append_left hlen] at hcolon
    exact h (List.mem_of_getElem? hcolon)
  · have hslash := hread 6 (by decide)
    rw [List.getElem?_append_right (by omega)] at hslash
    exact s.slash_not_mem (List.mem_of_getElem? hslash)

theorem splitId_enode (h : ':' ∉ s.m_address) :
    splitId s.enode = some (s.m_id, s.m_address ++ s.portsText) := by
  rw [enode]
  split_ifs with hid
  · have hlen : (enodePrefix ++ Text.toHex s.m_id.bytes).length = 136 := by
      rw [List.length_append, Text.length_toHex, s.m_id.size]
      rfl
    have hat : '@' ∉ enodePrefix ++ Text.toHex s.m_id.bytes := by
      rw [List.mem_append, not_or]
      refine ⟨by decide, fun hmem => ?_⟩
      obtain ⟨d, hd, heq⟩ := Text.mem_toHex hmem
      exact (Text.hexChar_ne hd).2 heq.symm
    have hfind : (enodePrefix ++ Text.toHex s.m_id.bytes ++ '@' :: (s.m_address ++ s.portsText)).find
        '@' = some 136 := by
      rw [Text.find, Text.splitAt?_append hat, Option.map_some, hlen]
    have hread : ((enodePrefix ++ Text.toHex s.m_id.bytes ++
        '@' :: (s.m_address ++ s.portsText)).drop 8).take 128 = Text.toHex s.m_id.bytes := by
      rw [List.append_assoc, List.drop_left' (show enodePrefix.length = 8 from rfl)]
      apply List.take_left'
      rw [Text.length_toHex, s.m_id.size]
    have hrest : (enodePrefix ++ Text.toHex s.m_id.bytes ++
        '@' :: (s.m_address ++ s.portsText)).drop 137 = s.m_address ++ s.portsText := by
      rw [show 137 = 136 + 1 from rfl, ← List.drop_drop, List.drop_left' hlen]
      rfl
    rw [splitId, if_pos ⟨rfl, hfind⟩, hread, hrest, Text.fromHex?_toHex]
    simp
  · rw [splitId, if_neg fun hprefix => not_enodePrefix h hprefix.1,
      FixedHash.eq_zero_of_not_isSet hid]

/-- What is written is read with the same id and host. -/
theorem ofUser_enode (h : ':' ∉ s.m_address) :
    ofUser s.enode = some { s with m_tcpPort := s.portsRead.1, m_udpPort := s.portsRead.2 } := by
  rw [ofUser, splitId_enode h]
  rcases s.portsText_cases with hnone | ⟨ports, hports⟩
  · obtain ⟨htcp, hudp⟩ := portsText_eq_nil hnone
    simp [hnone, h, portsRead, htcp, hudp]
  · simp [hports, h, splitPorts_portsText hports]

end Reading

/-- A peer is read as it was written exactly if it has both ports or none. -/
theorem ofUser_enode_iff (s : NodeSpec) (h : ':' ∉ s.m_address) :
    ofUser s.enode = some s ↔ (s.m_tcpPort = 0 ↔ s.m_udpPort = 0) := by
  obtain ⟨m_address, tcp, udp, id⟩ := s
  rw [ofUser_enode h]
  simp only [portsRead, Option.some.injEq, mk.injEq, true_and, and_true]
  by_cases htcp : tcp = 0#16
  · by_cases hudp : udp = 0#16
    · simp [htcp, hudp]
    · simp [htcp, hudp]
  · by_cases hudp : udp = 0#16
    · simp [htcp, hudp]
    · by_cases heq : tcp = udp
      · simp [heq]
      · simp [htcp, hudp, heq]

section Example

def onePort : NodeSpec := { m_address := ['h'], m_tcpPort := 30303, m_udpPort := 30303 }

theorem ofUser_enode_one : ofUser onePort.enode = some onePort :=
  (ofUser_enode_iff onePort (by decide)).mpr (by decide)

/-- A tcp port without a udp port is read as both. -/
def tcpOnly : NodeSpec := { m_address := ['h'], m_tcpPort := 30303 }

theorem tcpOnly_not_read : ':' ∉ tcpOnly.m_address ∧ ofUser tcpOnly.enode = some onePort ∧
    ofUser tcpOnly.enode ≠ some tcpOnly := by
  decide +kernel

end Example

end NodeSpec

end P2P
end XChain
