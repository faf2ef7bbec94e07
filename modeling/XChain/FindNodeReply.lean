import XChain.NodeTable
import XChain.RlpSizes

/-!
# The answer to a search for nodes

The nodes nearest to a target are sent in parts, each in a datagram of its own. How many nodes
a part may hold is computed from sizes that are assumed for a node and for all the rest. The
size of a node depends on its address and on its ports.
-/
namespace XChain

namespace P2P

def maxDatagramSize : ℕ := 1280

/-- How many nodes are sent in one datagram. -/
def nlimit : ℕ := (maxDatagramSize - 109) / 90

def Neighbour.ofNode (n : NodeEntry) : Neighbour := ⟨n.endpoint, n.id⟩

/-- The datagram with the nodes from a place on, at most as many as the limit unless it is
zero. -/
def Neighbours (ts : BitVec 32) (nearest : List NodeEntry) (offset limit : ℕ) :
    DiscoveryDatagram where
  sourceid := .zero 64
  echo := .zero 32
  ts := ts
  body :=
    let last := if limit ≠ 0 then min nearest.length (offset + limit) else nearest.length
    .neighbours (((nearest.take last).drop offset).map Neighbour.ofNode)

/-- The datagrams that answer a search, from a place on. Each has the time at which it is
made. -/
def reply (nearest : List NodeEntry) (ts : ℕ → BitVec 32) (offset : ℕ) :
    List DiscoveryDatagram :=
  if offset < nearest.length then
    Neighbours (ts offset) nearest offset nlimit :: reply nearest ts (offset + nlimit)
  else []
termination_by nearest.length - offset
decreasing_by
  simp only [nlimit, maxDatagramSize]
  omega

def DiscoveryDatagram.neighbours (d : DiscoveryDatagram) : List Neighbour :=
  match d.body with
  | .neighbours l => l
  | _ => []

def IpAddress.isV6 : IpAddress → Bool
  | .v4 _ => false
  | .v6 _ => true

/-- Bytes of the two ports. -/
def NodeIPEndpoint.portBytes (e : NodeIPEndpoint) : ℕ :=
  Rlp.uintSize e.udpPort.toNat + Rlp.uintSize e.tcpPort.toNat

theorem uintSize_port (p : BitVec 16) : 1 ≤ Rlp.uintSize p.toNat ∧ Rlp.uintSize p.toNat ≤ 3 := by
  have hle : (Nat.digits 256 p.toNat).length ≤ 2 := by
    rw [Nat.digits_length_le_iff (by omega)]
    exact p.isLt
  rw [Rlp.uintSize]
  split <;> omega

theorem uintSize_time (ts : BitVec 32) : 1 ≤ Rlp.uintSize ts.toNat ∧ Rlp.uintSize ts.toNat ≤ 5 := by
  have hle : (Nat.digits 256 ts.toNat).length ≤ 4 := by
    rw [Nat.digits_length_le_iff (by omega)]
    exact ts.isLt
  rw [Rlp.uintSize]
  split <;> omega

namespace Neighbour

/-- Bytes of a node that is sent. -/
def size (n : Neighbour) : ℕ :=
  73 + (if n.endpoint.address.isV6 then 12 else 0) + n.endpoint.portBytes

theorem length_encode (n : Neighbour) : (Rlp.encode n.streamRLP).length = n.size := by
  have hudp := uintSize_port n.endpoint.udpPort
  have htcp := uintSize_port n.endpoint.tcpPort
  have hport : ∀ p : BitVec 16, (Rlp.encode (Rlp.ofNat p.toNat)).length = Rlp.uintSize p.toNat :=
    fun p => Rlp.length_encode_ofNat (by omega)
  have hid : (Rlp.encode (.data n.node.bytes)).length = 66 := by
    rw [Rlp.length_encode_data] <;> rw [FixedHash.size]
    · rw [Rlp.length_header_two] <;> omega
    · omega
  have haddress : (Rlp.encode (.data n.endpoint.address.bytes)).length =
      5 + if n.endpoint.address.isV6 then 12 else 0 := by
    cases n.endpoint.address with
    | v4 b =>
      rw [IpAddress.bytes, Rlp.length_encode_data] <;> rw [FixedHash.size]
      · simp [Rlp.header, IpAddress.isV6]
      · omega
    | v6 b =>
      rw [IpAddress.bytes, Rlp.length_encode_data] <;> rw [FixedHash.size]
      · simp [Rlp.header, IpAddress.isV6]
      · omega
  have hpayload : (Rlp.encodeAll (n.endpoint.streamInline ++ [.data n.node.bytes])).length + 2 =
      n.size := by
    simp [NodeIPEndpoint.streamInline, Rlp.encodeAll, hport, hid, haddress, size,
      NodeIPEndpoint.portBytes]
    omega
  have hsize : 75 ≤ n.size ∧ n.size ≤ 91 := by
    simp only [size, NodeIPEndpoint.portBytes]
    split <;> omega
  rw [streamRLP, Rlp.encode, List.length_append, Rlp.length_header_two] <;> omega

end Neighbour

/-- Bytes of the nodes that are sent. -/
theorem length_encodeAll (l : List Neighbour) :
    (Rlp.encodeAll (l.map Neighbour.streamRLP)).length = (l.map Neighbour.size).sum := by
  induction l with
  | nil => simp [Rlp.encodeAll]
  | cons n l ih => simp [Rlp.encodeAll, Neighbour.length_encode, ih]

section Sizes

variable (l : List Neighbour)

/-- Bytes of the ports of all nodes. -/
def portBytes : ℕ := (l.map fun n => n.endpoint.portBytes).sum

theorem portBytes_le : portBytes l ≤ 6 * l.length := by
  induction l with
  | nil => simp [portBytes]
  | cons n l ih =>
    have hudp := uintSize_port n.endpoint.udpPort
    have htcp := uintSize_port n.endpoint.tcpPort
    simp only [portBytes, List.map_cons, List.sum_cons, List.length_cons,
      NodeIPEndpoint.portBytes] at ih ⊢
    omega

theorem le_sum_size : 75 * l.length ≤ (l.map Neighbour.size).sum := by
  induction l with
  | nil => simp
  | cons n l ih =>
    have hudp := uintSize_port n.endpoint.udpPort
    have htcp := uintSize_port n.endpoint.tcpPort
    simp only [List.map_cons, List.sum_cons, List.length_cons, Neighbour.size,
      NodeIPEndpoint.portBytes] at ih ⊢
    omega

theorem sum_size_le : (l.map Neighbour.size).sum ≤ 85 * l.length + portBytes l := by
  induction l with
  | nil => simp
  | cons n l ih =>
    simp only [List.map_cons, List.sum_cons, List.length_cons, Neighbour.size, portBytes] at ih ⊢
    split <;> omega

variable {l}

theorem sum_size_v6 (h : ∀ n ∈ l, n.endpoint.address.isV6) :
    (l.map Neighbour.size).sum = 85 * l.length + portBytes l := by
  induction l with
  | nil => simp [portBytes]
  | cons n l ih =>
    obtain ⟨hn, hl⟩ := List.forall_mem_cons.mp h
    have ih := ih hl
    simp only [List.map_cons, List.sum_cons, List.length_cons, Neighbour.size, portBytes,
      if_pos hn] at ih ⊢
    omega

/-- One address of the shorter kind makes up for all ports and for the time. -/
theorem sum_size_v4 (h : ¬ ∀ n ∈ l, n.endpoint.address.isV6) :
    (l.map Neighbour.size).sum + 12 ≤ 85 * l.length + portBytes l := by
  induction l with
  | nil => simp at h
  | cons n l ih =>
    simp only [List.map_cons, List.sum_cons, List.length_cons, Neighbour.size, portBytes] at ih ⊢
    by_cases hn : n.endpoint.address.isV6
    · have hrest : ¬ ∀ n ∈ l, n.endpoint.address.isV6 := by
        intro hall
        apply h
        simpa [hn] using hall
      have ih := ih hrest
      rw [if_pos hn]
      omega
    · have hle := sum_size_le l
      simp only [portBytes] at hle
      rw [if_neg hn]
      omega

end Sizes

section Datagrams

variable (P : Ecdsa) (m_secret : Secret) {d : DiscoveryDatagram} {l : List Neighbour}

theorem length_sign (d : DiscoveryDatagram) :
    (d.sign P m_secret).length = 98 + (Rlp.encode d.streamRLP).length := by
  simp [DiscoveryDatagram.sign, DiscoveryDatagram.signedRLPx, DiscoveryDatagram.rlpx,
    FixedHash.size]
  omega

/-- A datagram is too long only when it is full, with addresses of the longer kind only and
with large ports. -/
theorem sign_le_iff (hbody : d.body = .neighbours l) (hl : l.length ≤ nlimit) :
    (d.sign P m_secret).length ≤ maxDatagramSize ↔
      ¬ (l.length = nlimit ∧ (∀ n ∈ l, n.endpoint.address.isV6) ∧
        71 < portBytes l + Rlp.uintSize d.ts.toNat) := by
  have hports := portBytes_le l
  have hge := le_sum_size l
  have hle := sum_size_le l
  have htime := uintSize_time d.ts
  have hlimit : nlimit = 13 := rfl
  have hmax : maxDatagramSize = 1280 := rfl
  have htimeLen : (Rlp.encode (Rlp.ofNat d.ts.toNat)).length = Rlp.uintSize d.ts.toNat :=
    Rlp.length_encode_ofNat d.ts.isLt
  have hinner := length_encodeAll l
  have hlist : (Rlp.encode (.list (l.map Neighbour.streamRLP))).length =
      (Rlp.header 0xc0 (l.map Neighbour.size).sum).length + (l.map Neighbour.size).sum := by
    rw [Rlp.encode, List.length_append, hinner]
  generalize hsum : (l.map Neighbour.size).sum = total at *
  have houter : (Rlp.encodeAll [.list (l.map Neighbour.streamRLP),
      Rlp.ofNat d.ts.toNat]).length =
      (Rlp.header 0xc0 total).length + total + Rlp.uintSize d.ts.toNat := by
    simp [Rlp.encodeAll, hlist, htimeLen]
  have hlen : (d.sign P m_secret).length = 98 +
      (Rlp.header 0xc0 ((Rlp.header 0xc0 total).length + total +
        Rlp.uintSize d.ts.toNat)).length +
      ((Rlp.header 0xc0 total).length + total + Rlp.uintSize d.ts.toNat) := by
    rw [length_sign, DiscoveryDatagram.streamRLP, hbody, Rlp.encode, List.length_append, houter]
    omega
  have hheader := Rlp.length_header_le 0xc0 (n := total) (k := 2) (by omega) (by omega)
  rw [hlen]
  by_cases hsmall : total < 256
  · have houterHeader := Rlp.length_header_le 0xc0
      (n := (Rlp.header 0xc0 total).length + total + Rlp.uintSize d.ts.toNat) (k := 2) (by omega)
      (by omega)
    omega
  · rw [Rlp.length_header_three 0xc0 (n := total) (by omega) (by omega),
      Rlp.length_header_three 0xc0 (by omega) (by omega)]
    by_cases hall : ∀ n ∈ l, n.endpoint.address.isV6
    · have hsix := sum_size_v6 hall
      simp only [eq_true hall, true_and]
      omega
    · have hfour := sum_size_v4 hall
      simp only [hall, false_and, and_false, not_false_eq_true, iff_true]
      omega

end Datagrams

section Parts

variable (nearest : List NodeEntry) (ts : ℕ → BitVec 32)

/-- The nodes of one datagram. -/
def part (offset : ℕ) : List NodeEntry := (nearest.drop offset).take nlimit

theorem neighbours_body (t : BitVec 32) (offset : ℕ) :
    (Neighbours t nearest offset nlimit).body =
      .neighbours ((part nearest offset).map Neighbour.ofNode) := by
  have hlast : (nearest.take (min nearest.length (offset + nlimit))).drop offset =
      part nearest offset := by
    rw [part, Nat.min_comm, ← List.take_take, List.take_length, List.drop_take]
    congr 1
    omega
  have hlimit : nlimit ≠ 0 := by decide
  simp [Neighbours, hlimit, hlast]

theorem reply_step {offset : ℕ} (h : offset < nearest.length) :
    reply nearest ts offset =
      Neighbours (ts offset) nearest offset nlimit :: reply nearest ts (offset + nlimit) := by
  rw [reply, if_pos h]

theorem reply_end {offset : ℕ} (h : nearest.length ≤ offset) : reply nearest ts offset = [] := by
  rw [reply, if_neg (by omega)]

/-- Together the datagrams from a place on carry the nodes from there on. -/
theorem reply_neighbours (offset : ℕ) :
    (reply nearest ts offset).flatMap DiscoveryDatagram.neighbours =
      (nearest.drop offset).map Neighbour.ofNode := by
  induction offset using reply.induct nearest with
  | case1 offset h ih =>
    have hsplit : nearest.drop offset = part nearest offset ++ nearest.drop (offset + nlimit) := by
      rw [part, ← List.drop_drop, List.take_append_drop]
    rw [reply_step nearest ts h, List.flatMap_cons, ih, hsplit, List.map_append,
      DiscoveryDatagram.neighbours, neighbours_body]
  | case2 offset h =>
    rw [reply_end nearest ts (by omega), List.drop_of_length_le (by omega)]
    simp

/-- The datagrams begin at the places that are multiples of the limit. -/
theorem forall_reply {Q : DiscoveryDatagram → Prop} (offset : ℕ) :
    (∀ d ∈ reply nearest ts offset, Q d) ↔ ∀ i, offset + nlimit * i < nearest.length →
      Q (Neighbours (ts (offset + nlimit * i)) nearest (offset + nlimit * i) nlimit) := by
  induction offset using reply.induct nearest with
  | case1 offset h ih =>
    rw [reply_step nearest ts h, List.forall_mem_cons, ih]
    constructor
    · rintro ⟨hfirst, hrest⟩ i hi
      cases i with
      | zero => simpa using hfirst
      | succ i =>
        have hplace : offset + nlimit * (i + 1) = offset + nlimit + nlimit * i := by
          rw [Nat.mul_succ]
          omega
        rw [hplace] at hi ⊢
        exact hrest i hi
    · intro hall
      refine ⟨by simpa using hall 0 (by simpa using h), fun i hi => ?_⟩
      have hplace : offset + nlimit + nlimit * i = offset + nlimit * (i + 1) := by
        rw [Nat.mul_succ]
        omega
      rw [hplace] at hi ⊢
      exact hall (i + 1) hi
  | case2 offset h =>
    rw [reply_end nearest ts (by omega)]
    constructor
    · intro _ i hi
      omega
    · simp

end Parts

/-- All addresses of the nodes are of the longer kind. -/
def AllV6 (nodes : List NodeEntry) : Prop := ∀ n ∈ nodes, n.endpoint.address.isV6

theorem length_part (nearest : List NodeEntry) (offset : ℕ) :
    (part nearest offset).length = min nlimit (nearest.length - offset) := by
  simp [part]

theorem part_fits_iff (P : Ecdsa) (m_secret : Secret) (nearest : List NodeEntry) (t : BitVec 32)
    (offset : ℕ) :
    ((Neighbours t nearest offset nlimit).sign P m_secret).length ≤ maxDatagramSize ↔
      ¬ ((part nearest offset).length = nlimit ∧ AllV6 (part nearest offset) ∧
        71 < ((part nearest offset).map fun n => n.endpoint.portBytes).sum +
          Rlp.uintSize t.toNat) := by
  have hle : ((part nearest offset).map Neighbour.ofNode).length ≤ nlimit := by
    rw [List.length_map, length_part]
    omega
  have hports : portBytes ((part nearest offset).map Neighbour.ofNode) =
      ((part nearest offset).map fun n => n.endpoint.portBytes).sum := by
    simp [portBytes, Neighbour.ofNode, Function.comp_def]
  rw [sign_le_iff P m_secret (neighbours_body nearest t offset) hle, hports]
  simp [AllV6, Neighbour.ofNode, Neighbours]

/-- The datagrams of an answer carry the nearest nodes one after another, each once. They are
as short as they have to be just when no full part has long addresses only and more bytes of
ports and time than are left. -/
theorem reply_fits_iff (P : Ecdsa) (m_secret : Secret) (nearest : List NodeEntry)
    (ts : ℕ → BitVec 32) :
    ((∀ d ∈ reply nearest ts 0, (d.sign P m_secret).length ≤ maxDatagramSize) ∧
      (reply nearest ts 0).flatMap DiscoveryDatagram.neighbours =
        nearest.map Neighbour.ofNode) ↔
    ∀ i, nlimit * i + nlimit ≤ nearest.length →
      ¬ (AllV6 (part nearest (nlimit * i)) ∧
        71 < ((part nearest (nlimit * i)).map fun n => n.endpoint.portBytes).sum +
          Rlp.uintSize (ts (nlimit * i)).toNat) := by
  have hcarried := reply_neighbours nearest ts 0
  rw [List.drop_zero] at hcarried
  rw [and_iff_left hcarried, forall_reply]
  simp only [Nat.zero_add, part_fits_iff, length_part]
  constructor
  · intro h i hi hfull
    have hpos : 0 < nlimit := by decide
    exact h i (by omega) ⟨by omega, hfull⟩
  · intro h i hi hfull
    exact h i (by omega) hfull.2

section Example

/-- Nodes with different ids and an address of the longer kind. -/
def wideNode (i : ℕ) : NodeEntry where
  id := .ofRef 64 (List.replicate 64 (UInt8.ofNat i))
  endpoint := ⟨.v6 (.ofRef 16 (0x20 :: List.replicate 15 1)), 30303, 30303⟩

/-- Thirteen such nodes make a datagram that is longer than what is received. -/
theorem reply_too_long :
    ¬ ∀ d ∈ reply ((List.range 13).map wideNode) (fun _ => 0x60000000) 0,
      (d.sign DiscoveryDatagram.oneKey (.zero 32)).length ≤ maxDatagramSize := by
  have hfirst : 0 < ((List.range 13).map wideNode).length := by decide
  rw [reply_step _ _ hfirst, List.forall_mem_cons, part_fits_iff]
  have hpart : part ((List.range 13).map wideNode) 0 = (List.range 13).map wideNode := by
    simp [part, nlimit, maxDatagramSize]
  rw [hpart]
  simp [AllV6, wideNode, IpAddress.isV6, nlimit, maxDatagramSize, Rlp.uintSize, Function.comp_def,
    NodeIPEndpoint.portBytes]

end Example

end P2P
end XChain
