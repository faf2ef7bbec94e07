import XChain.Capabilities
import XChain.Faults
import XChain.RLPXLink
import XChain.RLPXPacket

/-!
# The read loop of a session

Frames are read one after another while the peer is not dropped. A packet is checked, taken
apart and handed on. What is thrown on the way is caught only where the packet is handed on, and
there the payload is printed once more.
-/
namespace XChain

namespace P2P

/-- A session that reads, with what the handlers of packets know of the peer. -/
structure SessionIngress (Name Peer : Type) where
  session : Session Name
  m_io : RLPXFrameCoder
  m_dropped : Bool
  peer : Peer

/-- What the read loop calls. A handler has no result where it throws. The items of some bytes
can be printed or not, and the channels of a verbosity are logged or not. -/
structure SessionEnv (Name Peer : Type) where
  handle : SessionIngress Name Peer → Dispatch Name → Bytes → SessionIngress Name Peer × Option Bool
  prints : Bytes → Bool
  logs : ℕ → Bool

/-- Verbosities of two channels. -/
def NetWarn : ℕ := 0

def NetRight : ℕ := 14

/-- The end of a frame: a packet is handed on and the loop goes on, or it returns. -/
inductive ReadEnd where
  | packet (capId t : ℕ) (r : Bytes)
  | stopped

/-- What the two reads of a frame bring. -/
inductive ReceivedFrame (S : Type) where
  | failed (s : S)
  | frame (s : S) (hProtocolId : BitVec 16) (hLength : ℕ) (m_data rest : Bytes)

/-- The bytes of one item, and nothing else. -/
def strictRLP (b : Bytes) : Except Fault Bytes := if Complete b then .ok b else .error .exception

def checkPacket (msg : Bytes) : Except Fault Bool := do
  let first ← Fault.byteAt msg 0
  if 0x7f < first ∨ msg.length < 2 then return false
  let rlp ← strictRLP (croppedFrom msg 1)
  return (actualSize rlp).getD 0 + 1 = msg.length

/-- The type of a packet. A number that is not canonical throws. -/
def packetTypeOf (b : Bytes) : Except Fault ℕ := do
  let rlp ← strictRLP b
  match Rlp.readFirst rlp >>= Rlp.toUint 32 with
  | some t => return t.toNat
  | none => throw .exception

namespace SessionIngress

variable {Name Peer : Type} (P : Primitives) (env : SessionEnv Name Peer)
  (s : SessionIngress Name Peer)

def drop : SessionIngress Name Peer := { s with m_dropped := true }

/-- The packet that tells the peer is not looked at. -/
def disconnect : SessionIngress Name Peer := s.drop

/-- What a handler does; a packet without one changes nothing. -/
def dispatch (capId t : ℕ) (r : Bytes) : SessionIngress Name Peer × Option Bool :=
  match s.session.readPacket capId t with
  | .disabled => (s, some true)
  | .unknown => (s, some false)
  | d => env.handle s d r

/-- The payload is printed before a handler is called. A handler that throws is caught, and the
payload is printed once more. -/
def readPacket (capId t : ℕ) (r : Bytes) : Except Fault (SessionIngress Name Peer × Bool) :=
  if env.logs NetRight ∧ ¬env.prints r then .error .exception
  else match s.dispatch env capId t r with
    | (s, some ok) => .ok (s, ok)
    | (s, none) =>
      if env.logs NetWarn ∧ ¬env.prints r then .error .exception else .ok (s.disconnect, true)

/-- A frame that has been decrypted, with its padding and its digest. -/
def onFrame (hProtocolId : BitVec 16) (hLength : ℕ) (m_data : Bytes) :
    Except Fault (SessionIngress Name Peer × ReadEnd) := do
  let frame ← Fault.slice m_data 0 hLength
  if ← checkPacket frame then
    let packetType ← packetTypeOf (cropped frame 0 1)
    let r ← strictRLP (croppedFrom frame 1)
    let (s, _) ← s.readPacket env hProtocolId.toNat packetType r
    return (s, .packet hProtocolId.toNat packetType r)
  else return (s.disconnect, .stopped)

/-- Reads a header and the frame that it announces. A header of the wrong shape is caught. -/
def receiveFrame (wire : Bytes) : ReceivedFrame (SessionIngress Name Peer) :=
  if wire.length < 32 then .failed s.drop
  else
    let (header, m_io) := s.m_io.authAndDecryptHeader P (wire.take 32)
    let s := { s with m_io := m_io }
    match header.bind RLPXFrameInfo.ofHeader with
    | none => .failed s.drop
    | some header =>
      let tlen := header.length + header.padding + 16
      if wire.length < 32 + tlen then .failed s.drop
      else
        let (m_data, m_io) := s.m_io.authAndDecryptFrame P ((wire.drop 32).take tlen)
        let s := { s with m_io := m_io }
        match m_data with
        | none => .failed s.drop
        | some m_data => .frame s header.protocolId header.length m_data (wire.drop (32 + tlen))

def readFrame (wire : Bytes) : Except Fault (SessionIngress Name Peer × ReadEnd × Bytes) :=
  match s.receiveFrame P wire with
  | .failed s => .ok (s, .stopped, [])
  | .frame s hProtocolId hLength m_data rest => do
    let (s, readEnd) ← s.onFrame env hProtocolId hLength m_data
    return (s, readEnd, rest)

section Lengths

variable {P env s} {wire rest : Bytes}

theorem length_authAndDecryptFrame {c : RLPXFrameCoder} {io m_data : Bytes}
    (h : (c.authAndDecryptFrame P io).1 = some m_data) : m_data.length = io.length := by
  rw [RLPXFrameCoder.authAndDecryptFrame] at h
  dsimp only at h
  split_ifs at h
  obtain rfl := Option.some.inj h
  simp [RLPXFrameCoder.processDec]

/-- The frame that a header announces lies inside what is read for it. -/
theorem receiveFrame_spec {s' : SessionIngress Name Peer} {id : BitVec 16} {len : ℕ}
    {m_data : Bytes} (h : s.receiveFrame P wire = .frame s' id len m_data rest) :
    len ≤ m_data.length ∧ rest.length < wire.length ∧ s'.m_dropped = s.m_dropped := by
  rw [receiveFrame] at h
  split_ifs at h with hshort
  dsimp only at h
  split at h
  · cases h
  · rename_i header hheader
    split_ifs at h with hcut
    split at h
    · cases h
    · rename_i frame hframe
      have hlen := length_authAndDecryptFrame hframe
      rw [List.length_take, List.length_drop] at hlen
      cases h
      rw [List.length_drop]
      exact ⟨by omega, by omega, rfl⟩

theorem receiveFrame_failed {s' : SessionIngress Name Peer} (h : s.receiveFrame P wire = .failed s') :
    s'.m_dropped = true := by
  rw [receiveFrame] at h
  split_ifs at h
  · cases h
    rfl
  · dsimp only at h
    split at h
    · cases h
      rfl
    · split_ifs at h
      · cases h
        rfl
      · split at h <;> cases h
        rfl

theorem length_readFrame {s' : SessionIngress Name Peer} {capId t : ℕ} {r : Bytes}
    (h : s.readFrame P env wire = .ok (s', .packet capId t r, rest)) : rest.length < wire.length := by
  rw [readFrame] at h
  split at h
  · cases h
  · rename_i hreceive
    have hlen := (receiveFrame_spec hreceive).2.1
    rename_i s₁ id len m_data rest₁
    cases hframe : s₁.onFrame env id len m_data with
    | error e =>
      rw [hframe] at h
      cases h
    | ok result =>
      obtain ⟨s₂, readEnd⟩ := result
      rw [hframe] at h
      cases h
      exact hlen

end Lengths

/-- The ends of the frames that are read, with the states after them. -/
def doRead (s : SessionIngress Name Peer) (wire : Bytes) :
    Except Fault (List (ReadEnd × SessionIngress Name Peer)) :=
  if s.m_dropped then .ok []
  else match hread : s.readFrame P env wire with
    | .error e => .error e
    | .ok (s', .stopped, _) => .ok [(.stopped, s')]
    | .ok (s', .packet capId t r, rest) =>
      have : rest.length < wire.length := length_readFrame hread
      (doRead s' rest).map ((.packet capId t r, s') :: ·)
termination_by wire.length

section Steps

variable {P env s} {wire rest : Bytes} {s' : SessionIngress Name Peer}

theorem doRead_dropped (hdropped : s.m_dropped = true) : s.doRead P env wire = .ok [] := by
  rw [doRead, if_pos hdropped]

theorem doRead_error {e : Fault} (hopen : s.m_dropped = false)
    (hread : s.readFrame P env wire = .error e) : s.doRead P env wire = .error e := by
  rw [doRead, if_neg (by simp [hopen])]
  split <;> simp_all

theorem doRead_stopped (hopen : s.m_dropped = false)
    (hread : s.readFrame P env wire = .ok (s', .stopped, rest)) :
    s.doRead P env wire = .ok [(.stopped, s')] := by
  rw [doRead, if_neg (by simp [hopen])]
  split <;> simp_all

theorem doRead_packet {capId t : ℕ} {r : Bytes} (hopen : s.m_dropped = false)
    (hread : s.readFrame P env wire = .ok (s', .packet capId t r, rest)) :
    s.doRead P env wire = (s'.doRead P env rest).map ((.packet capId t r, s') :: ·) := by
  rw [doRead, if_neg (by simp [hopen])]
  split <;> simp_all

end Steps

/-- Whoever is dropped reads no further frame, and a packet is followed by the next read. -/
def Ends (dropped : Bool) : List (ReadEnd × SessionIngress Name Peer) → Prop
  | [] => dropped = true
  | (readEnd, s) :: frames =>
    dropped = false ∧ (readEnd = .stopped → s.m_dropped = true) ∧ Ends s.m_dropped frames

/-- A frame that is not empty, and where it is taken apart has a type and a single item behind
it. This item can be printed where it is printed. -/
def FrameSound (capId : ℕ) : Bytes → Prop
  | [] => False
  | first :: r =>
    0x7f < first ∨ r = [] ∨
      first ≠ 0 ∧ Complete r ∧ (env.logs NetRight = true → env.prints r = true) ∧
        ((s.dispatch env capId first.toNat r).2 = none → env.logs NetWarn = true →
          env.prints r = true)

/-- A frame that is read next is sound. -/
def Sound (wire : Bytes) : Prop :=
  ∀ s' hProtocolId hLength m_data rest,
    s.receiveFrame P wire = .frame s' hProtocolId hLength m_data rest →
      s'.FrameSound env hProtocolId.toNat (m_data.take hLength)

/-- Where the loop goes on to. -/
inductive Reached : SessionIngress Name Peer → Bytes → SessionIngress Name Peer → Bytes → Prop where
  | here (s : SessionIngress Name Peer) (wire : Bytes) : Reached s wire s wire
  | next {s s₁ s' : SessionIngress Name Peer} {wire rest wire' : Bytes} {capId t : ℕ} {r : Bytes}
      (hopen : s.m_dropped = false)
      (hread : s.readFrame P env wire = .ok (s₁, .packet capId t r, rest))
      (hreached : Reached s₁ rest s' wire') : Reached s wire s' wire'

section Frames

variable {P env s} {capId t : ℕ} {frame r : Bytes}

theorem readPacket_settles : Fault.Settles (fun _ => True) (s.readPacket env capId t r) ↔
    (env.logs NetRight = true → env.prints r = true) ∧
      ((s.dispatch env capId t r).2 = none → env.logs NetWarn = true → env.prints r = true) := by
  rw [readPacket]
  by_cases hlog : env.logs NetRight = true ∧ ¬env.prints r
  · simp [hlog]
  · rw [if_neg hlog]
    cases hdispatch : s.dispatch env capId t r with
    | mk s₁ result =>
      cases result with
      | some ok => simpa using hlog
      | none =>
        by_cases hwarn : env.logs NetWarn = true ∧ ¬env.prints r
        · simp [hwarn]
        · simp only [if_neg hwarn, Fault.settles_ok, true_iff]
          simpa using And.intro hlog hwarn

theorem checkPacket_cons (first : UInt8) : checkPacket (first :: r) =
    if 0x7f < first ∨ r = [] then .ok false
    else if Complete r then .ok true else .error .exception := by
  have hlen : (first :: r).length < 2 ↔ r = [] := by
    rw [List.length_cons, ← List.length_eq_zero_iff]
    omega
  have htail : croppedFrom (first :: r) 1 = r := by simp
  rw [checkPacket, Fault.byteAt_eq (by simp : 0 < (first :: r).length), Fault.ok_bind]
  simp only [List.getElem_cons_zero, hlen, htail]
  split_ifs with hfirst hcomplete
  · rfl
  · rw [strictRLP, if_pos hcomplete, Fault.ok_bind, hcomplete]
    simp
  · rw [strictRLP, if_neg hcomplete, Fault.error_bind]

theorem packetTypeOf_singleton {first : UInt8} (h : ¬0x7f < first) :
    packetTypeOf [first] = if first = 0 then .error .exception else .ok first.toNat := by
  have hall : ∀ n : Fin 128, packetTypeOf [UInt8.ofNat n] =
      if UInt8.ofNat n = 0 then .error .exception else .ok (UInt8.ofNat n).toNat := by
    decide +kernel
  have hlt : first.toNat < 128 := by
    rw [UInt8.lt_iff_toNat_lt, not_lt] at h
    exact Nat.lt_succ_of_le h
  simpa using hall ⟨first.toNat, hlt⟩

/-- One frame ends as it should exactly if it is sound. -/
theorem onFrame_settles {id : BitVec 16} {len : ℕ} {m_data : Bytes} (hlen : len ≤ m_data.length) :
    Fault.Settles (fun a => a.2 = .stopped → a.1.m_dropped = true) (s.onFrame env id len m_data) ↔
      s.FrameSound env id.toNat (m_data.take len) := by
  have hslice : Fault.slice m_data 0 len = .ok (m_data.take len) := by
    rw [Fault.slice, if_pos (by simpa using hlen), List.drop_zero]
  rw [onFrame, hslice, Fault.ok_bind]
  cases m_data.take len with
  | nil => simp [checkPacket, Fault.byteAt, FrameSound]
  | cons first r =>
    rw [checkPacket_cons, FrameSound]
    by_cases hcheck : 0x7f < first ∨ r = []
    · rw [if_pos hcheck]
      have hdrop : s.disconnect.m_dropped = true := rfl
      simp [hdrop]
      tauto
    · obtain ⟨hfirst, hr⟩ := not_or.mp hcheck
      rw [if_neg hcheck]
      by_cases hcomplete : Complete r
      · have htype : cropped (first :: r) 0 1 = [first] := by simp [cropped]
        have htail : croppedFrom (first :: r) 1 = r := by simp
        rw [if_pos hcomplete, Fault.ok_bind, if_pos rfl, htype, htail, packetTypeOf_singleton hfirst]
        by_cases hzero : first = 0
        · simp [hzero, hr]
        · rw [if_neg hzero, Fault.ok_bind, strictRLP, if_pos hcomplete, Fault.ok_bind]
          simp only [hfirst, hr, hzero, hcomplete, false_or, ne_eq, not_false_eq_true, true_and]
          rw [← readPacket_settles]
          cases s.readPacket env id.toNat first.toNat r with
          | error e => simp
          | ok result => simp
      · simp [hcomplete, hfirst, hr]

end Frames

section Runs

variable {P env s} {wire rest : Bytes}

theorem readFrame_settles :
    Fault.Settles (fun a => a.2.1 = .stopped → a.1.m_dropped = true) (s.readFrame P env wire) ↔
      s.Sound P env wire := by
  rw [readFrame, Sound]
  cases hreceive : s.receiveFrame P wire with
  | failed s' =>
    have hdrop := receiveFrame_failed hreceive
    simp [hdrop]
  | frame s' id len m_data rest =>
    have hlen := (receiveFrame_spec hreceive).1
    have hone : (∀ s₁ id₁ len₁ m₁ rest₁, ReceivedFrame.frame s' id len m_data rest =
        .frame s₁ id₁ len₁ m₁ rest₁ → s₁.FrameSound env id₁.toNat (m₁.take len₁)) ↔
        s'.FrameSound env id.toNat (m_data.take len) := by
      constructor
      · intro h
        exact h _ _ _ _ _ rfl
      · intro h s₁ id₁ len₁ m₁ rest₁ heq
        cases heq
        exact h
    rw [hone, ← onFrame_settles hlen]
    dsimp only
    cases hframe : s'.onFrame env id len m_data with
    | error e => simp
    | ok result => simp

variable {Q : SessionIngress Name Peer → Bytes → Prop}

/-- What holds wherever the loop gets holds at its beginning, and from there on. -/
theorem reached_packet {s₁ : SessionIngress Name Peer} {capId t : ℕ} {r : Bytes}
    (hopen : s.m_dropped = false)
    (hread : s.readFrame P env wire = .ok (s₁, .packet capId t r, rest)) :
    (∀ s' wire', Reached P env s wire s' wire' → Q s' wire') ↔
      Q s wire ∧ ∀ s' wire', Reached P env s₁ rest s' wire' → Q s' wire' := by
  constructor
  · intro h
    constructor
    · exact h s wire (.here s wire)
    · intro s' wire' hreached
      exact h s' wire' (.next hopen hread hreached)
  · intro h s' wire' hreached
    cases hreached with
    | here => exact h.1
    | next hopen' hread' hreached' =>
      rw [hread] at hread'
      cases hread'
      exact h.2 s' wire' hreached'

/-- A loop that does not go on gets nowhere else. -/
theorem reached_last (hlast : s.m_dropped = false → ∀ s₁ capId t r rest,
      s.readFrame P env wire ≠ .ok (s₁, .packet capId t r, rest)) :
    (∀ s' wire', Reached P env s wire s' wire' → Q s' wire') ↔ Q s wire := by
  constructor
  · intro h
    exact h s wire (.here s wire)
  · intro h s' wire' hreached
    cases hreached with
    | here => exact h
    | next hopen hread hreached' => exact absurd hread (hlast hopen _ _ _ _ _)

end Runs

section InFlight

variable {P} {writer : RLPXFrameCoder} {wire : Bytes} {f : Frame} {fs : List Frame}

/-- A frame in flight is read in two steps of its side. -/
theorem receiveFrame_inFlight (h : InFlight P writer ⟨s.m_io, none⟩ wire (f :: fs)) :
    ∃ m_io m_data rest, s.receiveFrame P wire =
        .frame { s with m_io := m_io } f.info.protocolId f.info.length m_data rest ∧
      m_data.take f.info.length = f.payload ∧ InFlight P writer ⟨m_io, none⟩ rest fs := by
  obtain ⟨⟨c, expecting⟩, wire₁, hfirst, hexpecting, -, h₁⟩ := h.read_header rfl
  dsimp only at hexpecting
  subst hexpecting
  obtain ⟨⟨c', expecting'⟩, rest, hsecond, hexpecting', -, h₂⟩ := h₁.read_frame (by simp)
  dsimp only at hexpecting'
  subst hexpecting'
  rw [Side.read] at hfirst hsecond
  dsimp only at hfirst hsecond
  rw [receiveFrame]
  split_ifs at hfirst ⊢ with hlong
  · cases hfirst
  · split at hfirst
    · cases hfirst
    · rename_i info hinfo
      cases hfirst
      dsimp only at hsecond ⊢
      rw [hinfo]
      dsimp only
      by_cases hcut : (wire.drop 32).length < f.info.length + f.info.padding + 16
      · rw [if_pos hcut] at hsecond
        cases hsecond
      · have hlen : ¬wire.length < 32 + (f.info.length + f.info.padding + 16) := by
          rw [List.length_drop] at hcut
          omega
        rw [if_neg hcut] at hsecond
        rw [if_neg hlen]
        simp only [Prod.mk.injEq, Side.mk.injEq, and_true, List.cons.injEq] at hsecond
        obtain ⟨rfl, rfl, hout⟩ := hsecond
        obtain ⟨m_data, hdata, hpayload⟩ := Option.map_eq_some_iff.mp hout
        rw [hdata]
        simp only [Prod.mk.injEq, true_and] at hpayload
        refine ⟨_, m_data, _, rfl, hpayload, ?_⟩
        rwa [List.drop_drop] at h₂

/-- An empty frame has no first byte to look at. -/
theorem doRead_empty (hopen : s.m_dropped = false)
    (h : InFlight P writer ⟨s.m_io, none⟩ wire (f :: fs)) (hempty : f.payload = []) :
    s.doRead P env wire = .error .outOfRange := by
  obtain ⟨m_io, m_data, rest, hreceive, hpayload, -⟩ := s.receiveFrame_inFlight h
  have hslice : Fault.slice m_data 0 f.info.length = .ok [] := by
    have hlen := (receiveFrame_spec hreceive).1
    rw [Fault.slice, if_pos (by simpa using hlen), List.drop_zero, hpayload, hempty]
  have hframe : s.readFrame P env wire = .error .outOfRange := by
    rw [readFrame, hreceive]
    dsimp only
    rw [onFrame, hslice]
    rfl
  exact doRead_error hopen hframe

end InFlight

section Example

/-- Packets are handled without a fault, and nothing is logged. -/
def silent : SessionEnv String Unit := ⟨fun s _ _ => (s, some true), fun _ => true, fun _ => false⟩

/-- What the other side writes is read from its first frame on. -/
theorem example_inFlight (f : Frame) :
    let l := exampleLink.run xorPrimitives [.write true f]
    InFlight xorPrimitives (l.side true).coder ⟨(l.side false).coder, none⟩ (l.wire true) [f] := by
  obtain ⟨l, hl, hconsistent⟩ := Link.connect_consistent xorPrimitives ⟨List.replicate 32 1, rfl⟩
    ⟨List.replicate 32 2, rfl⟩ ⟨List.replicate 32 3, rfl⟩ ⟨List.replicate 32 4, rfl⟩ [5] [6]
  obtain rfl : l = exampleLink := Option.some.inj (hl.symm.trans (Option.some_get _).symm)
  obtain ⟨done, pending, hsent, hread, hflight⟩ := hconsistent.run [.write true f] false
  have hnone : exampleLink.received false = [] := by decide +kernel
  have hidle : ((exampleLink.run xorPrimitives [.write true f]).side false).expecting = none := by
    have hstart : (exampleLink.side false).expecting.isNone = true := by decide +kernel
    simpa [Link.run, Link.step] using hstart
  obtain rfl : done = [] := by
    rw [Link.run, List.foldl_cons, List.foldl_nil, Link.step] at hread
    dsimp only at hread
    rw [hnone] at hread
    exact List.map_eq_nil_iff.mp hread.symm
  obtain rfl : [f] = pending := hsent
  exact hflight.congr rfl rfl hidle.symm

end Example

end SessionIngress

end P2P
end XChain
