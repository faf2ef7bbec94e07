import XChain.Capabilities
import XChain.RLPXLink
import XChain.RLPXSocketIO

/-!
# Egress of a session

A sender that finds the queue empty starts to write, and each completed write starts the
next one until the queue is empty again. What a region under the lock does is one event, and
between the region that chooses what is written and the write itself others may run.
-/
namespace XChain

namespace P2P

/-- Calls of `write` or `writeFrames` that have not reached their region are counted by
`starting`, and what a region has chosen for a write that has not begun is in `chosen`. The
packets in the write queue, the frames of the writers and the bytes for the socket are noted. -/
structure SessionEgress where
  m_io : RLPXFrameCoder
  protocolVersion : ℕ
  m_framing : List RLPXFrameWriter := [{ m_protocolId := 0 }]
  m_writeQueue : List Bytes := []
  m_encFrames : List Bytes := []
  starting : ℕ := 0
  chosen : List Bytes := []
  outstanding : ℕ := 0
  sent : List Bytes := []
  produced : List Bytes := []
  written : List Bytes := []

namespace SessionEgress

def maxFrameSize : ℕ := 1024

variable (P : Primitives)

/-- The bytes of frames, encrypted one after the other. -/
def encFrames : List MuxFrame → RLPXFrameCoder → List Bytes × RLPXFrameCoder
  | [], c => ([], c)
  | f :: fs, c =>
    let (out, c) := c.writeFrame P f.header f.payload
    let (outs, c) := encFrames fs c
    (out :: outs, c)

/-- The bytes of packets in frames of their own, encrypted one after the other. -/
def encPackets : List Bytes → RLPXFrameCoder → List Bytes × RLPXFrameCoder
  | [], c => ([], c)
  | packet :: packets, c =>
    let (out, c) := c.writeSingleFramePacket P packet
    let (outs, c) := encPackets packets c
    (out :: outs, c)

variable (s : SessionEgress)

def isFramingEnabled : Bool := Session.isFramingAllowedForVersion s.protocolVersion

def getFraming (protocolID : BitVec 16) : Option RLPXFrameWriter :=
  s.m_framing.find? fun w => w.m_protocolId = protocolID

/-- The writers are in the order of their ids. -/
def registerFraming (id : BitVec 16) : SessionEgress :=
  match s.getFraming id with
  | some _ => s
  | none =>
    { s with m_framing := s.m_framing.takeWhile (fun w => w.m_protocolId < id) ++
        { m_protocolId := id } :: s.m_framing.dropWhile (fun w => w.m_protocolId < id) }

def multiplexAll : Option SessionEgress :=
  (RLPXFrameWriter.muxAll maxFrameSize s.m_framing).map fun (ws, frames, _) =>
    let (outs, m_io) := encFrames P frames s.m_io
    { s with
      m_framing := ws
      m_io := m_io
      m_encFrames := s.m_encFrames ++ outs
      produced := s.produced ++ outs }

/-- The writers with one more packet. -/
def enque (protocolID : BitVec 16) (p : RLPXPacket) : List RLPXFrameWriter :=
  s.m_framing.map fun w => if w.m_protocolId = protocolID then w.enque p false else w

def send (isOpen : Bool) (msg : Bytes) (protocolID : BitVec 16) : Option SessionEgress :=
  if !isOpen then some s
  else if s.isFramingEnabled then
    let doWrite := s.m_encFrames.isEmpty
    match s.getFraming protocolID with
    | none => some s
    | some _ =>
      (multiplexAll P { s with m_framing := s.enque protocolID (.ofBytes msg) }).map fun s =>
        if doWrite then { s with starting := s.starting + 1 } else s
  else
    let s := { s with m_writeQueue := s.m_writeQueue ++ [msg], sent := s.sent ++ [msg] }
    some (if s.m_writeQueue.length = 1 then { s with starting := s.starting + 1 } else s)

/-- The first packet is encrypted in its place. -/
def write : Option SessionEgress :=
  match s.m_writeQueue with
  | [] => none
  | packet :: rest =>
    let (out, m_io) := s.m_io.writeSingleFramePacket P packet
    some { s with
      m_io := m_io
      m_writeQueue := out :: rest
      starting := s.starting - 1
      chosen := s.chosen ++ [out] }

def writeFrames : SessionEgress :=
  match s.m_encFrames with
  | [] => { s with starting := s.starting - 1 }
  | out :: _ => { s with starting := s.starting - 1, chosen := s.chosen ++ [out] }

/-- The region of a completed write. -/
def completed : Option SessionEgress :=
  if s.isFramingEnabled then
    let s := { s with outstanding := s.outstanding - 1, m_encFrames := s.m_encFrames.tail }
    (s.multiplexAll P).map fun s =>
      if s.m_encFrames.isEmpty then s else { s with starting := s.starting + 1 }
  else
    match s.m_writeQueue with
    | [] => none
    | _ :: rest =>
      let s := { s with outstanding := s.outstanding - 1, m_writeQueue := rest }
      some (if rest.isEmpty then s else { s with starting := s.starting + 1 })

inductive Op where
  | registerFraming (id : BitVec 16)
  | send (isOpen : Bool) (msg : Bytes) (protocolID : BitVec 16)
  | region
  | async_write
  | completion

def step : Op → Option SessionEgress
  | .registerFraming id => some (s.registerFraming id)
  | .send isOpen msg protocolID => s.send P isOpen msg protocolID
  | .region =>
    if s.starting = 0 then some s
    else if s.isFramingEnabled then some s.writeFrames
    else s.write P
  | .async_write =>
    match s.chosen with
    | [] => some s
    | out :: rest =>
      some { s with
        chosen := rest
        outstanding := s.outstanding + 1
        written := s.written ++ [out] }
  | .completion => if s.outstanding = 0 then some s else s.completed P

def run (ops : List Op) : Option SessionEgress := ops.foldlM (step P) s

/-- The writers that an event multiplexes. -/
def muxed : Op → List RLPXFrameWriter
  | .send isOpen msg protocolID =>
    if isOpen && s.isFramingEnabled && (s.getFraming protocolID).isSome then
      s.enque protocolID (.ofBytes msg)
    else []
  | .completion => if s.isFramingEnabled && s.outstanding ≠ 0 then s.m_framing else []
  | _ => []

/-- Writers with packets give frames. -/
def Yields (ws : List RLPXFrameWriter) : Prop :=
  ∀ w ∈ ws, w.size ≠ 0 → ∃ r ∈ w.mux maxFrameSize, r.2.1 ≠ []

instance (ws : List RLPXFrameWriter) : Decidable (Yields ws) :=
  inferInstanceAs (Decidable (∀ w ∈ ws, w.size ≠ 0 → ∃ r ∈ w.mux maxFrameSize, r.2.1 ≠ []))

/-- A packet that a writer takes is not sent while a call of `writeFrames` that has no frame
is about to reach its region. -/
def Fits : Op → Prop
  | .send isOpen msg protocolID =>
    isOpen = true → s.isFramingEnabled = true → (s.getFraming protocolID).isSome = true →
      (RLPXPacket.ofBytes msg).isValid = true → s.m_encFrames = [] → s.starting = 0
  | _ => True

instance (op : Op) : Decidable (s.Fits op) := by
  cases op <;> unfold Fits <;> infer_instance

/-- Nothing is being written or about to be. -/
def Idle : Prop := s.starting = 0 ∧ s.chosen = [] ∧ s.outstanding = 0

/-- One write is outstanding at most. The bytes for the socket are those of the packets, or
of the frames, in order, and if nothing is being written nothing waits. -/
structure Egress (c : RLPXFrameCoder) : Prop where
  single : s.outstanding ≤ 1
  packets : s.isFramingEnabled = false →
    ∃ n, encPackets P (s.sent.take n) c = (s.written ++ s.chosen, s.m_io)
  frames : s.isFramingEnabled = true → s.written <+: s.produced
  all_packets : s.Idle → s.isFramingEnabled = false → s.written = (encPackets P s.sent c).1
  all_frames : s.Idle → s.isFramingEnabled = true → s.written = s.produced
  empty : s.Idle → s.m_writeQueue = [] ∧ s.m_encFrames = [] ∧ ∀ w ∈ s.m_framing, w.size = 0

/-- The invariant without framing. -/
structure Packets (c : RLPXFrameCoder) : Prop where
  once : s.starting + s.chosen.length + s.outstanding = min 1 s.m_writeQueue.length
  order : ∃ done, s.sent = done ++ s.m_writeQueue.drop (s.chosen.length + s.outstanding) ∧
    encPackets P done c = (s.written ++ s.chosen, s.m_io)
  unframed : s.m_encFrames = [] ∧ ∀ w ∈ s.m_framing, w.size = 0

/-- The invariant with framing. -/
structure Frames : Prop where
  once : s.m_encFrames ≠ [] → s.starting + s.chosen.length + s.outstanding = 1
  nothing : s.m_encFrames = [] → s.chosen = [] ∧ s.outstanding = 0 ∧ ∀ w ∈ s.m_framing, w.size = 0
  order : s.written ++ s.m_encFrames.drop s.outstanding = s.produced
  next : ∀ out ∈ s.chosen, s.m_encFrames.head? = some out
  queue : s.m_writeQueue = []

def Good (c : RLPXFrameCoder) : Prop :=
  if s.isFramingEnabled then s.Frames else s.Packets P c

section Writers

variable {s} {ws : List RLPXFrameWriter}

/-- If there are no frames, there were no packets. -/
theorem muxAll_yields (h : Yields ws) : ∃ ws' frames n,
    RLPXFrameWriter.muxAll maxFrameSize ws = some (ws', frames, n) ∧
      (frames = [] → ∀ w ∈ ws', w.size = 0) := by
  induction ws with
  | nil => exact ⟨[], [], 0, rfl, fun _ w hw => absurd hw List.not_mem_nil⟩
  | cons w ws ih =>
    obtain ⟨ws', frames, n, hmux, hempty⟩ := ih fun w' hw' => h w' (List.mem_cons_of_mem w hw')
    by_cases hsize : w.size = 0
    · have hw : w.mux maxFrameSize = some (w, [], 0) := by
        rw [RLPXFrameWriter.mux, if_neg (by decide)]
        exact RLPXFrameWriter.muxLoop_done (Or.inr hsize)
      refine ⟨w :: ws', frames, 0 + n, ?_, fun hnil w' hw' => ?_⟩
      · rw [RLPXFrameWriter.muxAll, hw]
        simp [hmux]
      · rcases List.mem_cons.mp hw' with rfl | hmem
        · exact hsize
        · exact hempty hnil w' hmem
    · obtain ⟨⟨w', fs, m⟩, hw, hne⟩ := h w List.mem_cons_self hsize
      refine ⟨w' :: ws', fs ++ frames, m + n, ?_, fun hnil => ?_⟩
      · rw [RLPXFrameWriter.muxAll, hw]
        simp [hmux]
      · exact absurd (List.append_eq_nil_iff.mp hnil).1 hne

@[simp] theorem length_encFrames (frames : List MuxFrame) (c : RLPXFrameCoder) :
    (encFrames P frames c).1.length = frames.length := by
  induction frames generalizing c with
  | nil => rfl
  | cons f fs ih => simp [encFrames, ih]

/-- Multiplexing appends frames, and there are none just if no packet waits. -/
theorem multiplexAll_yields (h : Yields s.m_framing) : ∃ ws m_io outs,
    s.multiplexAll P = some { s with
      m_framing := ws
      m_io := m_io
      m_encFrames := s.m_encFrames ++ outs
      produced := s.produced ++ outs } ∧ (outs = [] → ∀ w ∈ ws, w.size = 0) ∧
      ((∀ w ∈ s.m_framing, w.size = 0) → outs = []) := by
  obtain ⟨ws, frames, n, hmux, hempty⟩ := muxAll_yields h
  have hlen := length_encFrames P frames s.m_io
  refine ⟨ws, (encFrames P frames s.m_io).2, (encFrames P frames s.m_io).1, ?_, fun hnil => ?_,
    fun hzero => ?_⟩
  · rw [multiplexAll, hmux]
    rfl
  · apply hempty
    apply List.eq_nil_of_length_eq_zero
    rw [← hlen, hnil]
    rfl
  · rw [RLPXFrameWriter.muxAll_idle fun w hw => Or.inr (hzero w hw)] at hmux
    obtain ⟨-, rfl, -⟩ := hmux
    rfl

theorem encPackets_append (packets packets' : List Bytes) (c : RLPXFrameCoder) :
    encPackets P (packets ++ packets') c =
      ((encPackets P packets c).1 ++ (encPackets P packets' (encPackets P packets c).2).1,
        (encPackets P packets' (encPackets P packets c).2).2) := by
  induction packets generalizing c with
  | nil => rfl
  | cons packet packets ih => simp [encPackets, ih]

/-- A new writer has no packets. -/
theorem registerFraming_eq (id : BitVec 16) : ∃ ws,
    s.registerFraming id = { s with m_framing := ws } ∧
    ((∀ w ∈ s.m_framing, w.size = 0) → ∀ w ∈ ws, w.size = 0) := by
  rw [registerFraming]
  split
  · exact ⟨s.m_framing, rfl, fun h => h⟩
  · refine ⟨_, rfl, fun h w hw => ?_⟩
    rcases List.mem_append.mp hw with hmem | hmem
    · exact h w (List.takeWhile_subset _ hmem)
    · rcases List.mem_cons.mp hmem with rfl | hmem
      · rfl
      · exact h w (List.dropWhile_subset _ hmem)

theorem writeFrames_nil (h : s.m_encFrames = []) :
    s.writeFrames = { s with starting := s.starting - 1 } := by
  unfold writeFrames
  split
  · rfl
  · next hframes =>
    rw [h] at hframes
    cases hframes

theorem writeFrames_cons {out : Bytes} {rest : List Bytes} (h : s.m_encFrames = out :: rest) :
    s.writeFrames = { s with starting := s.starting - 1, chosen := s.chosen ++ [out] } := by
  unfold writeFrames
  split
  · next hframes =>
    rw [h] at hframes
    cases hframes
  · next hframes =>
    rw [h] at hframes
    cases hframes
    rfl

theorem write_cons {packet : Bytes} {rest : List Bytes} (h : s.m_writeQueue = packet :: rest) :
    s.write P = some { s with
      m_io := (s.m_io.writeSingleFramePacket P packet).2
      m_writeQueue := (s.m_io.writeSingleFramePacket P packet).1 :: rest
      starting := s.starting - 1
      chosen := s.chosen ++ [(s.m_io.writeSingleFramePacket P packet).1] } := by
  unfold write
  split
  · next hqueue =>
    rw [h] at hqueue
    cases hqueue
  · next hqueue =>
    rw [h] at hqueue
    cases hqueue
    rfl

@[simp] theorem encPackets_singleton (packet : Bytes) (c : RLPXFrameCoder) :
    encPackets P [packet] c =
      ([(c.writeSingleFramePacket P packet).1], (c.writeSingleFramePacket P packet).2) := rfl

theorem protocolVersion_registerFraming (id : BitVec 16) :
    (s.registerFraming id).protocolVersion = s.protocolVersion := by
  obtain ⟨ws, heq, -⟩ := registerFraming_eq (s := s) id
  rw [heq]

theorem protocolVersion_writeFrames : s.writeFrames.protocolVersion = s.protocolVersion := by
  rw [writeFrames]
  split <;> rfl

theorem step_async_write {out : Bytes} {rest : List Bytes} (h : s.chosen = out :: rest) :
    s.step P .async_write = some { s with
      chosen := rest
      outstanding := s.outstanding + 1
      written := s.written ++ [out] } := by
  simp only [step, h]

theorem step_async_write_nil (h : s.chosen = []) : s.step P .async_write = some s := by
  simp only [step, h]

/-- Invalid packets are not taken. -/
theorem enque_invalid {p : RLPXPacket} (h : p.isValid = false) (protocolID : BitVec 16) :
    s.enque protocolID p = s.m_framing := by
  rw [enque]
  apply List.map_id''
  intro w
  simp [RLPXFrameWriter.enque, h]

end Writers

namespace Frames

variable {s} (h : s.Frames)
include h

theorem outstanding_le : s.outstanding ≤ s.m_encFrames.length ∧ s.outstanding ≤ 1 := by
  by_cases hempty : s.m_encFrames = []
  · obtain ⟨-, hnone, -⟩ := h.nothing hempty
    omega
  · have honce := h.once hempty
    have hpos := List.length_pos_iff.mpr hempty
    omega

theorem registerFraming (id : BitVec 16) : (s.registerFraming id).Frames := by
  obtain ⟨ws, heq, hsizes⟩ := registerFraming_eq (s := s) id
  rw [heq]
  refine ⟨h.once, fun hempty => ?_, h.order, h.next, h.queue⟩
  obtain ⟨hchosen, hnone, hzero⟩ := h.nothing hempty
  exact ⟨hchosen, hnone, hsizes hzero⟩

theorem send {msg : Bytes} {protocolID : BitVec 16} (henabled : s.isFramingEnabled = true)
    (hyields : Yields (s.muxed (.send true msg protocolID)))
    (hfits : s.Fits (.send true msg protocolID)) :
    ∃ s', s.send P true msg protocolID = some s' ∧ s'.protocolVersion = s.protocolVersion ∧
      s'.Frames := by
  rw [SessionEgress.send, if_neg (by simp), if_pos henabled]
  cases hframing : s.getFraming protocolID with
  | none => exact ⟨s, rfl, rfl, h⟩
  | some w =>
    simp only [muxed, henabled, hframing, Option.isSome_some, Bool.and_self, if_true] at hyields
    obtain ⟨ws, m_io, outs, hmux, hempty, hnone⟩ := multiplexAll_yields P
      (s := { s with m_framing := s.enque protocolID (.ofBytes msg) }) hyields
    simp only [hmux, Option.map_some]
    have hle := h.outstanding_le.1
    refine ⟨_, rfl, ?_, ?_⟩
    · split_ifs <;> rfl
    by_cases hfirst : s.m_encFrames = []
    · obtain ⟨hchosen, hout, hzero⟩ := h.nothing hfirst
      rw [if_pos (List.isEmpty_iff.mpr hfirst)]
      refine ⟨fun hne => ?_, fun hnil => ⟨hchosen, hout, hempty ?_⟩, ?_, ?_, h.queue⟩
      · -- the packet has been taken, so nobody else is about to write
        have hvalid : (RLPXPacket.ofBytes msg).isValid = true := by
          by_contra hinvalid
          apply hne
          rw [hfirst, List.nil_append]
          apply hnone
          rw [enque_invalid (Bool.eq_false_iff.mpr hinvalid)]
          exact hzero
        have hstarting := hfits rfl henabled (by rw [hframing]; rfl) hvalid hfirst
        simp [hstarting, hchosen, hout]
      · exact (List.append_eq_nil_iff.mp hnil).2
      · have horder := h.order
        simp only [hfirst, hout, List.drop_zero, List.append_nil, List.nil_append] at horder ⊢
        rw [horder]
      · simp [hchosen]
    · have hfalse : s.m_encFrames.isEmpty = false := by simpa using hfirst
      rw [hfalse, if_neg Bool.false_ne_true]
      refine ⟨fun _ => h.once hfirst, fun hnil => ?_, ?_, fun out hout => ?_, h.queue⟩
      · exact absurd (List.append_eq_nil_iff.mp hnil).1 hfirst
      · have horder := h.order
        simp only
        rw [List.drop_append_of_le_length hle, ← List.append_assoc, horder]
      · simp [h.next out hout]

theorem writeFrames (hstarting : s.starting ≠ 0) : s.writeFrames.Frames := by
  cases hframes : s.m_encFrames with
  | nil =>
    rw [writeFrames_nil hframes]
    exact ⟨fun hne => absurd hframes hne, h.nothing, h.order, h.next, h.queue⟩
  | cons out rest =>
    have hne : s.m_encFrames ≠ [] := by
      rw [hframes]
      exact List.cons_ne_nil _ _
    have honce := h.once hne
    have hchosen : s.chosen = [] := List.eq_nil_of_length_eq_zero (by omega)
    rw [writeFrames_cons hframes, hchosen]
    refine ⟨fun _ => ?_, fun hnil => absurd hnil hne, h.order, fun out' hout => ?_, h.queue⟩
    · rw [hchosen, List.length_nil] at honce
      simp only [List.nil_append, List.length_singleton]
      omega
    · obtain rfl := List.mem_singleton.mp hout
      rw [hframes]
      rfl

theorem async_write {out : Bytes} {rest : List Bytes} (hchosen : s.chosen = out :: rest) :
    Frames { s with
      chosen := rest
      outstanding := s.outstanding + 1
      written := s.written ++ [out] } := by
  have hne : s.m_encFrames ≠ [] := fun hempty => by
    rw [(h.nothing hempty).1] at hchosen
    cases hchosen
  have honce := h.once hne
  rw [hchosen, List.length_cons] at honce
  obtain rfl : rest = [] := List.eq_nil_of_length_eq_zero (by omega)
  have hout : s.outstanding = 0 := by omega
  have hhead := h.next out (by rw [hchosen]; exact List.mem_cons_self)
  obtain ⟨later, hframes⟩ := List.head?_eq_some_iff.mp hhead
  refine ⟨fun _ => ?_, fun hempty => absurd hempty hne, ?_,
    fun out' hmem => absurd hmem List.not_mem_nil,
    h.queue⟩
  · simp only [List.length_nil] at honce ⊢
    omega
  · have horder := h.order
    simp only [hout, hframes, List.drop_zero, Nat.zero_add, List.drop_one,
      List.tail_cons] at horder ⊢
    rw [List.append_assoc, List.singleton_append, horder]

theorem completed (henabled : s.isFramingEnabled = true) (hout : s.outstanding ≠ 0)
    (hyields : Yields (s.muxed .completion)) :
    ∃ s', s.completed P = some s' ∧ s'.protocolVersion = s.protocolVersion ∧ s'.Frames := by
  have hne : s.m_encFrames ≠ [] := fun hempty => hout (h.nothing hempty).2.1
  have honce := h.once hne
  have hone : s.outstanding = 1 := by omega
  have hstarting : s.starting = 0 := by omega
  have hchosen : s.chosen = [] := List.eq_nil_of_length_eq_zero (by omega)
  rw [SessionEgress.completed, if_pos henabled]
  simp only [muxed, henabled, hout, ne_eq, not_false_eq_true, decide_true, Bool.and_self,
    if_true] at hyields
  obtain ⟨ws, m_io, outs, hmux, hempty, -⟩ := multiplexAll_yields P
    (s := { s with outstanding := s.outstanding - 1, m_encFrames := s.m_encFrames.tail }) hyields
  simp only [hmux, Option.map_some]
  have horder := h.order
  rw [hone, List.drop_one] at horder
  refine ⟨_, rfl, ?_, ?_⟩
  · split_ifs <;> rfl
  cases hrest : (s.m_encFrames.tail ++ outs).isEmpty with
  | true =>
    have hnil := List.isEmpty_iff.mp hrest
    obtain ⟨htail, houts⟩ := List.append_eq_nil_iff.mp hnil
    refine ⟨fun hne' => absurd hnil hne', fun _ => ⟨hchosen, by simp [hone], hempty houts⟩, ?_, ?_,
      h.queue⟩
    · simp only [houts, List.append_nil, hone, Nat.sub_self]
      exact horder
    · simp [hchosen]
  | false =>
    rw [if_neg Bool.false_ne_true]
    refine ⟨fun _ => ?_, fun hnil => ?_, ?_, ?_, h.queue⟩
    · simp [hstarting, hchosen, hone]
    · have hnil' : s.m_encFrames.tail ++ outs = [] := hnil
      rw [hnil'] at hrest
      cases hrest
    · simp only [hone, Nat.sub_self, List.drop_zero]
      rw [← List.append_assoc, horder]
    · simp [hchosen]

theorem step (henabled : s.isFramingEnabled = true) {op : Op} (hyields : Yields (s.muxed op))
    (hfits : s.Fits op) :
    ∃ s', s.step P op = some s' ∧ s'.protocolVersion = s.protocolVersion ∧ s'.Frames := by
  cases op with
  | registerFraming id =>
    exact ⟨_, rfl, protocolVersion_registerFraming id, h.registerFraming id⟩
  | send isOpen msg protocolID =>
    cases isOpen with
    | false => exact ⟨s, rfl, rfl, h⟩
    | true => exact h.send P henabled hyields hfits
  | region =>
    rw [SessionEgress.step, if_pos henabled]
    split_ifs with hstarting
    · exact ⟨s, rfl, rfl, h⟩
    · exact ⟨_, rfl, protocolVersion_writeFrames, h.writeFrames hstarting⟩
  | async_write =>
    cases hchosen : s.chosen with
    | nil => exact ⟨s, step_async_write_nil P hchosen, rfl, h⟩
    | cons out rest => exact ⟨_, step_async_write P hchosen, rfl, h.async_write hchosen⟩
  | completion =>
    rw [SessionEgress.step]
    split_ifs with hout
    · exact ⟨s, rfl, rfl, h⟩
    · exact h.completed P henabled hout hyields

end Frames

namespace Packets

variable {P} {s} {c : RLPXFrameCoder} (h : s.Packets P c)
include h

theorem queue_nil (hnil : s.m_writeQueue = []) :
    s.starting = 0 ∧ s.chosen = [] ∧ s.outstanding = 0 := by
  have honce := h.once
  rw [hnil, List.length_nil] at honce
  exact ⟨by omega, List.eq_nil_of_length_eq_zero (by omega), by omega⟩

theorem queue_cons {packet : Bytes} {rest : List Bytes} (hqueue : s.m_writeQueue = packet :: rest) :
    s.starting + s.chosen.length + s.outstanding = 1 := by
  have honce := h.once
  rw [hqueue, List.length_cons] at honce
  omega

theorem registerFraming (id : BitVec 16) : (s.registerFraming id).Packets P c := by
  obtain ⟨ws, heq, hsizes⟩ := registerFraming_eq (s := s) id
  rw [heq]
  exact ⟨h.once, h.order, h.unframed.1, hsizes h.unframed.2⟩

theorem send {msg : Bytes} {protocolID : BitVec 16} (henabled : s.isFramingEnabled = false) :
    ∃ s', s.send P true msg protocolID = some s' ∧ s'.protocolVersion = s.protocolVersion ∧
      s'.Packets P c := by
  rw [SessionEgress.send, if_neg (by simp), henabled, if_neg Bool.false_ne_true]
  obtain ⟨done, hsent, henc⟩ := h.order
  have honce := h.once
  refine ⟨_, rfl, ?_, ?_⟩
  · split_ifs <;> rfl
  have horder : ∃ done, s.sent ++ [msg] =
      done ++ (s.m_writeQueue ++ [msg]).drop (s.chosen.length + s.outstanding) ∧
        encPackets P done c = (s.written ++ s.chosen, s.m_io) := by
    refine ⟨done, ?_, henc⟩
    rw [List.drop_append_of_le_length (by omega), ← List.append_assoc, ← hsent]
  cases hqueue : s.m_writeQueue with
  | nil =>
    obtain ⟨hstarting, hchosen, hout⟩ := h.queue_nil hqueue
    rw [hqueue] at horder
    rw [if_pos (by simp)]
    refine ⟨?_, horder, h.unframed⟩
    simp [hstarting, hchosen, hout]
  | cons packet rest =>
    rw [hqueue] at horder
    rw [if_neg (by simp)]
    refine ⟨?_, horder, h.unframed⟩
    have hone := h.queue_cons hqueue
    simp only [List.length_append, List.length_cons]
    omega

theorem write (hstarting : s.starting ≠ 0) :
    ∃ s', s.write P = some s' ∧ s'.protocolVersion = s.protocolVersion ∧ s'.Packets P c := by
  cases hqueue : s.m_writeQueue with
  | nil => exact absurd (h.queue_nil hqueue).1 hstarting
  | cons packet rest =>
    have hone := h.queue_cons hqueue
    have hchosen : s.chosen = [] := List.eq_nil_of_length_eq_zero (by omega)
    have hout : s.outstanding = 0 := by omega
    obtain ⟨done, hsent, henc⟩ := h.order
    rw [write_cons P hqueue]
    refine ⟨_, rfl, rfl, ?_, ⟨done ++ [packet], ?_, ?_⟩, h.unframed⟩
    · rw [hchosen, List.length_nil] at hone
      simp only [hchosen, List.nil_append, List.length_cons, List.length_nil]
      omega
    · simpa [hchosen, hout, hqueue] using hsent
    · rw [encPackets_append, henc]
      simp [hchosen]

theorem async_write {out : Bytes} {rest : List Bytes} (hchosen : s.chosen = out :: rest) :
    Packets P { s with
      chosen := rest
      outstanding := s.outstanding + 1
      written := s.written ++ [out] } c := by
  obtain ⟨done, hsent, henc⟩ := h.order
  have honce := h.once
  rw [hchosen] at hsent henc honce
  rw [List.length_cons] at hsent honce
  refine ⟨?_, ⟨done, ?_, ?_⟩, h.unframed⟩
  · simp only
    omega
  · rw [hsent]
    simp only [Nat.add_assoc, Nat.add_comm 1]
  · rw [henc]
    simp

theorem completed (henabled : s.isFramingEnabled = false) (hout : s.outstanding ≠ 0) :
    ∃ s', s.completed P = some s' ∧ s'.protocolVersion = s.protocolVersion ∧ s'.Packets P c := by
  rw [SessionEgress.completed, henabled, if_neg Bool.false_ne_true]
  cases hqueue : s.m_writeQueue with
  | nil => exact absurd (h.queue_nil hqueue).2.2 hout
  | cons packet rest =>
    have hone := h.queue_cons hqueue
    have hstarting : s.starting = 0 := by omega
    have hchosen : s.chosen = [] := List.eq_nil_of_length_eq_zero (by omega)
    have hout : s.outstanding = 1 := by omega
    obtain ⟨done, hsent, henc⟩ := h.order
    have horder : s.sent = done ++ rest := by simpa [hchosen, hout, hqueue] using hsent
    refine ⟨_, rfl, ?_, ?_⟩
    · split_ifs <;> rfl
    cases rest with
    | nil =>
      rw [List.isEmpty_nil, if_pos rfl]
      exact ⟨by simp [hstarting, hchosen, hout], ⟨done, by simpa using horder, henc⟩, h.unframed⟩
    | cons packet' rest =>
      rw [List.isEmpty_cons, if_neg Bool.false_ne_true]
      exact ⟨by simp [hstarting, hchosen, hout],
        ⟨done, by simpa [hchosen, hout] using horder, henc⟩, h.unframed⟩

theorem step (henabled : s.isFramingEnabled = false) (op : Op) :
    ∃ s', s.step P op = some s' ∧ s'.protocolVersion = s.protocolVersion ∧ s'.Packets P c := by
  cases op with
  | registerFraming id =>
    exact ⟨_, rfl, protocolVersion_registerFraming id, h.registerFraming id⟩
  | send isOpen msg protocolID =>
    cases isOpen with
    | false => exact ⟨s, rfl, rfl, h⟩
    | true => exact h.send henabled
  | region =>
    rw [SessionEgress.step, henabled, if_neg Bool.false_ne_true]
    split_ifs with hstarting
    · exact ⟨s, rfl, rfl, h⟩
    · exact h.write hstarting
  | async_write =>
    cases hchosen : s.chosen with
    | nil => exact ⟨s, step_async_write_nil P hchosen, rfl, h⟩
    | cons out rest => exact ⟨_, step_async_write P hchosen, rfl, h.async_write hchosen⟩
  | completion =>
    rw [SessionEgress.step]
    split_ifs with hout
    · exact ⟨s, rfl, rfl, h⟩
    · exact h.completed henabled hout

theorem egress (henabled : s.isFramingEnabled = false) : s.Egress P c := by
  obtain ⟨done, hsent, henc⟩ := h.order
  have honce := h.once
  refine ⟨by omega, fun _ => ⟨done.length, ?_⟩, fun hframing => ?_,
    fun ⟨hstarting, hchosen, hout⟩ _ => ?_,
    fun _ hframing => ?_, fun ⟨hstarting, hchosen, hout⟩ => ?_⟩
  · rw [hsent, List.take_left' rfl, henc]
  · rw [henabled] at hframing
    cases hframing
  · have hqueue : s.m_writeQueue = [] := by
      apply List.eq_nil_of_length_eq_zero
      rw [hchosen, List.length_nil] at honce
      omega
    rw [hqueue, List.drop_nil, List.append_nil] at hsent
    rw [hsent, henc, hchosen, List.append_nil]
  · rw [henabled] at hframing
    cases hframing
  · refine ⟨List.eq_nil_of_length_eq_zero ?_, h.unframed⟩
    rw [hchosen, List.length_nil] at honce
    omega

end Packets

theorem Frames.egress {s : SessionEgress} (h : s.Frames) (henabled : s.isFramingEnabled = true)
    (c : RLPXFrameCoder) :
    s.Egress P c := by
  have hidle : s.Idle → s.m_encFrames = [] := fun ⟨hstarting, hchosen, hout⟩ => by
    by_contra hne
    have honce := h.once hne
    rw [hstarting, hchosen, hout] at honce
    cases honce
  refine ⟨h.outstanding_le.2, fun hframing => ?_, fun _ => ?_, fun _ hframing => ?_, fun hs _ => ?_,
    fun hs => ⟨h.queue, hidle hs, (h.nothing (hidle hs)).2.2⟩⟩
  · rw [henabled] at hframing
    cases hframing
  · rw [← h.order]
    exact List.prefix_append _ _
  · rw [henabled] at hframing
    cases hframing
  · have horder := h.order
    rw [hidle hs, List.drop_nil, List.append_nil] at horder
    exact horder

section Runs

variable {s} {c : RLPXFrameCoder}

theorem good_frames (h : s.isFramingEnabled = true) : s.Good P c ↔ s.Frames := by
  rw [Good, h, if_pos rfl]

theorem good_packets (h : s.isFramingEnabled = false) : s.Good P c ↔ s.Packets P c := by
  rw [Good, h, if_neg Bool.false_ne_true]

theorem Good.egress (h : s.Good P c) : s.Egress P c := by
  cases henabled : s.isFramingEnabled with
  | false => exact ((good_packets P henabled).mp h).egress henabled
  | true => exact ((good_frames P henabled).mp h).egress P henabled c

theorem isFramingEnabled_congr {s' : SessionEgress} (h : s'.protocolVersion = s.protocolVersion) :
    s'.isFramingEnabled = s.isFramingEnabled := by
  rw [isFramingEnabled, h, isFramingEnabled]

theorem step_good (h : s.Good P c) {op : Op} (hyields : Yields (s.muxed op)) (hfits : s.Fits op) :
    ∃ s', s.step P op = some s' ∧ s'.Good P c := by
  cases henabled : s.isFramingEnabled with
  | false =>
    obtain ⟨s', hs', hversion, hpackets⟩ := ((good_packets P henabled).mp h).step henabled op
    exact ⟨s', hs', (good_packets P ((isFramingEnabled_congr hversion).trans henabled)).mpr
      hpackets⟩
  | true =>
    obtain ⟨s', hs', hversion, hframes⟩ := ((good_frames P henabled).mp h).step P henabled hyields
      hfits
    exact ⟨s', hs', (good_frames P ((isFramingEnabled_congr hversion).trans henabled)).mpr hframes⟩

theorem run_good {ops : List Op} (h : s.Good P c)
    (hops : ∀ pre op post s', ops = pre ++ op :: post → s.run P pre = some s' →
      Yields (s'.muxed op) ∧ s'.Fits op) :
    ∃ s', s.run P ops = some s' ∧ s'.Good P c := by
  induction ops generalizing s with
  | nil => exact ⟨s, rfl, h⟩
  | cons op ops ih =>
    obtain ⟨hyields, hfits⟩ := hops [] op ops s rfl rfl
    obtain ⟨s₁, h₁, hgood₁⟩ := step_good P h hyields hfits
    obtain ⟨s₂, h₂, hgood₂⟩ := ih hgood₁ fun pre op' post s' heq hrun => by
      apply hops (op :: pre) op' post s'
      · rw [heq, List.cons_append]
      · rw [run, List.foldlM_cons, h₁]
        exact hrun
    refine ⟨s₂, ?_, hgood₂⟩
    rw [run, List.foldlM_cons, h₁]
    exact h₂

theorem start_good (version : ℕ) :
    ({ m_io := c, protocolVersion := version } : SessionEgress).Good P c := by
  have hsizes : ∀ w ∈ [({ m_protocolId := 0 } : RLPXFrameWriter)], w.size = 0 := by
    simp [RLPXFrameWriter.size]
  cases henabled : ({ m_io := c, protocolVersion := version } : SessionEgress).isFramingEnabled with
  | false =>
    rw [good_packets P henabled]
    exact ⟨rfl, ⟨[], rfl, rfl⟩, rfl, hsizes⟩
  | true =>
    rw [good_frames P henabled]
    refine ⟨fun hne => absurd rfl hne, fun _ => ⟨rfl, rfl, hsizes⟩, rfl, fun out hout => ?_, rfl⟩
    exact absurd hout List.not_mem_nil

end Runs

section Example

/-- A session of two peers that frame their packets. -/
def framed : SessionEgress where
  m_io := (exampleLink.side true).coder
  protocolVersion := 5

/-- It is enough to look at the states before the events of a run. -/
theorem fits_of_all {s : SessionEgress} {ops : List Op} (h : ∀ i : Fin ops.length,
      ∀ s' ∈ s.run P (ops.take i), Yields (s'.muxed ops[i]) ∧ s'.Fits ops[i])
    {pre : List Op} {op : Op} {post : List Op} {s' : SessionEgress}
    (hops : ops = pre ++ op :: post) (hrun : s.run P pre = some s') :
    Yields (s'.muxed op) ∧ s'.Fits op := by
  have hlt : pre.length < ops.length := by
    rw [hops, List.length_append, List.length_cons]
    omega
  have hi := h ⟨pre.length, hlt⟩ s'
  simp only [hops, List.take_left', Fin.getElem_fin, List.getElem_append_right, le_refl,
    Nat.sub_self,
    List.getElem_cons_zero] at hi
  exact hi hrun

def sendOne : List Op := [.send true [1, 1] 0, .region, .async_write, .completion]

end Example

end SessionEgress

end P2P
end XChain
