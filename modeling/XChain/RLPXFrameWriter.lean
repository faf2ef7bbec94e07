import XChain.RLPXFrameCoder
import XChain.RLPXPacket

/-!
# Writing packets in frames

A writer has a queue of packets of high priority and one of low priority. As many packets
as fit share a frame, and a packet that does not fit into a frame alone is cut into several
ones with a common sequence id.
-/
namespace XChain

namespace P2P

/-- A frame as it is given to the coder. -/
structure MuxFrame where
  header : FrameHeader
  payload : Bytes
  deriving DecidableEq

/-- Header, its code, the filled blocks and their code. -/
def MuxFrame.size (f : MuxFrame) : ℕ := 32 + f.payload.length + paddingOf f.payload.length + 16

/-- A queue. `writing` says whether its first packet is being written. -/
structure WriterState where
  q : List RLPXPacket := []
  writing : Bool := false
  remaining : ℕ := 0
  multiFrame : Bool := false
  sequence : BitVec 16 := -1
  deriving DecidableEq

structure RLPXFrameWriter where
  m_protocolId : BitVec 16
  first : WriterState := {}
  second : WriterState := {}
  m_sequenceId : BitVec 16 := 0
  deriving DecidableEq

/-- A frame that is being filled from a queue. -/
structure Filling where
  writing : Bool
  remaining : ℕ
  multiFrame : Bool
  sequence : BitVec 16
  m_sequenceId : BitVec 16
  frameAllot : ℕ
  payload : Bytes := []
  offset : ℕ := 0
  ret : ℕ := 0
  deriving DecidableEq

namespace Filling

def start (qs : WriterState) (m_sequenceId : BitVec 16) (frameAllot : ℕ) : Filling where
  writing := qs.writing
  remaining := qs.remaining
  multiFrame := qs.multiFrame
  sequence := qs.sequence
  m_sequenceId := m_sequenceId
  frameAllot := frameAllot

def state (f : Filling) (q : List RLPXPacket) : WriterState :=
  ⟨q, f.writing, f.remaining, f.multiFrame, f.sequence⟩

/-- Writes the type of a packet, unless the frame has to end before it. -/
def startPacket (f : Filling) (p : RLPXPacket) : Option Filling :=
  let multiFrame := decide (f.frameAllot < p.size)
  if f.frameAllot < p.m_type.length || (multiFrame && !f.payload.isEmpty) then none
  else
    let next := if multiFrame then f.m_sequenceId + 1 else f.m_sequenceId
    some { f with
      writing := true
      multiFrame := multiFrame
      sequence := if multiFrame then next else f.sequence
      m_sequenceId := next
      frameAllot := f.frameAllot - p.m_type.length
      payload := f.payload ++ p.m_type
      remaining := p.m_data.length }

/-- Writes what fits of the remaining payload of a packet. -/
def writePortion (f : Filling) (p : RLPXPacket) : Filling :=
  if f.frameAllot ≠ 0 ∧ f.remaining ≠ 0 then
    let offset := p.m_data.length - f.remaining
    let length := if f.remaining ≤ f.frameAllot then f.remaining else f.frameAllot
    let portion := cropped p.m_data offset length
    { f with
      offset := offset
      remaining := f.remaining - length
      frameAllot := f.frameAllot - portion.length
      payload := f.payload ++ portion }
  else f

/-- Writes the payload of the first packet of a queue as far as it fits, and fails where an
assertion does. A packet that is written completely leaves the queue. -/
def writeOn (f : Filling) (p : RLPXPacket) (q : List RLPXPacket) : Option (List RLPXPacket × Filling) :=
  if !f.multiFrame && f.frameAllot < f.remaining then none
  else
    let f := f.writePortion p
    if f.remaining = 0 then
      if 0 < f.offset || !f.multiFrame then some (q, { f with writing := false, ret := f.ret + 1 })
      else none
    else if f.multiFrame then some (p :: q, f)
    else none

/-- Fills a frame from a queue. A packet in several frames shares none of them. -/
def fill : List RLPXPacket → Filling → Option (List RLPXPacket × Filling)
  | [], f => some ([], f)
  | p :: q, f =>
    if f.frameAllot < 16 then some (p :: q, f)
    else if !f.writing && p.m_type.isEmpty then none
    else
      match (if f.writing then some f else f.startPacket p) with
      | none => some (p :: q, { f with writing := false, remaining := 0, multiFrame := false })
      | some f =>
        match f.writeOn p q with
        | none => none
        | some (rest, f) => if f.multiFrame then some (rest, f) else fill q f

example (f : Filling) : fill [] f = some ([], f) := by simp only [fill]

end Filling

namespace RLPXFrameWriter

/-- Only valid packets are taken. -/
def enque (w : RLPXFrameWriter) (p : RLPXPacket) (high : Bool) : RLPXFrameWriter :=
  if !p.isValid then w
  else if high then { w with first := { w.first with q := w.first.q ++ [p] } }
  else { w with second := { w.second with q := w.second.q ++ [p] } }

def queue (w : RLPXFrameWriter) (high : Bool) : WriterState := if high then w.first else w.second

def setQueue (w : RLPXFrameWriter) (high : Bool) (qs : WriterState) (m_sequenceId : BitVec 16) :
    RLPXFrameWriter :=
  if high then { w with first := qs, m_sequenceId := m_sequenceId }
  else { w with second := qs, m_sequenceId := m_sequenceId }

/-- The number of packets that wait. -/
def size (w : RLPXFrameWriter) : ℕ := w.first.q.length + w.second.q.length

/-- How many bytes of packets a frame may have. The differences are of words of 64 bits. -/
def frameAllot (both : Bool) (frameLen : ℕ) : ℕ :=
  let part :=
    if both then
      if 0 < (frameLen / 2 + (2 ^ 64 - 64)) % 2 ^ 64 then frameLen / 2 else frameLen
    else frameLen
  (part + (2 ^ 64 - 48)) % 2 ^ 64

/-- The header of a frame that was filled from a queue which started with `p`. -/
def frameHeader (w : RLPXFrameWriter) (p : Option RLPXPacket) (f : Filling) : FrameHeader :=
  if f.multiFrame then
    if f.offset = 0 && f.writing then
      .first w.m_protocolId f.sequence (BitVec.ofNat 32 ((p.map RLPXPacket.size).getD 0))
    else .continuation w.m_protocolId f.sequence
  else .single w.m_protocolId

/-- One round for each frame. In the first one the queue of high priority comes first, later
the other one. -/
def muxLoop (frameLen : ℕ) (swapQueues : Bool) (w : RLPXFrameWriter) (o_toWrite : List MuxFrame)
    (ret : ℕ) : Option (RLPXFrameWriter × List MuxFrame × ℕ) :=
  if frameLen < 64 then some (w, o_toWrite, ret)
  else
    let highPending := !w.first.q.isEmpty
    let lowPending := !w.second.q.isEmpty
    if !highPending && !lowPending then some (w, o_toWrite, ret)
    else
      let high := if highPending && !swapQueues then true else !lowPending
      let allot := frameAllot (!swapQueues && highPending && lowPending) frameLen
      match Filling.fill (w.queue high).q (.start (w.queue high) w.m_sequenceId allot) with
      | none => none
      | some (q, f) =>
        if f.payload.isEmpty then
          let w' := w.setQueue high (f.state q) f.m_sequenceId
          if swapQueues then some (w', o_toWrite, ret + f.ret)
          else muxLoop frameLen true w' o_toWrite (ret + f.ret)
        else
          let frame : MuxFrame := ⟨w.frameHeader (w.queue high).q.head? f, f.payload⟩
          if frameLen < frame.size then none
          else
            let f := { f with multiFrame := f.multiFrame && f.remaining ≠ 0 }
            muxLoop (frameLen - frame.size) true (w.setQueue high (f.state q) f.m_sequenceId)
              (o_toWrite ++ [frame]) (ret + f.ret)
termination_by 2 * frameLen + if swapQueues then 0 else 1
decreasing_by
  · simp_all
  · simp only [MuxFrame.size] at *
    split <;> omega

/-- The frames for `_size` bytes, and the number of packets that are written completely. -/
def mux (w : RLPXFrameWriter) (size : ℕ) : Option (RLPXFrameWriter × List MuxFrame × ℕ) :=
  if size < 64 then some (w, [], 0) else muxLoop (size / 16 * 16) false w [] 0

end RLPXFrameWriter

/-- What holds of a queue between frames: only the first packet can be written in part, and
then some of its payload is written and some is not. -/
structure WriterState.Sound (qs : WriterState) : Prop where
  proper : ∀ p ∈ qs.q, p.Proper
  idle : qs.writing = false → qs.remaining = 0 ∧ qs.multiFrame = false
  busy : qs.writing = true → qs.multiFrame = true ∧ 0 < qs.remaining ∧
    ∃ p rest, qs.q = p :: rest ∧ qs.remaining < p.m_data.length

/-- The packets at the front that fit into a frame. -/
def fitting : ℕ → List RLPXPacket → List RLPXPacket
  | _, [] => []
  | allot, p :: q => if 16 ≤ allot ∧ p.size ≤ allot then p :: fitting (allot - p.size) q else []

/-- The bytes of packets one after the other. -/
def contents (packets : List RLPXPacket) : Bytes :=
  (packets.map fun p => p.m_type ++ p.m_data).flatten

theorem fitting_isPrefix (allot : ℕ) (q : List RLPXPacket) : fitting allot q <+: q := by
  induction q generalizing allot with
  | nil => exact List.prefix_rfl
  | cons p q ih =>
    rw [fitting]
    split_ifs
    · exact List.cons_prefix_cons.mpr ⟨rfl, ih _⟩
    · exact List.nil_prefix

theorem contents_ne_nil {q : List RLPXPacket} (hq : ∀ p ∈ q, p.Proper) (hne : q ≠ []) :
    contents q ≠ [] := by
  obtain ⟨p, rest, rfl⟩ := List.exists_cons_of_ne_nil hne
  have htype := List.ne_nil_of_length_pos (hq p List.mem_cons_self).type_pos
  simp [contents, htype]

@[simp] theorem contents_nil : contents [] = [] := rfl

@[simp] theorem contents_cons (p : RLPXPacket) (q : List RLPXPacket) :
    contents (p :: q) = p.m_type ++ p.m_data ++ contents q := rfl

namespace Filling

variable {f : Filling} {p : RLPXPacket} {q : List RLPXPacket}

/-- No packet is written in part. -/
structure Idle (f : Filling) : Prop where
  writing : f.writing = false
  remaining : f.remaining = 0
  multiFrame : f.multiFrame = false
  offset : f.offset = 0

/-- A frame after some packets were put into it. -/
def packed (f : Filling) (packets : List RLPXPacket) : Filling :=
  { f with
    frameAllot := f.frameAllot - (contents packets).length
    payload := f.payload ++ contents packets
    ret := f.ret + packets.length }

@[simp] theorem packed_nil : f.packed [] = f := by
  simp [packed]

theorem packed_cons : f.packed (p :: q) = (f.packed [p]).packed q := by
  simp only [packed, contents_cons, contents_nil, List.length_append, List.length_cons,
    List.length_nil, List.append_nil, List.append_assoc, Nat.sub_sub]
  congr 1 <;> omega

theorem Idle.eq_self (h : f.Idle) :
    { f with writing := false, remaining := 0, multiFrame := false } = f := by
  obtain ⟨hwriting, hremaining, hmulti, -⟩ := h
  cases f
  simp_all

theorem Idle.packed (h : f.Idle) (packets : List RLPXPacket) : (f.packed packets).Idle :=
  ⟨h.writing, h.remaining, h.multiFrame, h.offset⟩

theorem writePortion_eq (hallot : f.frameAllot ≠ 0) (hpos : f.remaining ≠ 0)
    (hle : f.remaining ≤ p.m_data.length) : f.writePortion p = { f with
      offset := p.m_data.length - f.remaining
      remaining := f.remaining - f.frameAllot
      frameAllot := f.frameAllot - f.remaining
      payload := f.payload ++ (p.m_data.drop (p.m_data.length - f.remaining)).take f.frameAllot } := by
  have hdrop : (p.m_data.drop (p.m_data.length - f.remaining)).length = f.remaining := by
    rw [List.length_drop]
    omega
  rw [writePortion, if_pos ⟨hallot, hpos⟩]
  by_cases hfits : f.remaining ≤ f.frameAllot
  · simp only [if_pos hfits]
    rw [cropped, if_pos (by omega), List.take_of_length_le (by omega : _ ≤ f.remaining),
      List.take_of_length_le (by omega : _ ≤ f.frameAllot), hdrop]
    simp [Nat.sub_eq_zero_of_le hfits]
  · simp only [if_neg hfits]
    rw [cropped, if_pos (by omega), List.length_take, hdrop, Nat.min_eq_left (by omega)]
    simp [Nat.sub_eq_zero_of_le (Nat.le_of_not_le hfits)]

/-- The rest of a packet that fits. -/
theorem writeOn_last (hpos : 0 < f.remaining) (hle : f.remaining ≤ p.m_data.length)
    (hfits : f.remaining ≤ f.frameAllot) (hmulti : f.multiFrame = true → f.remaining < p.m_data.length) :
    f.writeOn p q = some (q, { f with
      writing := false
      offset := p.m_data.length - f.remaining
      remaining := 0
      frameAllot := f.frameAllot - f.remaining
      payload := f.payload ++ p.m_data.drop (p.m_data.length - f.remaining)
      ret := f.ret + 1 }) := by
  have hdrop : (p.m_data.drop (p.m_data.length - f.remaining)).take f.frameAllot =
      p.m_data.drop (p.m_data.length - f.remaining) := by
    apply List.take_of_length_le
    rw [List.length_drop]
    omega
  have hfit : decide (f.frameAllot < f.remaining) = false := decide_eq_false (by omega)
  rw [writeOn, writePortion_eq (by omega) (by omega) hle, hdrop, hfit]
  cases hm : f.multiFrame with
  | false => simp [hfits]
  | true =>
    have hlt := hmulti hm
    simp [hfits, hlt]

/-- A part of a packet. -/
theorem writeOn_part (hallot : 0 < f.frameAllot) (hle : f.remaining ≤ p.m_data.length)
    (hlong : f.frameAllot < f.remaining) (hmulti : f.multiFrame = true) :
    f.writeOn p q = some (p :: q, { f with
      offset := p.m_data.length - f.remaining
      remaining := f.remaining - f.frameAllot
      frameAllot := 0
      payload := f.payload ++ (p.m_data.drop (p.m_data.length - f.remaining)).take f.frameAllot }) := by
  have hrest : f.remaining - f.frameAllot ≠ 0 := by omega
  have hnone : f.frameAllot - f.remaining = 0 := by omega
  rw [writeOn, writePortion_eq (by omega) (by omega) hle]
  simp [hmulti, hrest, hnone]

/-- A whole packet that fits, which may have no payload. -/
theorem writeOn_whole (hremaining : f.remaining = p.m_data.length) (hfits : p.m_data.length ≤ f.frameAllot)
    (hmulti : f.multiFrame = false) (hoffset : f.offset = 0) :
    f.writeOn p q = some (q, { f with
      writing := false
      remaining := 0
      frameAllot := f.frameAllot - p.m_data.length
      payload := f.payload ++ p.m_data
      ret := f.ret + 1 }) := by
  cases hdata : p.m_data with
  | nil =>
    rw [hdata, List.length_nil] at hremaining
    simp [writeOn, writePortion, hremaining, hmulti]
  | cons b rest =>
    rw [← hdata]
    have hpos : 0 < f.remaining := by
      rw [hremaining, hdata]
      exact Nat.succ_pos _
    rw [writeOn_last hpos hremaining.le (by omega) (by simp [hmulti])]
    simp [hremaining, hoffset]

theorem startPacket_fits (hf : f.multiFrame = false) (hp : p.Proper) (hfits : p.size ≤ f.frameAllot) :
    f.startPacket p = some { f with
      writing := true
      frameAllot := f.frameAllot - p.m_type.length
      payload := f.payload ++ p.m_type
      remaining := p.m_data.length } := by
  have hsize := hp.size_eq
  have hmulti : decide (f.frameAllot < p.size) = false := decide_eq_false (by omega)
  have htype : decide (f.frameAllot < p.m_type.length) = false := decide_eq_false (by omega)
  simp [startPacket, hmulti, htype, hf]

/-- A packet that fits is put into the frame. -/
theorem fill_fits (hf : f.Idle) (hp : p.Proper) (hblock : 16 ≤ f.frameAllot)
    (hfits : p.size ≤ f.frameAllot) : fill (p :: q) f = fill q (f.packed [p]) := by
  have hsize := hp.size_eq
  have hne : p.m_type.isEmpty = false := by
    rw [List.isEmpty_eq_false_iff]
    exact List.ne_nil_of_length_pos hp.type_pos
  rw [fill, if_neg (by omega), startPacket_fits hf.multiFrame hp hfits]
  simp only [hf.writing, hne, Bool.not_false, Bool.and_false, Bool.false_eq_true, if_false]
  rw [writeOn_whole (by rfl) (by simp only; omega) (by exact hf.multiFrame) (by exact hf.offset)]
  simp only [hf.multiFrame, Bool.false_eq_true, if_false]
  congr 1
  simp [packed, hf.writing, hf.remaining, hf.multiFrame, hf.offset, Nat.sub_sub]

theorem fill_full (h : f.frameAllot < 16) : fill q f = some (q, f) := by
  cases q with
  | nil => rfl
  | cons p q => rw [fill, if_pos h]

/-- Packets that fit are put into the frame, up to one that does not. -/
theorem fill_packed (hf : f.Idle) (hq : ∀ p ∈ q, p.Proper)
    (hfirst : f.payload = [] → 16 ≤ f.frameAllot → q ≠ [] → fitting f.frameAllot q ≠ []) :
    fill q f = some (q.drop (fitting f.frameAllot q).length, f.packed (fitting f.frameAllot q)) := by
  induction q generalizing f with
  | nil => simp [fill, fitting]
  | cons p q ih =>
    have hp := hq p List.mem_cons_self
    rw [fitting] at hfirst ⊢
    by_cases hfits : 16 ≤ f.frameAllot ∧ p.size ≤ f.frameAllot
    · have hallot : (f.packed [p]).frameAllot = f.frameAllot - p.size := by
        simp [packed, hp.size_eq]
      have hpayload : (f.packed [p]).payload ≠ [] := by
        have hne := List.ne_nil_of_length_pos hp.type_pos
        simp [packed, hne]
      rw [if_pos hfits, fill_fits hf hp hfits.1 hfits.2, packed_cons (q := fitting _ q), ← hallot]
      exact ih (hf.packed [p]) (fun p' hp' => hq p' (List.mem_cons_of_mem p hp')) fun h => absurd h hpayload
    · rw [if_neg hfits] at hfirst ⊢
      rw [packed_nil, fill]
      by_cases hblock : f.frameAllot < 16
      · rw [if_pos hblock]
        rfl
      · have hpayload : f.payload.isEmpty = false := by
          rw [List.isEmpty_eq_false_iff]
          exact fun h => hfirst h (by omega) (List.cons_ne_nil p q) rfl
        have hne : p.m_type.isEmpty = false := by
          rw [List.isEmpty_eq_false_iff]
          exact List.ne_nil_of_length_pos hp.type_pos
        have hlong : decide (f.frameAllot < p.size) = true := decide_eq_true (by omega)
        have hnone : f.startPacket p = none := by simp [startPacket, hlong, hpayload]
        rw [if_neg hblock, hnone]
        simp only [hf.writing, hne, Bool.not_false, Bool.and_false, Bool.false_eq_true, if_false]
        rw [hf.eq_self]
        rfl

/-- A packet that does not fit into an empty frame is begun. -/
theorem fill_first (hf : f.Idle) (hp : p.Proper) (hpayload : f.payload = []) (hblock : 16 ≤ f.frameAllot)
    (hlong : f.frameAllot < p.size) :
    fill (p :: q) f = some (p :: q, { f with
      writing := true
      multiFrame := true
      sequence := f.m_sequenceId + 1
      m_sequenceId := f.m_sequenceId + 1
      frameAllot := 0
      payload := p.m_type ++ p.m_data.take (f.frameAllot - p.m_type.length)
      remaining := p.size - f.frameAllot }) := by
  have hsize := hp.size_eq
  have hshort := hp.type_short
  have hne : p.m_type.isEmpty = false := by
    rw [List.isEmpty_eq_false_iff]
    exact List.ne_nil_of_length_pos hp.type_pos
  have hmulti : decide (f.frameAllot < p.size) = true := decide_eq_true hlong
  have htype : decide (f.frameAllot < p.m_type.length) = false := decide_eq_false (by omega)
  have hstart : f.startPacket p = some { f with
      writing := true
      multiFrame := true
      sequence := f.m_sequenceId + 1
      m_sequenceId := f.m_sequenceId + 1
      frameAllot := f.frameAllot - p.m_type.length
      payload := p.m_type
      remaining := p.m_data.length } := by
    simp [startPacket, hmulti, htype, hpayload]
  rw [fill, if_neg (by omega), hstart]
  simp only [hf.writing, hne, Bool.not_false, Bool.and_false, Bool.false_eq_true, if_false]
  rw [writeOn_part (by simp only; omega) le_rfl (by simp only; omega) rfl]
  simp only [Nat.sub_self, List.drop_zero, if_true, hf.offset]
  congr 3
  omega

/-- The rest of a packet of which a part is written, or a further part of it. -/
theorem fill_writing (hwriting : f.writing = true) (hmulti : f.multiFrame = true)
    (hpayload : f.payload = []) (hblock : 16 ≤ f.frameAllot) (hpos : 0 < f.remaining)
    (hlt : f.remaining < p.m_data.length) :
    fill (p :: q) f =
      if f.remaining ≤ f.frameAllot then
        some (q, { f with
          writing := false
          offset := p.m_data.length - f.remaining
          remaining := 0
          frameAllot := f.frameAllot - f.remaining
          payload := p.m_data.drop (p.m_data.length - f.remaining)
          ret := f.ret + 1 })
      else
        some (p :: q, { f with
          offset := p.m_data.length - f.remaining
          remaining := f.remaining - f.frameAllot
          frameAllot := 0
          payload := (p.m_data.drop (p.m_data.length - f.remaining)).take f.frameAllot }) := by
  rw [fill, if_neg (by omega)]
  simp only [hwriting, Bool.not_true, Bool.false_and, Bool.false_eq_true, if_false, if_true]
  split_ifs with hfits
  · rw [writeOn_last hpos hlt.le hfits fun _ => hlt]
    simp [hmulti, hpayload]
  · rw [writeOn_part (by omega) hlt.le (by omega) hmulti]
    simp [hmulti, hpayload, hwriting]

end Filling

namespace RLPXFrameWriter

variable {w w' w'' : RLPXFrameWriter} {high : Bool}

@[simp] theorem queue_setQueue (qs : WriterState) (seqId : BitVec 16) :
    (w.setQueue high qs seqId).queue high = qs := by
  cases high <;> rfl

@[simp] theorem queue_setQueue_not (qs : WriterState) (seqId : BitVec 16) :
    (w.setQueue high qs seqId).queue (!high) = w.queue (!high) := by
  cases high <;> rfl

@[simp] theorem setQueue_queue : w.setQueue high (w.queue high) w.m_sequenceId = w := by
  cases high <;> rfl

/-- Both queues are as they are between frames. -/
def Sound (w : RLPXFrameWriter) : Prop := ∀ high, (w.queue high).Sound

theorem queue_enque {p : RLPXPacket} (hp : p.Proper) (high' : Bool) :
    (w.enque p high).queue high' =
      { w.queue high' with q := (w.queue high').q ++ if high' = high then [p] else [] } := by
  rw [enque, hp.isValid]
  cases high <;> cases high' <;> simp [queue]

/-- A packet that is put into a queue waits behind the others. -/
theorem Sound.enque {p : RLPXPacket} (h : w.Sound) (hp : p.Proper) : (w.enque p high).Sound := by
  intro high'
  have hqs := h high'
  rw [queue_enque hp]
  refine ⟨fun p' hp' => ?_, hqs.idle, fun hb => ?_⟩
  · rcases List.mem_append.mp hp' with hold | hnew
    · exact hqs.proper p' hold
    · split_ifs at hnew
      · rwa [List.mem_singleton.mp hnew]
      · exact absurd hnew List.not_mem_nil
  · obtain ⟨hmulti, hpos, p', rest, hq, hlt⟩ := hqs.busy hb
    exact ⟨hmulti, hpos, p', _, by rw [hq, List.cons_append], hlt⟩

/-- What one frame takes from a queue, with the packets that it completes. -/
inductive Cut (w : RLPXFrameWriter) (high : Bool) :
    MuxFrame → List RLPXPacket → RLPXFrameWriter → Prop
  | packed (packets rest : List RLPXPacket) (hidle : (w.queue high).writing = false)
      (hq : (w.queue high).q = packets ++ rest) (hne : packets ≠ []) :
      Cut w high ⟨.single w.m_protocolId, contents packets⟩ packets
        (w.setQueue high { w.queue high with q := rest } w.m_sequenceId)
  | first (p : RLPXPacket) (rest : List RLPXPacket) (k : ℕ) (hidle : (w.queue high).writing = false)
      (hq : (w.queue high).q = p :: rest) (hpos : 0 < k) (hlt : k < p.m_data.length) :
      Cut w high
        ⟨.first w.m_protocolId (w.m_sequenceId + 1) (BitVec.ofNat 32 p.size),
          p.m_type ++ p.m_data.take k⟩ []
        (w.setQueue high ⟨p :: rest, true, p.m_data.length - k, true, w.m_sequenceId + 1⟩
          (w.m_sequenceId + 1))
  | more (p : RLPXPacket) (rest : List RLPXPacket) (k : ℕ) (hbusy : (w.queue high).writing = true)
      (hq : (w.queue high).q = p :: rest) (hpos : 0 < k) (hlt : k < (w.queue high).remaining) :
      Cut w high
        ⟨.continuation w.m_protocolId (w.queue high).sequence,
          (p.m_data.drop (p.m_data.length - (w.queue high).remaining)).take k⟩ []
        (w.setQueue high { w.queue high with remaining := (w.queue high).remaining - k } w.m_sequenceId)
  | last (p : RLPXPacket) (rest : List RLPXPacket) (hbusy : (w.queue high).writing = true)
      (hq : (w.queue high).q = p :: rest) :
      Cut w high
        ⟨.continuation w.m_protocolId (w.queue high).sequence,
          p.m_data.drop (p.m_data.length - (w.queue high).remaining)⟩ [p]
        (w.setQueue high ⟨rest, false, 0, false, (w.queue high).sequence⟩ w.m_sequenceId)

/-- A frame is filled without failing, and then it is a cut or it is empty. -/
theorem fill_cut (hsound : (w.queue high).Sound) (allot : ℕ) :
    ∃ q f, Filling.fill (w.queue high).q (.start (w.queue high) w.m_sequenceId allot) = some (q, f) ∧
      (f.payload = [] → f.state q = w.queue high ∧ f.m_sequenceId = w.m_sequenceId ∧ f.ret = 0) ∧
      (f.payload ≠ [] → ∃ packets, packets.length = f.ret ∧
        Cut w high ⟨w.frameHeader (w.queue high).q.head? f, f.payload⟩ packets
          (w.setQueue high ({ f with multiFrame := f.multiFrame && f.remaining ≠ 0 }.state q)
            f.m_sequenceId)) := by
  cases hwriting : (w.queue high).writing with
  | true =>
    obtain ⟨hmulti, hpos, p, rest, hq, hlt⟩ := hsound.busy hwriting
    by_cases hblock : 16 ≤ allot
    · rw [hq, Filling.fill_writing (by exact hwriting) hmulti rfl hblock hpos hlt]
      have hoffset : 0 < p.m_data.length - (w.queue high).remaining := by omega
      by_cases hfits : (w.queue high).remaining ≤ allot
      · refine ⟨_, _, if_pos hfits, fun h => ?_, fun _ => ⟨[p], rfl, ?_⟩⟩
        · have hlen := congrArg List.length h
          simp only [Filling.start, List.length_drop, List.length_nil] at hlen
          omega
        · have hcut : Cut w high _ _ _ := Cut.last p rest hwriting hq
          simpa [frameHeader, Filling.start, Filling.state, hmulti, hoffset.ne'] using hcut
      · refine ⟨_, _, if_neg hfits, fun h => ?_, fun _ => ⟨[], rfl, ?_⟩⟩
        · have hlen := congrArg List.length h
          simp only [Filling.start, List.length_take, List.length_drop, List.length_nil] at hlen
          omega
        · have hcut : Cut w high _ _ _ := Cut.more p rest allot hwriting hq (by omega) (by omega)
          have hrest : (w.queue high).remaining - allot ≠ 0 := by omega
          simpa [frameHeader, Filling.start, Filling.state, hmulti, hoffset.ne', hwriting, hq, hrest]
            using hcut
    · exact ⟨_, _, Filling.fill_full (Nat.lt_of_not_le hblock), fun _ => ⟨rfl, rfl, rfl⟩,
        fun h => absurd rfl h⟩
  | false =>
    obtain ⟨hremaining, hmulti⟩ := hsound.idle hwriting
    have hidle : (Filling.start (w.queue high) w.m_sequenceId allot).Idle :=
      ⟨hwriting, hremaining, hmulti, rfl⟩
    by_cases hfirst : (w.queue high).q ≠ [] ∧ 16 ≤ allot ∧ fitting allot (w.queue high).q = []
    · obtain ⟨hne, hblock, hfit⟩ := hfirst
      obtain ⟨p, rest, hq⟩ := List.exists_cons_of_ne_nil hne
      have hp : p.Proper := hsound.proper p (by rw [hq]; exact List.mem_cons_self)
      have hsize := hp.size_eq
      have hshort := hp.type_short
      have hlong : allot < p.size := by
        rw [hq, fitting] at hfit
        by_contra hle
        rw [if_pos ⟨hblock, Nat.le_of_not_lt hle⟩] at hfit
        cases hfit
      rw [hq, Filling.fill_first hidle hp rfl hblock hlong]
      refine ⟨_, _, rfl, fun h => ?_, fun _ => ⟨[], rfl, ?_⟩⟩
      · have hpos := hp.type_pos
        have hlen := congrArg List.length h
        simp only [List.length_append, List.length_nil] at hlen
        omega
      · have hcut : Cut w high _ _ _ :=
          Cut.first p rest (allot - p.m_type.length) hwriting hq (by omega) (by omega)
        have hrest : p.m_data.length - (allot - p.m_type.length) = p.size - allot := by omega
        have hsome : p.size - allot ≠ 0 := by omega
        rw [hrest] at hcut
        simpa [frameHeader, Filling.start, Filling.state, hsome] using hcut
    · have hpacked : Filling.fill (w.queue high).q (.start (w.queue high) w.m_sequenceId allot) =
          some ((w.queue high).q.drop (fitting allot (w.queue high).q).length,
            (Filling.start (w.queue high) w.m_sequenceId allot).packed (fitting allot (w.queue high).q)) :=
        Filling.fill_packed hidle hsound.proper fun _ hblock hne hfit => hfirst ⟨hne, hblock, hfit⟩
      have hfits : fitting allot (w.queue high).q <+: (w.queue high).q := fitting_isPrefix _ _
      have hproper : ∀ p ∈ fitting allot (w.queue high).q, p.Proper := fun p hp =>
        hsound.proper p (hfits.subset hp)
      have hsplit := (List.prefix_iff_eq_append.mp hfits).symm
      generalize fitting allot (w.queue high).q = packets at hpacked hproper hsplit
      rw [hpacked]
      refine ⟨_, _, rfl, fun h => ?_, fun h => ⟨packets, by simp [Filling.packed, Filling.start], ?_⟩⟩
      · by_cases hnil : packets = []
        · subst hnil
          exact ⟨by simp [Filling.start, Filling.state], by simp [Filling.start], by simp [Filling.start]⟩
        · exact absurd h (contents_ne_nil hproper hnil)
      · have hne : packets ≠ [] := by
          rintro rfl
          exact h rfl
        have hcut := Cut.packed packets ((w.queue high).q.drop packets.length) hwriting hsplit hne
        simpa [frameHeader, Filling.packed, Filling.start, Filling.state, hmulti] using hcut

theorem unchanged_of_fill {allot : ℕ} {q : List RLPXPacket} {f : Filling} (hsound : (w.queue high).Sound)
    (hfill : Filling.fill (w.queue high).q (.start (w.queue high) w.m_sequenceId allot) = some (q, f))
    (hempty : f.payload.isEmpty = true) :
    w.setQueue high (f.state q) f.m_sequenceId = w ∧ f.ret = 0 := by
  obtain ⟨q', f', hfill', hnone, -⟩ := fill_cut hsound allot
  obtain ⟨rfl, rfl⟩ : q' = q ∧ f' = f := by simpa using hfill'.symm.trans hfill
  obtain ⟨hstate, hseq, hret⟩ := hnone (List.isEmpty_iff.mp hempty)
  exact ⟨by rw [hstate, hseq, setQueue_queue], hret⟩

theorem cut_of_fill {allot : ℕ} {q : List RLPXPacket} {f : Filling} (hsound : (w.queue high).Sound)
    (hfill : Filling.fill (w.queue high).q (.start (w.queue high) w.m_sequenceId allot) = some (q, f))
    (hsome : ¬f.payload.isEmpty = true) :
    ∃ packets, packets.length = f.ret ∧
      Cut w high ⟨w.frameHeader (w.queue high).q.head? f, f.payload⟩ packets
        (w.setQueue high ({ f with multiFrame := f.multiFrame && f.remaining ≠ 0 }.state q)
          f.m_sequenceId) := by
  obtain ⟨q', f', hfill', -, hcut⟩ := fill_cut hsound allot
  obtain ⟨rfl, rfl⟩ : q' = q ∧ f' = f := by simpa using hfill'.symm.trans hfill
  exact hcut fun h => hsome (List.isEmpty_iff.mpr h)

theorem Cut.sound {f : MuxFrame} {packets : List RLPXPacket} (h : Cut w high f packets w')
    (hsound : w.Sound) : w'.Sound := by
  have hself : (w'.queue high).Sound := by
    have hqs := hsound high
    cases h with
    | packed packets rest hidle hq hne =>
      rw [queue_setQueue]
      refine ⟨fun p hp => hqs.proper p ?_, hqs.idle, fun hbusy => ?_⟩
      · rw [hq]
        exact List.mem_append_right packets hp
      · simp [hidle] at hbusy
    | first p rest k hidle hq hpos hlt =>
      rw [queue_setQueue, ← hq]
      refine ⟨hqs.proper, fun h => by simp at h, fun _ => ⟨rfl, ?_, p, rest, hq, ?_⟩⟩
      · simp only
        omega
      · simp only
        omega
    | more p rest k hbusy hq hpos hlt =>
      rw [queue_setQueue]
      obtain ⟨hmulti, hremaining, p', rest', hq', hlt'⟩ := hqs.busy hbusy
      refine ⟨hqs.proper, fun h => by simp [hbusy] at h, fun _ => ⟨hmulti, ?_, p', rest', hq', ?_⟩⟩
      · simp only
        omega
      · simp only
        omega
    | last p rest hbusy hq =>
      rw [queue_setQueue]
      refine ⟨fun p' hp' => hqs.proper p' ?_, fun _ => ⟨rfl, rfl⟩, fun h => by simp at h⟩
      rw [hq]
      exact List.mem_cons_of_mem p hp'
  have hother : (w'.queue (!high)).Sound := by
    have hqs := hsound (!high)
    cases h <;> rwa [queue_setQueue_not]
  intro high'
  by_cases heq : high' = high
  · rwa [heq]
  · rwa [Bool.eq_not_of_ne heq]

/-- What several frames take from the queues, with the packets that they complete and their
priorities. -/
inductive Cuts : RLPXFrameWriter → List MuxFrame → List (Bool × RLPXPacket) → RLPXFrameWriter → Prop
  | nil (w : RLPXFrameWriter) : Cuts w [] [] w
  | cons {w w' w'' : RLPXFrameWriter} {high : Bool} {f : MuxFrame} {fs : List MuxFrame}
      {packets : List RLPXPacket} {rest : List (Bool × RLPXPacket)}
      (h : Cut w high f packets w') (t : Cuts w' fs rest w'') :
      Cuts w (f :: fs) (packets.map (high, ·) ++ rest) w''

theorem muxLoop_cuts {frameLen : ℕ} {swapQueues : Bool} {o_toWrite frames : List MuxFrame} {ret ret' : ℕ}
    (hsound : w.Sound) (h : muxLoop frameLen swapQueues w o_toWrite ret = some (w', frames, ret')) :
    ∃ fs packets, frames = o_toWrite ++ fs ∧ Cuts w fs packets w' ∧ ret' = ret + packets.length := by
  fun_induction muxLoop frameLen swapQueues w o_toWrite ret with
  | case1 frameLen swapQueues w o_toWrite ret =>
    obtain ⟨rfl, rfl, rfl⟩ : w = w' ∧ o_toWrite = frames ∧ ret = ret' := by simpa using h
    exact ⟨[], [], (List.append_nil _).symm, .nil w, rfl⟩
  | case2 frameLen swapQueues w o_toWrite ret =>
    obtain ⟨rfl, rfl, rfl⟩ : w = w' ∧ o_toWrite = frames ∧ ret = ret' := by simpa using h
    exact ⟨[], [], (List.append_nil _).symm, .nil w, rfl⟩
  | case3 => cases h
  | case4 frameLen w o_toWrite ret _ _ _ _ q f hempty high allot hfill w₁ =>
    obtain ⟨(hw : w₁ = w), hret⟩ := unchanged_of_fill (hsound high) hfill hempty
    obtain ⟨rfl, rfl, rfl⟩ : w₁ = w' ∧ o_toWrite = frames ∧ ret + f.ret = ret' := by simpa using h
    exact ⟨[], [], (List.append_nil _).symm, by rw [hw]; exact .nil w, by rw [hret]; rfl⟩
  | case5 frameLen swapQueues w o_toWrite ret _ _ _ _ high allot q f hfill hempty w₁ _ ih =>
    obtain ⟨(hw : w₁ = w), hret⟩ := unchanged_of_fill (hsound high) hfill hempty
    obtain ⟨fs, packets, hframes, hcuts, hret'⟩ := ih (by rw [hw]; exact hsound) h
    rw [hw] at hcuts
    exact ⟨fs, packets, hframes, hcuts, by rw [hret', hret, Nat.add_zero]⟩
  | case6 => cases h
  | case7 frameLen swapQueues w o_toWrite ret _ _ _ _ high allot q f hfill hsome frame _ f₁ ih =>
    obtain ⟨done, hdone, hcut⟩ := cut_of_fill (hsound high) hfill hsome
    obtain ⟨fs, packets, hframes, hcuts, hret⟩ := ih (hcut.sound hsound) h
    refine ⟨frame :: fs, done.map (high, ·) ++ packets, ?_, .cons hcut hcuts, ?_⟩
    · rw [hframes, List.append_assoc]
      rfl
    · rw [hret, List.length_append, List.length_map, hdone, Nat.add_assoc]

/-- Each call of mux is a series of cuts, and it counts the packets that are completed. -/
theorem mux_cuts {size : ℕ} {frames : List MuxFrame} {ret : ℕ} (hsound : w.Sound)
    (h : w.mux size = some (w', frames, ret)) :
    ∃ packets, Cuts w frames packets w' ∧ ret = packets.length := by
  rw [mux] at h
  split_ifs at h with hsize
  · obtain ⟨rfl, rfl, rfl⟩ : w = w' ∧ [] = frames ∧ 0 = ret := by simpa using h
    exact ⟨[], .nil w, rfl⟩
  · obtain ⟨fs, packets, hframes, hcuts, hret⟩ := muxLoop_cuts hsound h
    rw [List.nil_append] at hframes
    rw [Nat.zero_add] at hret
    subst hframes
    exact ⟨packets, hcuts, hret⟩

theorem Cuts.sound {fs : List MuxFrame} {packets : List (Bool × RLPXPacket)} (h : Cuts w fs packets w')
    (hsound : w.Sound) : w'.Sound := by
  induction h with
  | nil w => exact hsound
  | cons hcut hcuts ih => exact ih (hcut.sound hsound)

section Low

variable {frameLen ret : ℕ} {swapQueues : Bool} {o_toWrite : List MuxFrame}

theorem frameAllot_false (hle : 48 ≤ frameLen) (hlt : frameLen < 2 ^ 64) :
    frameAllot false frameLen = frameLen - 48 := by
  rw [frameAllot]
  simp only [Bool.false_eq_true, if_false]
  omega

theorem muxLoop_done (h : frameLen < 64 ∨ w.size = 0) :
    muxLoop frameLen swapQueues w o_toWrite ret = some (w, o_toWrite, ret) := by
  rw [muxLoop]
  rcases h with hlen | hsize
  · rw [if_pos hlen]
  · obtain ⟨hfirst, hsecond⟩ := Nat.add_eq_zero_iff.mp hsize
    rw [List.eq_nil_of_length_eq_zero hfirst, List.eq_nil_of_length_eq_zero hsecond]
    split_ifs <;> rfl

/-- One round if only packets of low priority wait. -/
theorem muxLoop_low {q : List RLPXPacket} {f : Filling} (hfirst : w.first.q = []) (hlen : 64 ≤ frameLen)
    (hlt : frameLen < 2 ^ 64) (hq : w.second.q ≠ [])
    (hfill : Filling.fill w.second.q (.start w.second w.m_sequenceId (frameLen - 48)) = some (q, f))
    (hpayload : f.payload ≠ [])
    (hsize : MuxFrame.size ⟨w.frameHeader w.second.q.head? f, f.payload⟩ ≤ frameLen) :
    muxLoop frameLen swapQueues w o_toWrite ret =
      muxLoop (frameLen - MuxFrame.size ⟨w.frameHeader w.second.q.head? f, f.payload⟩) true
        { w with
          second := { f with multiFrame := f.multiFrame && f.remaining ≠ 0 }.state q
          m_sequenceId := f.m_sequenceId }
        (o_toWrite ++ [⟨w.frameHeader w.second.q.head? f, f.payload⟩]) (ret + f.ret) := by
  have hlow : w.second.q.isEmpty = false := by rw [List.isEmpty_eq_false_iff]; exact hq
  have hsome : f.payload.isEmpty = false := by rw [List.isEmpty_eq_false_iff]; exact hpayload
  have hallot := frameAllot_false (by omega) hlt
  rw [muxLoop, if_neg (by omega), hfirst, hlow]
  simp only [List.isEmpty_nil, Bool.not_true, Bool.not_false, Bool.and_false, Bool.false_and,
    Bool.false_eq_true, if_false, hallot, queue, hfill, hsome, if_neg (Nat.not_lt.mpr hsize), setQueue]

/-- A call that writes a single frame if only packets of low priority wait. -/
theorem mux_low {size : ℕ} {q : List RLPXPacket} {f : Filling} {frame : MuxFrame} (hfirst : w.first.q = [])
    (hlen : 64 ≤ size) (hlt : size < 2 ^ 64) (hq : w.second.q ≠ [])
    (hfill : Filling.fill w.second.q (.start w.second w.m_sequenceId (size / 16 * 16 - 48)) = some (q, f))
    (hframe : frame = ⟨w.frameHeader w.second.q.head? f, f.payload⟩) (hpayload : f.payload ≠ [])
    (hle : f.payload.length ≤ size / 16 * 16 - 48)
    (hw : w' = { w with
      second := { f with multiFrame := f.multiFrame && f.remaining ≠ 0 }.state q
      m_sequenceId := f.m_sequenceId })
    (hdone : size / 16 * 16 - frame.size < 64 ∨ q = []) (hret : ret = f.ret) :
    w.mux size = some (w', [frame], ret) := by
  subst hframe hw hret
  have hsize : MuxFrame.size ⟨w.frameHeader w.second.q.head? f, f.payload⟩ ≤ size / 16 * 16 := by
    simp only [MuxFrame.size, paddingOf]
    omega
  rw [mux, if_neg (by omega), muxLoop_low hfirst (by omega) (by omega) hq hfill hpayload hsize,
    muxLoop_done]
  · simp
  · refine hdone.imp_right fun hnil => ?_
    simp [RLPXFrameWriter.size, hfirst, Filling.state, hnil]

/-- How many packets the next frame completes. -/
def nextCount (qs : WriterState) (allot : ℕ) : ℕ :=
  if qs.writing then (if qs.remaining ≤ allot then 1 else 0) else (fitting allot qs.q).length

/-- How many bytes of packets the next frame has, if it completes one. -/
def nextLength (qs : WriterState) (allot : ℕ) : ℕ :=
  if qs.writing then qs.remaining else (contents (fitting allot qs.q)).length

/-- The next frame completes a packet, and then nothing waits or there is no room for a
further frame. -/
def OneFrame (qs : WriterState) (size : ℕ) : Prop :=
  let frameLen := size / 16 * 16
  let length := nextLength qs (frameLen - 48)
  0 < nextCount qs (frameLen - 48) ∧
    (nextCount qs (frameLen - 48) = qs.q.length ∨ frameLen - (48 + length + paddingOf length) < 64)

instance (qs : WriterState) (size : ℕ) : Decidable (OneFrame qs size) :=
  inferInstanceAs (Decidable (_ ∧ _))

theorem length_contents_fitting {q : List RLPXPacket} (hq : ∀ p ∈ q, p.Proper) (allot : ℕ) :
    (contents (fitting allot q)).length ≤ allot := by
  induction q generalizing allot with
  | nil => exact Nat.zero_le _
  | cons p q ih =>
    rw [fitting]
    split_ifs with hfits
    · have hsize := (hq p List.mem_cons_self).size_eq
      have hrest := ih (fun p' hp' => hq p' (List.mem_cons_of_mem p hp')) (allot - p.size)
      rw [contents_cons, List.length_append, List.length_append]
      omega
    · exact Nat.zero_le _

/-- A call that writes one frame and completes a packet. -/
theorem mux_one {size : ℕ} (hfirst : w.first.q = []) (hsound : w.second.Sound) (hlen : 64 ≤ size)
    (hlt : size < 2 ^ 64) (hone : OneFrame w.second size) :
    ∃ w' f n, w.mux size = some (w', [f], n) ∧ 0 < n ∧ w'.first = w.first := by
  obtain ⟨hcount, hdone⟩ := hone
  generalize hallot : size / 16 * 16 - 48 = allot at hcount hdone
  have hblock : 16 ≤ allot := by omega
  cases hwriting : w.second.writing with
  | true =>
    obtain ⟨hmulti, hpos, p, rest, hq, hlt'⟩ := hsound.busy hwriting
    simp only [nextCount, nextLength, hwriting, if_true] at hcount hdone
    by_cases hfits : w.second.remaining ≤ allot
    · rw [if_pos hfits] at hdone
      have hfill := (Filling.fill_writing (q := rest) (p := p)
        (f := .start w.second w.m_sequenceId allot) hwriting hmulti rfl hblock hpos hlt').trans
          (if_pos hfits)
      rw [← hq, ← hallot] at hfill
      have hdrop : (p.m_data.drop (p.m_data.length - w.second.remaining)).length = w.second.remaining := by
        rw [List.length_drop]
        omega
      refine ⟨_, _, 1, mux_low hfirst hlen hlt (by rw [hq]; exact List.cons_ne_nil p rest) hfill rfl ?_ ?_
        rfl ?_ rfl, Nat.one_pos, rfl⟩
      · exact List.ne_nil_of_length_pos (lt_of_lt_of_eq hpos hdrop.symm)
      · rw [hallot]
        exact hdrop.trans_le hfits
      · rcases hdone with hlast | hroom
        · rw [hq, List.length_cons] at hlast
          exact Or.inr (List.eq_nil_of_length_eq_zero (by omega))
        · left
          simp only [MuxFrame.size, Filling.start, hdrop]
          omega
    · rw [if_neg hfits] at hcount
      exact absurd hcount (Nat.lt_irrefl 0)
  | false =>
    obtain ⟨hremaining, hmulti⟩ := hsound.idle hwriting
    simp only [nextCount, nextLength, hwriting, Bool.false_eq_true, if_false] at hcount hdone
    have hfit : fitting allot w.second.q ≠ [] := List.ne_nil_of_length_pos hcount
    have hsub : ∀ p ∈ fitting allot w.second.q, p.Proper := fun p hp =>
      hsound.proper p ((fitting_isPrefix _ _).subset hp)
    have hlength := length_contents_fitting hsound.proper allot
    have hfill := Filling.fill_packed (f := .start w.second w.m_sequenceId allot)
      ⟨hwriting, hremaining, hmulti, rfl⟩ hsound.proper fun _ _ _ => hfit
    rw [← hallot] at hfill
    have hq : w.second.q ≠ [] := fun hnil => hfit (by rw [hnil]; rfl)
    have hpayload : (Filling.packed (.start w.second w.m_sequenceId (size / 16 * 16 - 48))
        (fitting (Filling.start w.second w.m_sequenceId (size / 16 * 16 - 48)).frameAllot
          w.second.q)).payload = contents (fitting allot w.second.q) := by
      rw [hallot]
      rfl
    refine ⟨_, _, _, mux_low hfirst hlen hlt hq hfill rfl ?_ ?_ rfl ?_ rfl, ?_, rfl⟩
    · exact fun h => contents_ne_nil hsub hfit (hpayload.symm.trans h)
    · exact (congrArg List.length hpayload).trans_le (hlength.trans hallot.ge)
    · rcases hdone with hlast | hroom
      · right
        apply List.drop_eq_nil_of_le
        simp only [Filling.start, hallot, hlast, le_refl]
      · left
        simp only [MuxFrame.size, hpayload]
        omega
    · simp only [Filling.packed, Filling.start, hallot, Nat.zero_add]
      exact hcount

end Low

end RLPXFrameWriter

end P2P
end XChain
