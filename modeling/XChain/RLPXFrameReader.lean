import XChain.RLPXFrameWriter

/-!
# Reading packets from frames

A reader keeps what it has of packets in several frames, by their sequence ids, and gives
out packets that are complete. It gives out the packets that were queued, in the order of
each queue, as long as no sequence id is used again before its packet is complete and no
packet is longer than its total size can say.
-/
namespace XChain

namespace P2P

/-- What is there of incomplete packets, and how many bytes are missing. -/
structure RLPXFrameReader where
  m_incomplete : BitVec 16 → Option (RLPXPacket × BitVec 32) := fun _ => none

namespace RLPXFrameReader

def setIncomplete (r : RLPXFrameReader) (seqId : BitVec 16) (x : Option (RLPXPacket × BitVec 32)) :
    RLPXFrameReader :=
  ⟨Function.update r.m_incomplete seqId x⟩

@[simp] theorem setIncomplete_same (r : RLPXFrameReader) (seqId : BitVec 16)
    (x : Option (RLPXPacket × BitVec 32)) : (r.setIncomplete seqId x).m_incomplete seqId = x := by
  simp [setIncomplete]

theorem setIncomplete_of_ne (r : RLPXFrameReader) {seqId seqId' : BitVec 16} (h : seqId' ≠ seqId)
    (x : Option (RLPXPacket × BitVec 32)) :
    (r.setIncomplete seqId x).m_incomplete seqId' = r.m_incomplete seqId' := by
  simp [setIncomplete, Function.update_of_ne h]

/-- Takes the packets of a buffer. Each round takes one byte at least. -/
def parse (info : RLPXFrameInfo) : ℕ → RLPXFrameReader → Bytes → List RLPXPacket →
    Option (RLPXFrameReader × List RLPXPacket)
  | 0, r, _, ret => some (r, ret)
  | n + 1, r, buffer, ret =>
    let type := nextRLP buffer
    if type.isEmpty then some (r, ret)
    else
      let buffer := buffer.drop type.length
      let packet := if info.multiFrame then buffer else nextRLP buffer
      let p := RLPXPacket.ofBytes type
      let p := if packet.isEmpty then p else p.append packet
      let remaining := info.totalLength - BitVec.ofNat 32 type.length - BitVec.ofNat 32 packet.length
      if p.isValid then parse info n r (buffer.drop packet.length) (ret ++ [p])
      else if info.multiFrame && remaining ≠ 0 then
        -- an entry that is there already is kept
        let entry := (r.m_incomplete info.sequenceId).getD (p, remaining)
        parse info n (r.setIncomplete info.sequenceId (some entry)) (buffer.drop packet.length) ret
      else none

/-- The packets of a frame, of which the payload is given. It fails where an exception is
thrown. -/
def demux (r : RLPXFrameReader) (info : RLPXFrameInfo) (payload : Bytes) :
    Option (RLPXFrameReader × List RLPXPacket) :=
  if info.multiFrame && info.totalLength ≠ 0 && info.totalLength.toNat < payload.length then
    some (r, [])
  else
    match (if info.multiFrame then r.m_incomplete info.sequenceId else none) with
    | none => parse info payload.length r payload []
    | some (p, remaining) =>
      if info.totalLength = 0 && 0 < payload.length && payload.length ≤ remaining.toNat then
        let p := p.append payload
        let remaining := remaining - BitVec.ofNat 32 payload.length
        if remaining ≠ 0 then some (r.setIncomplete info.sequenceId (some (p, remaining)), [])
        else if p.isValid then some (r.setIncomplete info.sequenceId none, [p])
        else none
      else parse info payload.length (r.setIncomplete info.sequenceId none) payload []

/-- Reads a frame that comes through unchanged. -/
def readFrame (r : RLPXFrameReader) (f : MuxFrame) : Option (RLPXFrameReader × List RLPXPacket) :=
  r.demux (f.header.info f.payload.length) f.payload

def readFrames (r : RLPXFrameReader) : List MuxFrame → Option (RLPXFrameReader × List RLPXPacket)
  | [] => some (r, [])
  | f :: fs => do
    let (r, packets) ← r.readFrame f
    let (r, rest) ← readFrames r fs
    return (r, packets ++ rest)

/-- No first frame has the sequence id of a packet that is incomplete. -/
def fresh (r : RLPXFrameReader) : List MuxFrame → Bool
  | [] => true
  | f :: fs =>
    (match f.header with
      | .first _ seqId _ => (r.m_incomplete seqId).isNone
      | _ => true) &&
    (match r.readFrame f with
      | some (r, _) => fresh r fs
      | none => true)

end RLPXFrameReader

section Parse

variable {r : RLPXFrameReader} {info : RLPXFrameInfo} {p : RLPXPacket}

theorem ofBytes_type (hp : p.Proper) : RLPXPacket.ofBytes p.m_type = ⟨p.m_type, []⟩ := by
  have hnext : nextRLP p.m_type = p.m_type := by
    have happ := nextRLP_append hp.type_complete [] (List.ne_nil_of_length_pos hp.type_pos)
    rwa [List.append_nil] at happ
  simp [RLPXPacket.ofBytes, hnext]

/-- The packets of a frame that is not of a sequence. -/
theorem parse_contents {packets : List RLPXPacket} (hinfo : info.multiFrame = false)
    (hproper : ∀ p ∈ packets, p.Proper) (hne : ∀ p ∈ packets, p.m_data ≠ []) (n : ℕ)
    (hn : (contents packets).length ≤ n)
    (ret : List RLPXPacket) :
    RLPXFrameReader.parse info n r (contents packets) ret = some (r, ret ++ packets) := by
  induction packets generalizing n ret with
  | nil =>
    cases n <;> simp [RLPXFrameReader.parse, nextRLP, actualSize]
  | cons p packets ih =>
    have hp := hproper p List.mem_cons_self
    have htype := List.ne_nil_of_length_pos hp.type_pos
    have hdata := hne p List.mem_cons_self
    have hpos := hp.type_pos
    rw [contents_cons, List.length_append, List.length_append] at hn
    obtain ⟨n, rfl⟩ : ∃ m, n = m + 1 := ⟨n - 1, by omega⟩
    have hnext : nextRLP (contents (p :: packets)) = p.m_type := by
      rw [contents_cons, List.append_assoc]
      exact nextRLP_append hp.type_complete _ htype
    have hdrop : (contents (p :: packets)).drop p.m_type.length = p.m_data ++ contents packets := by
      rw [contents_cons, List.append_assoc, List.drop_left]
    have hpacket : nextRLP (p.m_data ++ contents packets) = p.m_data :=
      nextRLP_append hp.data_complete _ hdata
    have hvalid : (⟨p.m_type, p.m_data⟩ : RLPXPacket).isValid = true := hp.isValid
    rw [RLPXFrameReader.parse]
    simp only [hnext, hdrop, hpacket, hinfo, ofBytes_type hp, RLPXPacket.append, List.nil_append,
      List.isEmpty_iff, htype, hdata, if_false, hvalid, if_true, Bool.false_eq_true, List.drop_left]
    rw [ih (fun p' hp' => hproper p' (List.mem_cons_of_mem p hp'))
      (fun p' hp' => hne p' (List.mem_cons_of_mem p hp')) n (by omega)]
    simp

theorem ofNat_ne_zero {n : ℕ} (hpos : 0 < n) (hlt : n < 2 ^ 32) : BitVec.ofNat 32 n ≠ 0 := by
  intro h
  have hnat := congrArg BitVec.toNat h
  rw [BitVec.toNat_ofNat, Nat.mod_eq_of_lt hlt] at hnat
  exact absurd hnat hpos.ne'

/-- The type of a packet with a payload that is not complete is kept with it. -/
theorem parse_part {type data : Bytes} {n : ℕ} (hinfo : info.multiFrame = true) (htype : type ≠ [])
    (hdata : data ≠ []) (hnext : nextRLP (type ++ data) = type)
    (hself : RLPXPacket.ofBytes type = ⟨type, []⟩)
    (hinvalid : (⟨type, data⟩ : RLPXPacket).isValid = false)
    (hnone : r.m_incomplete info.sequenceId = none)
    (hmissing : info.totalLength - BitVec.ofNat 32 type.length - BitVec.ofNat 32 data.length ≠ 0)
    (ret : List RLPXPacket) :
    RLPXFrameReader.parse info (n + 1) r (type ++ data) ret =
      some (r.setIncomplete info.sequenceId (some (⟨type, data⟩,
        info.totalLength - BitVec.ofNat 32 type.length - BitVec.ofNat 32 data.length)), ret) := by
  have hend : ∀ (r : RLPXFrameReader) (m : ℕ), RLPXFrameReader.parse info m r [] ret = some (r, ret) :=
    fun r m => by cases m <;> rfl
  rw [RLPXFrameReader.parse]
  simp only [hnext, List.drop_left, hinfo, hself, RLPXPacket.append, List.nil_append, List.isEmpty_iff,
    htype, hdata, if_false, if_true, hinvalid, hnone, Bool.false_eq_true, List.drop_length, hend,
    decide_eq_true hmissing, Bool.and_self, Option.getD_none]

variable (info) in
/-- The first part of a packet in several frames is kept. -/
theorem parse_first {k n : ℕ} (hinfo : info.multiFrame = true) (hp : p.Proper) (hpos : 0 < k)
    (hlt : k < p.m_data.length) (hnone : r.m_incomplete info.sequenceId = none)
    (htotal : info.totalLength = BitVec.ofNat 32 p.size) (hsize : p.size ≤ 2 ^ 32)
    (hn : (p.m_type ++ p.m_data.take k).length ≤ n) (ret : List RLPXPacket) :
    RLPXFrameReader.parse info n r (p.m_type ++ p.m_data.take k) ret =
      some (r.setIncomplete info.sequenceId
        (some (⟨p.m_type, p.m_data.take k⟩, BitVec.ofNat 32 (p.m_data.length - k))), ret) := by
  have htype := List.ne_nil_of_length_pos hp.type_pos
  have htpos := hp.type_pos
  have htake : (p.m_data.take k).length = k := by
    rw [List.length_take]
    omega
  have hdata : p.m_data.take k ≠ [] := List.ne_nil_of_length_pos (by omega)
  rw [List.length_append, htake] at hn
  obtain ⟨n, rfl⟩ : ∃ m, n = m + 1 := ⟨n - 1, by omega⟩
  have hsum := hp.size_eq
  have hremaining : info.totalLength - BitVec.ofNat 32 p.m_type.length -
      BitVec.ofNat 32 (p.m_data.take k).length = BitVec.ofNat 32 (p.m_data.length - k) := by
    apply BitVec.eq_of_toNat_eq
    have hshort := hp.type_short
    rw [htotal, hsum, htake]
    simp only [BitVec.toNat_sub, BitVec.toNat_ofNat]
    omega
  have hmissing : BitVec.ofNat 32 (p.m_data.length - k) ≠ 0 := ofNat_ne_zero (by omega) (by omega)
  rw [parse_part hinfo htype hdata (nextRLP_append hp.type_complete _ htype) (ofBytes_type hp)
    (hp.take_not_valid hpos hlt) hnone (by rw [hremaining]; exact hmissing), hremaining]

end Parse

/-- What a reader has of the packet that is being written from a queue. -/
def partOf (qs : WriterState) (p : RLPXPacket) : RLPXPacket × BitVec 32 :=
  (⟨p.m_type, p.m_data.take (p.m_data.length - qs.remaining)⟩, BitVec.ofNat 32 qs.remaining)

/-- A reader has got what a writer has written. -/
structure Linked (w : RLPXFrameWriter) (r : RLPXFrameReader) : Prop where
  sound : w.Sound
  small : ∀ high, ∀ p ∈ (w.queue high).q, p.size ≤ 2 ^ 32 ∧ p.m_data ≠ []
  busy : ∀ high p rest, (w.queue high).writing = true → (w.queue high).q = p :: rest →
    r.m_incomplete (w.queue high).sequence = some (partOf (w.queue high) p)
  only : ∀ seqId, r.m_incomplete seqId ≠ none →
    ∃ high, (w.queue high).writing = true ∧ (w.queue high).sequence = seqId
  apart : ∀ high, (w.queue high).writing = true → (w.queue (!high)).writing = true →
    (w.queue (!high)).sequence ≠ (w.queue high).sequence

section Linked

variable {w w' : RLPXFrameWriter} {r r' : RLPXFrameReader} {high : Bool} {f : MuxFrame}
  {packets : List RLPXPacket}

/-- One queue goes on with a packet, and only the sequence id of that is touched. -/
theorem Linked.set (h : Linked w r) {qs : WriterState} {seqId : BitVec 16} (seq : BitVec 16)
    (hsound : (w.setQueue high qs seqId).Sound) (hsub : ∀ p ∈ qs.q, p ∈ (w.queue high).q)
    (hbefore : (w.queue high).writing = true → (w.queue high).sequence = seq)
    (hother : (w.queue (!high)).writing = true → (w.queue (!high)).sequence ≠ seq)
    (hkeep : ∀ s, s ≠ seq → r'.m_incomplete s = r.m_incomplete s)
    (hidle : qs.writing = false → r'.m_incomplete seq = none)
    (hbusy : qs.writing = true → qs.sequence = seq ∧
      ∀ p rest, qs.q = p :: rest → r'.m_incomplete seq = some (partOf qs p)) :
    Linked (w.setQueue high qs seqId) r' := by
  have hcases : ∀ high', high' = high ∨ high' = !high := fun high' => by
    cases high <;> cases high' <;> simp
  refine ⟨hsound, fun high' p hp => ?_, fun high' p rest hwriting hq => ?_, fun s hs => ?_,
    fun high' hwriting hwriting' => ?_⟩
  · obtain rfl | rfl := hcases high'
    · rw [RLPXFrameWriter.queue_setQueue] at hp
      exact h.small high' p (hsub p hp)
    · rw [RLPXFrameWriter.queue_setQueue_not] at hp
      exact h.small (!high) p hp
  · obtain rfl | rfl := hcases high'
    · rw [RLPXFrameWriter.queue_setQueue] at hwriting hq ⊢
      obtain ⟨hseq, hpart⟩ := hbusy hwriting
      rw [hseq]
      exact hpart p rest hq
    · rw [RLPXFrameWriter.queue_setQueue_not] at hwriting hq ⊢
      rw [hkeep _ (hother hwriting)]
      exact h.busy (!high) p rest hwriting hq
  · by_cases hseq : s = seq
    · cases hwriting : qs.writing with
      | false => exact absurd (hidle hwriting) (hseq ▸ hs)
      | true => exact ⟨high, by simp [hwriting], by simp [hseq, (hbusy hwriting).1]⟩
    · rw [hkeep s hseq] at hs
      obtain ⟨high', hwriting, heq⟩ := h.only s hs
      obtain rfl | rfl := hcases high'
      · exact absurd (heq.symm.trans (hbefore hwriting)) hseq
      · exact ⟨!high, by simp [hwriting], by simp [heq]⟩
  · obtain rfl | rfl := hcases high'
    · rw [RLPXFrameWriter.queue_setQueue] at hwriting ⊢
      rw [RLPXFrameWriter.queue_setQueue_not] at hwriting' ⊢
      rw [(hbusy hwriting).1]
      exact hother hwriting'
    · rw [Bool.not_not, RLPXFrameWriter.queue_setQueue] at hwriting' ⊢
      rw [RLPXFrameWriter.queue_setQueue_not] at hwriting ⊢
      rw [(hbusy hwriting').1]
      exact (hother hwriting).symm

theorem demux_new {info : RLPXFrameInfo} {payload : Bytes} (hmulti : info.multiFrame = true)
    (hnone : r.m_incomplete info.sequenceId = none)
    (hfit : info.totalLength = 0 ∨ payload.length ≤ info.totalLength.toNat) :
    r.demux info payload = RLPXFrameReader.parse info payload.length r payload [] := by
  have hno : (info.multiFrame && decide (info.totalLength ≠ 0) &&
      decide (info.totalLength.toNat < payload.length)) = false := by
    rcases hfit with hzero | hle
    · simp [hzero]
    · rw [decide_eq_false (Nat.not_lt.mpr hle), Bool.and_false]
  rw [RLPXFrameReader.demux, hno, hmulti]
  simp only [Bool.false_eq_true, if_false, if_true, hnone]

theorem demux_entry {info : RLPXFrameInfo} {payload : Bytes} {p : RLPXPacket} {remaining : BitVec 32}
    (hmulti : info.multiFrame = true) (htotal : info.totalLength = 0)
    (hentry : r.m_incomplete info.sequenceId = some (p, remaining)) (hpos : 0 < payload.length)
    (hfits : payload.length ≤ remaining.toNat) :
    r.demux info payload =
      if remaining - BitVec.ofNat 32 payload.length ≠ 0 then
        some (r.setIncomplete info.sequenceId
          (some (p.append payload, remaining - BitVec.ofNat 32 payload.length)), [])
      else if (p.append payload).isValid then
        some (r.setIncomplete info.sequenceId none, [p.append payload])
      else none := by
  have hno : (info.multiFrame && decide (info.totalLength ≠ 0) &&
      decide (info.totalLength.toNat < payload.length)) = false := by simp [htotal]
  have hyes : (decide (info.totalLength = 0) && decide (0 < payload.length) &&
      decide (payload.length ≤ remaining.toNat)) = true := by simp only [htotal, hpos, hfits]; rfl
  rw [RLPXFrameReader.demux, hno, hmulti]
  simp only [Bool.false_eq_true, if_false, if_true, hentry, hyes]

/-- A later frame of a packet that the reader has a part of. -/
theorem readFrame_continuation {t seqId : BitVec 16} {payload data : Bytes} {type : Bytes}
    {remaining : ℕ} (hentry : r.m_incomplete seqId = some (⟨type, data⟩, BitVec.ofNat 32 remaining))
    (hpos : 0 < payload.length) (hle : payload.length ≤ remaining) (hlt : remaining < 2 ^ 32) :
    r.readFrame ⟨.continuation t seqId, payload⟩ =
      if payload.length < remaining then
        some (r.setIncomplete seqId
          (some (⟨type, data ++ payload⟩, BitVec.ofNat 32 (remaining - payload.length))), [])
      else if (⟨type, data ++ payload⟩ : RLPXPacket).isValid then
        some (r.setIncomplete seqId none, [⟨type, data ++ payload⟩])
      else none := by
  have hfits : payload.length ≤ (BitVec.ofNat 32 remaining).toNat := by
    rw [BitVec.toNat_ofNat, Nat.mod_eq_of_lt hlt]
    exact hle
  have hrest : BitVec.ofNat 32 remaining - BitVec.ofNat 32 payload.length =
      BitVec.ofNat 32 (remaining - payload.length) := by
    apply BitVec.eq_of_toNat_eq
    simp only [BitVec.toNat_sub, BitVec.toNat_ofNat]
    omega
  rw [RLPXFrameReader.readFrame, demux_entry rfl rfl hentry hpos hfits]
  simp only [hrest]
  by_cases hmore : payload.length < remaining
  · have hne : BitVec.ofNat 32 (remaining - payload.length) ≠ 0 := ofNat_ne_zero (by omega) (by omega)
    rw [if_pos hmore, if_pos hne]
    rfl
  · have hzero : BitVec.ofNat 32 (remaining - payload.length) = 0 := by
      rw [Nat.sub_eq_zero_of_le (Nat.le_of_not_lt hmore)]
      rfl
    rw [if_neg hmore, if_neg (not_not.mpr hzero)]
    rfl

/-- The first frame of a packet that the reader has no part of. -/
theorem readFrame_first {t seqId : BitVec 16} {p : RLPXPacket} {k : ℕ} (hp : p.Proper)
    (hpos : 0 < k) (hlt : k < p.m_data.length) (hsize : p.size ≤ 2 ^ 32)
    (hnone : r.m_incomplete seqId = none) :
    r.readFrame ⟨.first t seqId (BitVec.ofNat 32 p.size), p.m_type ++ p.m_data.take k⟩ =
      some (r.setIncomplete seqId
        (some (⟨p.m_type, p.m_data.take k⟩, BitVec.ofNat 32 (p.m_data.length - k))), []) := by
  have hwhole := hp.size_eq
  have hlen : (p.m_type ++ p.m_data.take k).length = p.m_type.length + k := by
    rw [List.length_append, List.length_take]
    omega
  have hfit : BitVec.ofNat 32 p.size = 0 ∨
      (p.m_type ++ p.m_data.take k).length ≤ (BitVec.ofNat 32 p.size).toNat := by
    by_cases hmax : p.size = 2 ^ 32
    · rw [hmax]
      exact Or.inl rfl
    · rw [hlen, BitVec.toNat_ofNat, Nat.mod_eq_of_lt (by omega)]
      exact Or.inr (by omega)
  rw [RLPXFrameReader.readFrame, demux_new rfl hnone hfit]
  exact parse_first (FrameHeader.info _ (.first t seqId _)) rfl hp hpos hlt hnone rfl hsize le_rfl []

theorem Linked.length_le (h : Linked w r) {p : RLPXPacket} {rest : List RLPXPacket}
    (hq : (w.queue high).q = p :: rest) : p.m_data.length < 2 ^ 32 := by
  have hmem : p ∈ (w.queue high).q := by
    rw [hq]
    exact List.mem_cons_self
  have hp := (h.sound high).proper p hmem
  obtain ⟨hsmall, -⟩ := h.small high p hmem
  have hsize := hp.size_eq
  have hpos := hp.type_pos
  omega

/-- The frames that a writer cuts are read. -/
theorem Linked.cut (h : Linked w r) (hcut : RLPXFrameWriter.Cut w high f packets w')
    (hfresh : ∀ protocolType seqId totalSize, f.header = .first protocolType seqId totalSize →
      r.m_incomplete seqId = none) :
    ∃ r', r.readFrame f = some (r', packets) ∧ Linked w' r' := by
  have hsound := hcut.sound h.sound
  cases hcut with
  | packed packets rest hidle hq hne =>
    have hsub : ∀ p ∈ packets, p ∈ (w.queue high).q := fun p hp => by
      rw [hq]
      exact List.mem_append_left rest hp
    have hread : r.readFrame ⟨.single w.m_protocolId, contents packets⟩ = some (r, packets) :=
      parse_contents rfl (fun p hp => (h.sound high).proper p (hsub p hp))
        (fun p hp => (h.small high p (hsub p hp)).2) _ le_rfl []
    have hnone : r.m_incomplete ((w.queue (!high)).sequence + 1) = none := by
      by_contra hsome
      obtain ⟨high', hwriting, hseq⟩ := h.only _ hsome
      by_cases heq : high' = high
      · rw [heq, hidle] at hwriting
        cases hwriting
      · rw [Bool.eq_not_of_ne heq] at hseq
        simp at hseq
    refine ⟨r, hread, h.set ((w.queue (!high)).sequence + 1) hsound (fun p hp => ?_) (fun hb => ?_)
      (fun _ => by simp) (fun _ _ => rfl) (fun _ => hnone) fun hb => ?_⟩
    · rw [hq]
      exact List.mem_append_right packets hp
    · rw [hidle] at hb
      cases hb
    · rw [show (_ : Bool) = false from hidle] at hb
      cases hb
  | first p rest k hidle hq hpos hlt =>
    have hnone := hfresh _ _ _ rfl
    have hmem : p ∈ (w.queue high).q := by
      rw [hq]
      exact List.mem_cons_self
    have hp := (h.sound high).proper p hmem
    obtain ⟨hsmall, -⟩ := h.small high p hmem
    have hpart : partOf ⟨p :: rest, true, p.m_data.length - k, true, w.m_sequenceId + 1⟩ p =
        (⟨p.m_type, p.m_data.take k⟩, BitVec.ofNat 32 (p.m_data.length - k)) := by
      rw [partOf, Nat.sub_sub_self hlt.le]
    refine ⟨_, readFrame_first hp hpos hlt hsmall hnone, h.set (w.m_sequenceId + 1) hsound
      (fun p' hp' => by rwa [hq]) (fun hb => ?_) (fun hb hseq => ?_)
      (fun s hs => r.setIncomplete_of_ne hs _) (fun hb => by cases hb) fun _ => ?_⟩
    · rw [hidle] at hb
      cases hb
    · obtain ⟨-, -, p', rest', hq', -⟩ := (h.sound (!high)).busy hb
      rw [← hseq, h.busy (!high) p' rest' hb hq'] at hnone
      cases hnone
    · refine ⟨rfl, fun p' rest' hq' => ?_⟩
      obtain ⟨rfl, -⟩ := List.cons.inj hq'
      rw [RLPXFrameReader.setIncomplete_same, hpart]
  | more p rest k hbusy hq hpos hlt =>
    obtain ⟨hmulti, hremaining, p', rest', hq', hlt'⟩ := (h.sound high).busy hbusy
    rw [hq] at hq'
    obtain ⟨rfl, -⟩ := List.cons.inj hq'
    have hentry := h.busy high p rest hbusy hq
    have hsmall := h.length_le hq
    have hsplit : p.m_data.take (p.m_data.length - (w.queue high).remaining) ++
          (p.m_data.drop (p.m_data.length - (w.queue high).remaining)).take k =
        p.m_data.take (p.m_data.length - ((w.queue high).remaining - k)) := by
      rw [← List.take_add]
      congr 1
      omega
    have hlen : ((p.m_data.drop (p.m_data.length - (w.queue high).remaining)).take k).length = k := by
      rw [List.length_take, List.length_drop]
      omega
    have hread := readFrame_continuation (t := w.m_protocolId) hentry
      (by rw [hlen]; exact hpos) (by rw [hlen]; exact hlt.le) (by omega)
    rw [hlen, if_pos hlt, hsplit] at hread
    refine ⟨_, hread, h.set (w.queue high).sequence hsound (fun p' hp' => hp') (fun _ => rfl)
      (fun hb => h.apart high hbusy hb) (fun s hs => r.setIncomplete_of_ne hs _)
      (fun hb => ?_) fun _ => ⟨rfl, fun p' rest' hq' => ?_⟩⟩
    · rw [show (_ : Bool) = true from hbusy] at hb
      cases hb
    · rw [show _ = _ from hq] at hq'
      obtain ⟨rfl, -⟩ := List.cons.inj hq'
      rw [RLPXFrameReader.setIncomplete_same]
      rfl
  | last p rest hbusy hq =>
    obtain ⟨hmulti, hremaining, p', rest', hq', hlt'⟩ := (h.sound high).busy hbusy
    rw [hq] at hq'
    obtain ⟨rfl, -⟩ := List.cons.inj hq'
    have hentry := h.busy high p rest hbusy hq
    have hsmall := h.length_le hq
    have hmem : p ∈ (w.queue high).q := by
      rw [hq]
      exact List.mem_cons_self
    have hvalid : (⟨p.m_type, p.m_data⟩ : RLPXPacket).isValid = true :=
      ((h.sound high).proper p hmem).isValid
    have hlen : (p.m_data.drop (p.m_data.length - (w.queue high).remaining)).length =
        (w.queue high).remaining := by
      rw [List.length_drop]
      omega
    have hread := readFrame_continuation (t := w.m_protocolId) hentry
      (by rw [hlen]; exact hremaining) (by rw [hlen]) (by omega)
    rw [hlen, if_neg (Nat.lt_irrefl _), List.take_append_drop, if_pos hvalid] at hread
    refine ⟨_, hread, h.set (w.queue high).sequence hsound (fun p' hp' => ?_) (fun _ => rfl)
      (fun hb => h.apart high hbusy hb) (fun s hs => r.setIncomplete_of_ne hs _)
      (fun _ => RLPXFrameReader.setIncomplete_same r _ _) fun hb => by cases hb⟩
    rw [hq]
    exact List.mem_cons_of_mem p hp'

theorem queue_init (protocolId : BitVec 16) (high : Bool) :
    RLPXFrameWriter.queue { m_protocolId := protocolId } high = {} := by
  cases high <;> rfl

theorem linked_init (protocolId : BitVec 16) : Linked { m_protocolId := protocolId } {} where
  sound high := by
    rw [queue_init]
    exact ⟨fun p hp => absurd hp List.not_mem_nil, fun _ => ⟨rfl, rfl⟩, fun h => by cases h⟩
  small high p hp := by
    rw [queue_init] at hp
    exact absurd hp List.not_mem_nil
  busy high p rest h := by
    rw [queue_init] at h
    cases h
  only seqId h := absurd rfl h
  apart high h := by
    rw [queue_init] at h
    cases h

/-- A packet that is put into a queue waits behind the others. -/
theorem Linked.enque (h : Linked w r) {p : RLPXPacket} (hp : p.Proper)
    (hsmall : p.size ≤ 2 ^ 32 ∧ p.m_data ≠ []) :
    Linked (w.enque p high) r where
  sound := h.sound.enque hp
  small high' p' hp' := by
    rw [RLPXFrameWriter.queue_enque hp] at hp'
    rcases List.mem_append.mp hp' with hold | hnew
    · exact h.small high' p' hold
    · split_ifs at hnew
      · rwa [List.mem_singleton.mp hnew]
      · exact absurd hnew List.not_mem_nil
  busy high' p' rest hb hq := by
    rw [RLPXFrameWriter.queue_enque hp] at hb hq ⊢
    obtain ⟨-, -, p₁, rest₁, hq₁, -⟩ := (h.sound high').busy hb
    rw [hq₁, List.cons_append] at hq
    obtain ⟨rfl, -⟩ := List.cons.inj hq
    exact h.busy high' p₁ rest₁ hb hq₁
  only seqId hs := by
    obtain ⟨high', hb, hseq⟩ := h.only seqId hs
    exact ⟨high', by rw [RLPXFrameWriter.queue_enque hp]; exact hb,
        by rw [RLPXFrameWriter.queue_enque hp]; exact hseq⟩
  apart high' hb hb' := by
    rw [RLPXFrameWriter.queue_enque hp] at hb ⊢
    rw [RLPXFrameWriter.queue_enque hp] at hb' ⊢
    exact h.apart high' hb hb'

/-- The packets of a priority. -/
def ofPriority (high : Bool) (packets : List (Bool × RLPXPacket)) : List RLPXPacket :=
  (packets.filter (·.1 = high)).map Prod.snd

theorem ofPriority_append (high : Bool) (a b : List (Bool × RLPXPacket)) :
    ofPriority high (a ++ b) = ofPriority high a ++ ofPriority high b := by
  simp [ofPriority]

theorem ofPriority_tagged (high high' : Bool) (packets : List RLPXPacket) :
    ofPriority high' (packets.map (high, ·)) = if high' = high then packets else [] := by
  induction packets with
  | nil => simp [ofPriority]
  | cons p packets ih =>
    rw [List.map_cons, ← List.singleton_append, ofPriority_append, ih]
    by_cases heq : high' = high
    · subst heq
      simp [ofPriority]
    · simp [ofPriority, heq, Ne.symm heq]

/-- The packets that a frame completes were the first ones of their queue. -/
theorem queue_cut (hcut : RLPXFrameWriter.Cut w high f packets w') (high' : Bool) :
    (w.queue high').q = (if high' = high then packets else []) ++ (w'.queue high').q := by
  by_cases heq : high' = high
  · subst heq
    rw [if_pos rfl]
    cases hcut with
    | packed packets rest hidle hq hne => rw [RLPXFrameWriter.queue_setQueue, hq]
    | first p rest k hidle hq hpos hlt => rw [RLPXFrameWriter.queue_setQueue, hq]; rfl
    | more p rest k hbusy hq hpos hlt => rw [RLPXFrameWriter.queue_setQueue]; rfl
    | last p rest hbusy hq => rw [RLPXFrameWriter.queue_setQueue, hq]; rfl
  · rw [if_neg heq, List.nil_append, Bool.eq_not_of_ne heq]
    cases hcut <;> rw [RLPXFrameWriter.queue_setQueue_not]

theorem readFrames_append {fs gs : List MuxFrame} {r r' r'' : RLPXFrameReader} {a b : List RLPXPacket}
    (hfs : r.readFrames fs = some (r', a)) (hgs : r'.readFrames gs = some (r'', b)) :
    r.readFrames (fs ++ gs) = some (r'', a ++ b) := by
  induction fs generalizing r a with
  | nil =>
    obtain ⟨rfl, rfl⟩ := Prod.mk.inj (Option.some.inj hfs)
    exact hgs
  | cons f fs ih =>
    obtain ⟨⟨r₁, c⟩, hf, hrest⟩ := Option.bind_eq_some_iff.mp hfs
    obtain ⟨⟨r₂, d⟩, hfs', heq⟩ := Option.bind_eq_some_iff.mp hrest
    obtain ⟨rfl, rfl⟩ := Prod.mk.inj (Option.some.inj heq)
    rw [List.cons_append, RLPXFrameReader.readFrames, hf]
    simp [ih hfs', List.append_assoc]

theorem fresh_append {fs gs : List MuxFrame} (h : r.fresh (fs ++ gs) = true) :
    r.fresh fs = true ∧ ∀ r' packets, r.readFrames fs = some (r', packets) → r'.fresh gs = true := by
  induction fs generalizing r with
  | nil =>
    refine ⟨rfl, fun r' packets hr => ?_⟩
    obtain ⟨rfl, -⟩ := Prod.mk.inj (Option.some.inj hr)
    exact h
  | cons f fs ih =>
    rw [List.cons_append, RLPXFrameReader.fresh, Bool.and_eq_true] at h
    rw [RLPXFrameReader.fresh, Bool.and_eq_true, RLPXFrameReader.readFrames]
    cases hf : r.readFrame f with
    | none => exact ⟨⟨h.1, rfl⟩, fun r' packets hr => by cases hr⟩
    | some x =>
      rw [hf] at h
      obtain ⟨hfs, hgs⟩ := ih h.2
      refine ⟨⟨h.1, hfs⟩, fun r' packets hr => ?_⟩
      obtain ⟨⟨r₁, c⟩, hx, hrest⟩ := Option.bind_eq_some_iff.mp hr
      obtain rfl := Option.some.inj hx
      obtain ⟨⟨r₂, d⟩, hfs', heq⟩ := Option.bind_eq_some_iff.mp hrest
      obtain ⟨rfl, -⟩ := Prod.mk.inj (Option.some.inj heq)
      exact hgs r₂ d hfs'

theorem fresh_cons {fs : List MuxFrame} (h : r.fresh (f :: fs) = true) :
    (∀ protocolType seqId totalSize, f.header = .first protocolType seqId totalSize →
      r.m_incomplete seqId = none) ∧
    ∀ r' packets, r.readFrame f = some (r', packets) → r'.fresh fs = true := by
  rw [RLPXFrameReader.fresh, Bool.and_eq_true] at h
  refine ⟨fun t s total hheader => ?_, fun r' packets hread => ?_⟩
  · rw [hheader] at h
    exact Option.isNone_iff_eq_none.mp h.1
  · rw [hread] at h
    exact h.2

/-- A series of frames is read, and the packets come in the order of their queues. -/
theorem Linked.cuts {fs : List MuxFrame} {done : List (Bool × RLPXPacket)} (h : Linked w r)
    (hcuts : RLPXFrameWriter.Cuts w fs done w') (hfresh : r.fresh fs = true) :
    ∃ r', r.readFrames fs = some (r', done.map Prod.snd) ∧ Linked w' r' ∧
      ∀ high, (w.queue high).q = ofPriority high done ++ (w'.queue high).q := by
  induction hcuts generalizing r with
  | nil w => exact ⟨r, rfl, h, fun high => rfl⟩
  | @cons w w₁ w₂ high f fs packets rest hcut hcuts ih =>
    obtain ⟨hfirst, hlater⟩ := fresh_cons hfresh
    obtain ⟨r₁, hread, hlinked⟩ := h.cut hcut hfirst
    obtain ⟨r₂, hrest, hlinked', hqueue⟩ := ih hlinked (hlater r₁ packets hread)
    refine ⟨r₂, ?_, hlinked', fun high' => ?_⟩
    · rw [RLPXFrameReader.readFrames, hread]
      simp [hrest, Function.comp_def]
    · rw [queue_cut hcut high', hqueue high', ofPriority_append, ofPriority_tagged, List.append_assoc]

end Linked

/-- What is done with a writer. -/
inductive MuxOp where
  | enque (packetType : UInt8) (payload : Bytes) (high : Bool)
  | mux (size : BitVec 32)
  deriving DecidableEq

namespace MuxOp

def run (w : RLPXFrameWriter) : List MuxOp → Option (RLPXFrameWriter × List MuxFrame)
  | [] => some (w, [])
  | enque packetType payload high :: ops => run (w.enque (.ofType packetType payload) high) ops
  | mux size :: ops => do
    let (w, frames, _) ← w.mux size.toNat
    let (w, rest) ← run w ops
    return (w, frames ++ rest)

/-- The packets that are queued with a priority. -/
def enqued (high : Bool) : List MuxOp → List RLPXPacket
  | [] => []
  | enque packetType payload high' :: ops =>
    if high' = high then .ofType packetType payload :: enqued high ops else enqued high ops
  | mux _ :: ops => enqued high ops

/-- Packets are queued with one item that is not empty, and are not longer than their total
size can say. -/
def Small (ops : List MuxOp) : Prop :=
  ∀ packetType payload high, enque packetType payload high ∈ ops →
    Complete payload ∧ payload ≠ [] ∧ (RLPXPacket.ofType packetType payload).size ≤ 2 ^ 32

theorem run_read {w w' : RLPXFrameWriter} {r : RLPXFrameReader} {ops : List MuxOp}
    {frames : List MuxFrame} (h : Linked w r) (hops : Small ops) (hrun : run w ops = some (w', frames))
    (hfresh : r.fresh frames = true) :
    ∃ r' done, r.readFrames frames = some (r', done.map Prod.snd) ∧
      ∀ high, (w.queue high).q ++ enqued high ops = ofPriority high done ++ (w'.queue high).q := by
  induction ops generalizing w r frames with
  | nil =>
    obtain ⟨rfl, rfl⟩ := Prod.mk.inj (Option.some.inj hrun)
    exact ⟨r, [], rfl, fun high => List.append_nil _⟩
  | cons op ops ih =>
    have hsmall : Small ops := fun t payload high hmem => hops t payload high (List.mem_cons_of_mem op hmem)
    cases op with
    | enque t payload high =>
      obtain ⟨hcomplete, hne, hsize⟩ := hops t payload high List.mem_cons_self
      have hp := RLPXPacket.proper_ofType t hcomplete
      obtain ⟨r', done, hread, hqueue⟩ := ih (h.enque hp ⟨hsize, hne⟩) hsmall hrun hfresh
      refine ⟨r', done, hread, fun high' => ?_⟩
      rw [← hqueue high', RLPXFrameWriter.queue_enque hp, enqued, List.append_assoc]
      by_cases heq : high = high'
      · simp [heq]
      · simp [heq, Ne.symm heq]
    | mux size =>
      obtain ⟨⟨w₁, fs, ret⟩, hmux, hrest⟩ := Option.bind_eq_some_iff.mp hrun
      obtain ⟨⟨w₂, gs⟩, hrun', heq⟩ := Option.bind_eq_some_iff.mp hrest
      obtain ⟨rfl, rfl⟩ := Prod.mk.inj (Option.some.inj heq)
      obtain ⟨packets, hcuts, -⟩ := RLPXFrameWriter.mux_cuts h.sound hmux
      obtain ⟨hfresh₁, hfresh₂⟩ := fresh_append hfresh
      obtain ⟨r₁, hread, hlinked, hqueue⟩ := h.cuts hcuts hfresh₁
      obtain ⟨r₂, done, hread', hqueue'⟩ := ih hlinked hsmall hrun' (hfresh₂ r₁ _ hread)
      refine ⟨r₂, packets ++ done, ?_, fun high => ?_⟩
      · rw [List.map_append]
        exact readFrames_append hread hread'
      · rw [enqued, hqueue high, ofPriority_append, List.append_assoc, hqueue' high, List.append_assoc]

/-- When the queues of a writer are empty, a reader has got the packets that were queued, in
the order of each queue. -/
theorem mux_read (protocolId : BitVec 16) (ops : List MuxOp) (w : RLPXFrameWriter)
    (frames : List MuxFrame) (hops : Small ops)
    (hrun : run { m_protocolId := protocolId } ops = some (w, frames)) (hdrained : w.size = 0)
    (hfresh : RLPXFrameReader.fresh {} frames = true) :
    ∃ r done, RLPXFrameReader.readFrames {} frames = some (r, done.map Prod.snd) ∧
      ∀ high, ofPriority high done = enqued high ops := by
  obtain ⟨r, done, hread, hqueue⟩ := run_read (linked_init protocolId) hops hrun hfresh
  refine ⟨r, done, hread, fun high => ?_⟩
  have hempty : (w.queue high).q = [] := by
    have hlen : (w.queue high).q.length = 0 := by
      rw [RLPXFrameWriter.size] at hdrained
      cases high
      · exact (Nat.add_eq_zero_iff.mp hdrained).2
      · exact (Nat.add_eq_zero_iff.mp hdrained).1
    exact List.eq_nil_of_length_eq_zero hlen
  have hq := hqueue high
  rw [hempty, List.append_nil, queue_init, List.nil_append] at hq
  exact hq.symm

section Example

/-- A packet of two frames, and a short one of high priority that overtakes it. -/
def overtaking : List MuxOp :=
  [.enque 1 (Rlp.encode (.data (List.replicate 20 7))) false, .mux 64,
    .enque 2 (Rlp.encode (.data [8, 9])) true, .mux 128]

def overtakingRun : RLPXFrameWriter × List MuxFrame :=
  (run { m_protocolId := 0 } overtaking).get (by decide +kernel)

theorem mux_read_overtaking :
    ∃ r done, RLPXFrameReader.readFrames {} overtakingRun.2 = some (r, done.map Prod.snd) ∧
      ∀ high, ofPriority high done = enqued high overtaking := by
  apply mux_read 0 overtaking overtakingRun.1 overtakingRun.2
  · intro t payload high hmem
    simp only [overtaking, List.mem_cons, enque.injEq, List.not_mem_nil, or_false, reduceCtorEq,
      false_or] at hmem
    rcases hmem with ⟨rfl, rfl, -⟩ | ⟨rfl, rfl, -⟩
    · decide +kernel
    · decide +kernel
  · exact (Option.some_get _).symm
  · decide +kernel
  · decide +kernel

/-- An item of 2^32 bytes. -/
def longPayload : Bytes := [0xbb, 0xff, 0xff, 0xff, 0xfb] ++ List.replicate (2 ^ 32 - 5) 0

theorem length_longPayload : longPayload.length = 2 ^ 32 := by
  rw [longPayload, List.length_append, List.length_replicate]
  rfl

theorem complete_longPayload : Complete longPayload := by
  have hhead : actualSize [0xbb, 0xff, 0xff, 0xff, 0xfb] = some (2 ^ 32) := by decide +kernel
  rw [Complete, length_longPayload, longPayload]
  exact actualSize_append (List.cons_ne_nil _ _) hhead _

theorem drop_longPayload {n : ℕ} (h : 5 ≤ n) :
    longPayload.drop n = List.replicate (2 ^ 32 - n) 0 := by
  have hhead : [0xbb, 0xff, 0xff, 0xff, 0xfb].drop n = ([] : Bytes) := List.drop_eq_nil_of_le h
  rw [longPayload, List.drop_append, hhead, List.nil_append, List.drop_replicate]
  congr 1
  simp only [List.length_cons, List.length_nil]
  omega

section Cut

variable {p : RLPXPacket} {n : ℕ}

/-- A writer that has some of a packet to write. -/
def writingLong (p : RLPXPacket) (remaining : ℕ) : RLPXFrameWriter where
  m_protocolId := 0
  second := ⟨[p], true, remaining, true, 1⟩
  m_sequenceId := 1

/-- A call for 64 bytes writes the first 16 of a packet. -/
theorem mux_begin (hp : p.Proper) (htype : p.m_type.length = 1) (hlong : 16 ≤ p.m_data.length) :
    RLPXFrameWriter.mux { m_protocolId := 0, second := { q := [p] } } 64 =
      some (writingLong p (p.m_data.length - 15),
        [⟨.first 0 1 (BitVec.ofNat 32 p.size), p.m_type ++ p.m_data.take 15⟩], 0) := by
  have hsize := hp.size_eq
  have hfill := Filling.fill_first (q := []) (f := .start { q := [p] } 0 16)
    ⟨rfl, rfl, rfl, rfl⟩ hp rfl le_rfl (by simp only [Filling.start]; omega)
  have hlen : (p.m_type ++ p.m_data.take 15).length = 16 := by
    rw [List.length_append, List.length_take, htype]
    omega
  have hrest : p.m_data.length - 15 = p.size - 16 := by omega
  have hsome : p.size - 16 ≠ 0 := by omega
  simp only [Filling.start, htype] at hfill
  rw [hrest]
  refine RLPXFrameWriter.mux_low rfl le_rfl (by norm_num) (List.cons_ne_nil _ _) hfill rfl ?_ hlen.le ?_
    ?_ rfl
  · exact List.ne_nil_of_length_pos (by rw [hlen]; norm_num)
  · simp [writingLong, Filling.state, hsome]
  · left
    simp only [MuxFrame.size, hlen]
    norm_num [paddingOf]

/-- A later call writes as much of it as fits. -/
theorem mux_more {m size : ℕ} (hlen : 64 ≤ size) (hlt : size < 2 ^ 64) (hm : m < p.m_data.length)
    (hlong : size / 16 * 16 - 48 < m) :
    (writingLong p m).mux size =
      some (writingLong p (m - (size / 16 * 16 - 48)),
        [⟨.continuation 0 1,
          (p.m_data.drop (p.m_data.length - m)).take (size / 16 * 16 - 48)⟩], 0) := by
  generalize hallot : size / 16 * 16 - 48 = allot at hlong ⊢
  have hfill := (Filling.fill_writing (q := []) (p := p)
    (f := .start (writingLong p m).second 1 allot) rfl rfl rfl (by simp only [Filling.start]; omega)
    (by simp only [Filling.start, writingLong]; omega) hm).trans (if_neg (Nat.not_le.mpr hlong))
  have hoffset : p.m_data.length - m ≠ 0 := by omega
  have hpart : ((p.m_data.drop (p.m_data.length - m)).take allot).length = allot := by
    rw [List.length_take, List.length_drop]
    omega
  have hrest : m - allot ≠ 0 := by omega
  subst hallot
  refine RLPXFrameWriter.mux_low rfl hlen hlt (List.cons_ne_nil _ _) hfill ?_ ?_ hpart.le ?_ ?_ rfl
  · simp [RLPXFrameWriter.frameHeader, writingLong, Filling.start, hoffset]
  · exact List.ne_nil_of_length_pos (lt_of_lt_of_eq (by omega) hpart.symm)
  · simp [writingLong, Filling.start, Filling.state, hrest]
  · left
    simp only [MuxFrame.size, hpart]
    omega

/-- The last call writes its end. -/
theorem mux_end {m size : ℕ} (hlen : 64 ≤ size) (hlt : size < 2 ^ 64) (hpos : 0 < m)
    (hm : m < p.m_data.length) (hfits : m ≤ size / 16 * 16 - 48) :
    (writingLong p m).mux size =
      some ({ m_protocolId := 0, second := ⟨[], false, 0, false, 1⟩, m_sequenceId := 1 },
        [⟨.continuation 0 1, p.m_data.drop (p.m_data.length - m)⟩], 1) := by
  have hfill := (Filling.fill_writing (q := []) (p := p)
    (f := .start (writingLong p m).second 1 (size / 16 * 16 - 48)) rfl rfl rfl
    (by simp only [Filling.start]; omega) hpos hm).trans (if_pos hfits)
  have hoffset : p.m_data.length - m ≠ 0 := by omega
  have hdrop : (p.m_data.drop (p.m_data.length - m)).length = m := by
    rw [List.length_drop]
    omega
  refine RLPXFrameWriter.mux_low rfl hlen hlt (List.cons_ne_nil _ _) hfill ?_ ?_ ?_ ?_ (Or.inr rfl) rfl
  · simp [RLPXFrameWriter.frameHeader, writingLong, Filling.start, hoffset]
  · exact List.ne_nil_of_length_pos (lt_of_lt_of_eq hpos hdrop.symm)
  · exact hdrop.trans_le hfits
  · simp [writingLong, Filling.start, Filling.state]

end Cut

/-- A frame of zeros that belongs to no packet is taken for the beginning of one. -/
theorem readFrame_zeros {t seqId : BitVec 16} {n : ℕ}
    (hmissing : (0 : BitVec 32) - BitVec.ofNat 32 1 - BitVec.ofNat 32 (n + 2) ≠ 0) :
    RLPXFrameReader.readFrame {} ⟨.continuation t seqId, List.replicate (n + 3) 0⟩ =
      some (RLPXFrameReader.setIncomplete {} seqId
        (some (⟨[0], List.replicate (n + 2) 0⟩, 0 - BitVec.ofNat 32 1 - BitVec.ofNat 32 (n + 2))), []) := by
  have hnext : nextRLP (List.replicate (n + 3) 0) = [0] := rfl
  have htype : RLPXPacket.ofBytes [0] = ⟨[0], []⟩ := by decide
  have hinvalid : (⟨[0], List.replicate (n + 2) 0⟩ : RLPXPacket).isValid = false := by
    have hsize : actualSize (List.replicate (n + 2) 0) = some 1 := rfl
    have hcomplete : ¬Complete (List.replicate (n + 2) 0) := by
      rw [Complete, hsize, List.length_replicate]
      intro h
      have hlen := Option.some.inj h
      omega
    simp [RLPXPacket.isValid, hcomplete]
  have hsplit : List.replicate (n + 3) (0 : UInt8) = [0] ++ List.replicate (n + 2) 0 := rfl
  rw [hsplit] at hnext ⊢
  rw [RLPXFrameReader.readFrame, demux_new rfl rfl (Or.inl rfl), List.length_append,
    List.length_replicate, Nat.add_comm]
  have hpart := @parse_part {} (FrameHeader.info (n + 2 + 1) (.continuation t seqId)) [0]
      (List.replicate (n + 2) 0)
    (n + 2) rfl (List.cons_ne_nil _ _) (List.cons_ne_nil _ _) hnext htype hinvalid rfl
    (by rw [List.length_replicate]; exact hmissing) []
  rw [List.length_replicate] at hpart
  exact hpart

/-- Calls that write a packet of 2^32 + 1 bytes. -/
def longRun (payload : Bytes) : List MuxOp :=
  [.enque 1 payload false, .mux 64, .mux (BitVec.ofNat 32 (2 ^ 32 - 1)), .mux 128]

/-- The frames of a packet with zeros behind its first bytes. -/
def longFrames (payload : Bytes) : List MuxFrame :=
  [⟨.first 0 1 1, [1] ++ payload.take 15⟩, ⟨.continuation 0 1, List.replicate (2 ^ 32 - 64) 0⟩,
    ⟨.continuation 0 1, List.replicate 49 0⟩]

section Long

variable {payload : Bytes}

theorem enqued_long (payload : Bytes) : enqued false (longRun payload) = [.ofType 1 payload] := by
  simp [longRun, enqued]

theorem run_long (hcomplete : Complete payload) (hlength : payload.length = 2 ^ 32)
    (hdrop : ∀ n, 5 ≤ n → payload.drop n = List.replicate (2 ^ 32 - n) 0) :
    ∃ w, run { m_protocolId := 0 } (longRun payload) = some (w, longFrames payload) ∧ w.size = 0 := by
  have hp := RLPXPacket.proper_ofType 1 hcomplete
  obtain ⟨p, hpacket⟩ : ∃ p, RLPXPacket.ofType 1 payload = p := ⟨_, rfl⟩
  have htype : p.m_type = [1] := by
    have hencode : Rlp.encode (Rlp.ofNat (1 : UInt8).toNat) = [1] := by decide +kernel
    rw [← hpacket]
    exact hencode
  have hdata : p.m_data = payload := by rw [← hpacket]; rfl
  have hone : p.m_type.length = 1 := by rw [htype]; rfl
  rw [hpacket] at hp
  rw [← hdata] at hlength hdrop
  have htotal : BitVec.ofNat 32 p.size = 1 := by
    rw [hp.size_eq, hlength, hone]
    rfl
  have henque : RLPXFrameWriter.enque { m_protocolId := 0 } p false =
      { m_protocolId := 0, second := { q := [p] } } := by
    rw [RLPXFrameWriter.enque, hp.isValid]
    rfl
  have hallot : (BitVec.ofNat 32 (2 ^ 32 - 1)).toNat / 16 * 16 - 48 = 2 ^ 32 - 64 := by decide
  have hfirst := mux_begin hp hone (by rw [hlength]; norm_num)
  have hmore : (writingLong p (p.m_data.length - 15)).mux (BitVec.ofNat 32 (2 ^ 32 - 1)).toNat = _ :=
    mux_more (by decide) (by decide) (by omega) (by omega)
  have hend : (writingLong p 49).mux (128 : BitVec 32).toNat = _ :=
    mux_end (by decide) (by decide) (by norm_num) (by omega) (by decide)
  have hmiddle : (p.m_data.drop (p.m_data.length - (p.m_data.length - 15))).take (2 ^ 32 - 64) =
      List.replicate (2 ^ 32 - 64) 0 := by
    rw [Nat.sub_sub_self (by omega), hdrop 15 (by norm_num), List.take_replicate]
    rfl
  have hlast : p.m_data.drop (p.m_data.length - 49) = List.replicate 49 0 := by
    rw [hdrop _ (by omega), hlength]
    rfl
  have hleft : p.m_data.length - 15 - (2 ^ 32 - 64) = 49 := by
    rw [hlength]
    rfl
  rw [hallot, hmiddle, hleft] at hmore
  rw [hlast] at hend
  rw [htotal, htype, hdata] at hfirst
  rw [hdata] at hmore
  have h64 : (64 : BitVec 32).toNat = 64 := rfl
  refine ⟨{ m_protocolId := 0, second := ⟨[], false, 0, false, 1⟩, m_sequenceId := 1 }, ?_, rfl⟩
  simp only [longRun, longFrames, run, hpacket, henque, h64, hfirst, hmore, hend, Option.bind_eq_bind,
    Option.bind_some, Option.pure_def, List.singleton_append, List.append_nil]

theorem readFrames_nothing {r₀ r₁ r₂ r₃ : RLPXFrameReader} {f g h : MuxFrame}
    (hf : r₀.readFrame f = some (r₁, [])) (hg : r₁.readFrame g = some (r₂, []))
    (hh : r₂.readFrame h = some (r₃, [])) : r₀.readFrames [f, g, h] = some (r₃, []) := by
  simp [RLPXFrameReader.readFrames, hf, hg, hh]

/-- The first frame is dropped for its size, and the others are taken for a packet that does
not end. -/
theorem readFrames_long (hlength : payload.length = 2 ^ 32) :
    ∃ r, RLPXFrameReader.readFrames {} (longFrames payload) = some (r, []) := by
  have hlen : ([1] ++ payload.take 15).length = 16 := by
    rw [List.length_append, List.length_take, hlength]
    rfl
  have hfirst : RLPXFrameReader.readFrame {} ⟨.first 0 1 1, [1] ++ payload.take 15⟩ = some ({}, []) := by
    rw [RLPXFrameReader.readFrame, RLPXFrameReader.demux]
    simp only [FrameHeader.info, hlen]
    rfl
  obtain ⟨n, hn⟩ : ∃ n, 2 ^ 32 - 64 = n + 3 := ⟨2 ^ 32 - 67, by norm_num⟩
  have hremaining : (0 : BitVec 32) - BitVec.ofNat 32 1 - BitVec.ofNat 32 (n + 2) = BitVec.ofNat 32 64 := by
    obtain rfl : n = 2 ^ 32 - 67 := by omega
    decide
  have hsecond : RLPXFrameReader.readFrame {} ⟨.continuation 0 1, List.replicate (n + 3) 0⟩ = _ :=
    readFrame_zeros (by rw [hremaining]; decide)
  rw [hremaining] at hsecond
  have hthird : (RLPXFrameReader.setIncomplete {} 1
      (some (⟨[0], List.replicate (n + 2) 0⟩, BitVec.ofNat 32 64))).readFrame
      ⟨.continuation 0 1, List.replicate 49 0⟩ = _ :=
    readFrame_continuation (RLPXFrameReader.setIncomplete_same {} (1 : BitVec 16)
      (some (⟨[0], List.replicate (n + 2) 0⟩, BitVec.ofNat 32 64))) (by decide) (by decide) (by decide)
  rw [if_pos (by decide)] at hthird
  rw [longFrames, hn]
  exact ⟨_, readFrames_nothing hfirst hsecond hthird⟩

end Long

/-- All calls are made and the queues are empty, but the packet is not read. -/
theorem long_packet_lost : Complete longPayload ∧ longPayload ≠ [] ∧
    enqued false (longRun longPayload) = [.ofType 1 longPayload] ∧
    (∃ w, run { m_protocolId := 0 } (longRun longPayload) = some (w, longFrames longPayload) ∧ w.size = 0) ∧
    ∃ r, RLPXFrameReader.readFrames {} (longFrames longPayload) = some (r, []) := by
  refine ⟨complete_longPayload, ?_, ?_, ?_, ?_⟩
  · apply List.ne_nil_of_length_pos
    rw [length_longPayload]
    norm_num
  · exact enqued_long longPayload
  · exact run_long complete_longPayload length_longPayload fun n hn => drop_longPayload hn
  · exact readFrames_long length_longPayload

end Example

end MuxOp

end P2P
end XChain
