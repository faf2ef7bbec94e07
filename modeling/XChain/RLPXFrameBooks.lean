import XChain.GuardedRuns
import XChain.RLPXFrameReader

/-!
# Accounts of packets in several frames

A first frame says how long its packet is, and the frames that continue it bring the rest. The
books say what a peer declared and what came, whatever a reader makes of it.
-/
namespace XChain

namespace P2P

/-- The bytes of a packet so far. -/
def RLPXPacket.held (p : RLPXPacket) : ℕ := p.m_type.length + p.m_data.length

/-- For each sequence id the declared length of a packet and how much of it came. -/
abbrev Books := BitVec 16 → Option (ℕ × ℕ)

/-- Enters a frame of some length. A frame that continues nothing or that brings too much is
malformed, and a first frame that is longer than its packet is dropped. -/
def Books.enter (b : Books) (info : RLPXFrameInfo) (n : ℕ) : Option Books :=
  if !info.multiFrame then some b
  else if info.totalLength ≠ 0 then
    if info.totalLength.toNat < n then some b
    else
      some (Function.update b info.sequenceId
        (if n = info.totalLength.toNat then none else some (info.totalLength.toNat, n)))
  else
    match b info.sequenceId with
    | none => none
    | some (total, got) =>
      if total < got + n then none
      else
        some (Function.update b info.sequenceId
          (if got + n = total then none else some (total, got + n)))

/-- The declared length of the packet to which a frame belongs. -/
def Books.declared (b : Books) (info : RLPXFrameInfo) : ℕ :=
  if info.totalLength ≠ 0 then info.totalLength.toNat
  else ((b info.sequenceId).map Prod.fst).getD 0

/-- A frame that was authenticated. -/
structure FrameIn where
  info : RLPXFrameInfo
  payload : Bytes

/-- A reader beside the books. Packets of several frames that were given out stand with their
declared length. -/
structure BookedReader where
  reader : RLPXFrameReader := {}
  books : Books := fun _ => none
  delivered : List (ℕ × RLPXPacket) := []
  unreported : Bool := false

namespace BookedReader

/-- Reads a frame, unless the reader fails. -/
def read (s : BookedReader) (f : FrameIn) : Option BookedReader :=
  (s.reader.demux f.info f.payload).map fun (r, packets) =>
    { reader := r
      books := (s.books.enter f.info f.payload.length).getD s.books
      delivered := s.delivered ++
        if f.info.multiFrame then packets.map (s.books.declared f.info, ·) else []
      unreported := s.unreported || (s.books.enter f.info f.payload.length).isNone }

/-- Reading ends where the reader fails. -/
def next (s : Option BookedReader) (f : FrameIn) : Option BookedReader := s.bind (·.read f)

/-- The reader is right by the books: an incomplete packet was begun, it has what came and
misses the rest, a packet is given out when all of it came, and no frame was malformed
without a failure. -/
structure Sound (s : BookedReader) : Prop where
  kept : ∀ seqId p remaining, s.reader.m_incomplete seqId = some (p, remaining) →
    s.books seqId = some (p.held + remaining.toNat, p.held) ∧ 0 < remaining.toNat
  seen : ∀ seqId, s.reader.m_incomplete seqId = none → s.books seqId = none
  exact : ∀ x ∈ s.delivered, x.2.held = x.1
  reported : s.unreported = false

def Accounted : Option BookedReader → Prop
  | none => True
  | some s => s.Sound

/-- What a frame has to be like. A frame that continues has a packet to continue and brings
some of the rest, and a frame that begins a packet without ending it has a type and is not a
packet by itself. -/
def Continues (s : BookedReader) (f : FrameIn) : Prop :=
  f.info.multiFrame = true →
    if f.info.totalLength = 0 then
      (s.reader.m_incomplete f.info.sequenceId).any (fun x =>
        0 < f.payload.length ∧ f.payload.length ≤ x.2.toNat) = true
    else f.payload.length < f.info.totalLength.toNat →
      nextRLP f.payload ≠ [] ∧ (RLPXPacket.ofBytes f.payload).isValid = false

instance (s : BookedReader) (f : FrameIn) : Decidable (s.Continues f) :=
  inferInstanceAs (Decidable (_ → ite _ _ _))

def Fits : Option BookedReader → FrameIn → Prop
  | none, _ => True
  | some s, f => s.Continues f

instance : ∀ s f, Decidable (Fits s f)
  | none, _ => inferInstanceAs (Decidable True)
  | some s, f => inferInstanceAs (Decidable (s.Continues f))

end BookedReader

section Parse

theorem actualSize_take {b : Bytes} {k : ℕ} (h : actualSize b = some k) (hle : k ≤ b.length) :
    actualSize (b.take k) = some k := by
  cases b with
  | nil => simpa using h
  | cons p b =>
    rw [actualSize] at h
    by_cases himm : p < 0x80
    · obtain rfl : 1 = k := by simpa [himm] using h
      simp [actualSize, himm]
    · rw [if_neg himm] at h
      simp only at h
      rw [List.length_cons] at hle
      generalize hn : (if p < 0xc0 then p - 0x80 else p - 0xc0).toNat = n at h
      by_cases hshort : n < 56
      · obtain rfl : n + 1 = k := by simpa [hshort] using h
        rw [List.take_succ_cons, actualSize, if_neg himm]
        simp only [hn, if_pos hshort]
      · rw [if_neg hshort] at h
        split_ifs at h with hlong
        obtain ⟨hdigits, hhead, hbig⟩ := hlong
        obtain ⟨m, rfl⟩ : ∃ m, k = m + 1 := ⟨k - 1, by simp at h; omega⟩
        have hm : n - 55 ≤ m := by simp at h; omega
        have htake : (b.take m).take (n - 55) = b.take (n - 55) := by
          rw [List.take_take, Nat.min_eq_left hm]
        have hfirst : (b.take m).head? = b.head? := by
          rw [List.head?_take, if_neg (by omega)]
        rw [List.take_succ_cons, actualSize, if_neg himm]
        simp only [hn, if_neg hshort, htake, hfirst]
        rw [if_pos ⟨by rw [List.length_take]; omega, hhead, hbig⟩]
        exact h

/-- The first item of a first item is that item. -/
theorem nextRLP_nextRLP (b : Bytes) : nextRLP (nextRLP b) = nextRLP b := by
  cases hsize : actualSize b with
  | none =>
    have hnext : nextRLP b = [] := by simp [nextRLP, hsize]
    rw [hnext]
    rfl
  | some k =>
    have hnext : nextRLP b = b.take k := by simp [nextRLP, hsize]
    rw [hnext]
    by_cases hle : k ≤ b.length
    · simp [nextRLP, actualSize_take hsize hle, List.take_take]
    · rw [List.take_of_length_le (by omega), hnext, List.take_of_length_le (by omega)]

theorem held_ofBytes (b : Bytes) : (RLPXPacket.ofBytes b).held = b.length := by
  have hle : (nextRLP b).length ≤ b.length := by
    rw [nextRLP]
    split <;> simp
  simp only [RLPXPacket.held, RLPXPacket.ofBytes, List.length_drop]
  omega

/-- A frame that is not parsed on is a packet as it stands or a part of one. -/
theorem parse_multi {info : RLPXFrameInfo} (hinfo : info.multiFrame = true)
    (r : RLPXFrameReader) (payload : Bytes) :
    RLPXFrameReader.parse info payload.length r payload [] =
      if nextRLP payload = [] then some (r, [])
      else if (RLPXPacket.ofBytes payload).isValid then some (r, [RLPXPacket.ofBytes payload])
      else if info.totalLength - BitVec.ofNat 32 payload.length ≠ 0 then
        some (r.setIncomplete info.sequenceId (some ((r.m_incomplete info.sequenceId).getD
          (RLPXPacket.ofBytes payload, info.totalLength - BitVec.ofNat 32 payload.length))), [])
      else none := by
  have hend : ∀ (r : RLPXFrameReader) (m : ℕ) (ret : List RLPXPacket),
      RLPXFrameReader.parse info m r [] ret = some (r, ret) := by
    intro r m ret
    cases m <;> rfl
  cases hpayload : payload with
  | nil => simp [RLPXFrameReader.parse, nextRLP, actualSize]
  | cons b rest =>
    rw [← hpayload]
    have hlen : payload.length = rest.length + 1 := by simp [hpayload]
    have htype : RLPXPacket.ofBytes (nextRLP payload) = ⟨nextRLP payload, []⟩ := by
      simp [RLPXPacket.ofBytes, nextRLP_nextRLP]
    have happend : (if payload.drop (nextRLP payload).length = [] then
        RLPXPacket.ofBytes (nextRLP payload) else (RLPXPacket.ofBytes (nextRLP payload)).append
          (payload.drop (nextRLP payload).length)) = RLPXPacket.ofBytes payload := by
      rw [htype]
      split_ifs with hempty
      · simp [RLPXPacket.ofBytes, hempty]
      · simp [RLPXPacket.append, RLPXPacket.ofBytes]
    have htotal : info.totalLength - BitVec.ofNat 32 (nextRLP payload).length -
        BitVec.ofNat 32 (payload.drop (nextRLP payload).length).length =
        info.totalLength - BitVec.ofNat 32 payload.length := by
      have hheld := held_ofBytes payload
      simp only [RLPXPacket.held, RLPXPacket.ofBytes] at hheld
      rw [BitVec.sub_sub, ← BitVec.ofNat_add, hheld]
    rw [hlen, RLPXFrameReader.parse, ← hlen]
    simp only [hinfo, if_true, List.isEmpty_iff, happend, htotal, List.drop_length, hend,
      List.nil_append, Bool.true_and, decide_eq_true_eq]

/-- Frames that are not of a sequence leave what is incomplete as it is. -/
theorem parse_single {info : RLPXFrameInfo} (hinfo : info.multiFrame = false) {n : ℕ}
    {r r' : RLPXFrameReader} {buffer : Bytes} {ret ret' : List RLPXPacket}
    (h : RLPXFrameReader.parse info n r buffer ret = some (r', ret')) : r' = r := by
  induction n generalizing buffer ret with
  | zero =>
    obtain ⟨rfl, -⟩ : r = r' ∧ ret = ret' := by simpa [RLPXFrameReader.parse] using h
    rfl
  | succ n ih =>
    rw [RLPXFrameReader.parse] at h
    simp only [hinfo, Bool.false_and, Bool.false_eq_true, if_false] at h
    split_ifs at h with htype hpacket hvalid hvalid
    · obtain ⟨rfl, -⟩ : r = r' ∧ ret = ret' := by simpa using h
      rfl
    · exact ih h
    · exact ih h

end Parse

section Demux

variable {r : RLPXFrameReader} {info : RLPXFrameInfo} {payload : Bytes}

theorem setIncomplete_none (seqId : BitVec 16) (h : r.m_incomplete seqId = none) :
    r.setIncomplete seqId none = r := by
  rw [RLPXFrameReader.setIncomplete, ← h, Function.update_eq_self]

theorem setIncomplete_setIncomplete (seqId : BitVec 16) (x y : Option (RLPXPacket × BitVec 32)) :
    (r.setIncomplete seqId x).setIncomplete seqId y = r.setIncomplete seqId y := by
  simp [RLPXFrameReader.setIncomplete]

/-- A frame that does not continue a packet is parsed where nothing is incomplete. -/
theorem demux_parse (r : RLPXFrameReader) (info : RLPXFrameInfo) (payload : Bytes)
    (hmulti : info.multiFrame = true)
    (hfits : ¬(info.totalLength ≠ 0 ∧ info.totalLength.toNat < payload.length))
    (hnew : ∀ p remaining, r.m_incomplete info.sequenceId = some (p, remaining) →
      ¬(info.totalLength = 0 ∧ 0 < payload.length ∧ payload.length ≤ remaining.toNat)) :
    r.demux info payload = RLPXFrameReader.parse info payload.length
      (r.setIncomplete info.sequenceId none) payload [] := by
  have hlarge : ¬((info.multiFrame && decide (info.totalLength ≠ 0) &&
      decide (info.totalLength.toNat < payload.length)) = true) := by
    simpa [hmulti] using hfits
  rw [RLPXFrameReader.demux, if_neg hlarge, if_pos hmulti]
  cases hentry : r.m_incomplete info.sequenceId with
  | none => simp only [setIncomplete_none _ hentry]
  | some x =>
    obtain ⟨p, remaining⟩ := x
    have hother : ¬((decide (info.totalLength = 0) && decide (0 < payload.length) &&
        decide (payload.length ≤ remaining.toNat)) = true) := by
      simpa [and_assoc] using hnew p remaining hentry
    simp only
    rw [if_neg hother]

theorem toNat_sub_length {remaining : BitVec 32} {n : ℕ} (h : n ≤ remaining.toNat) :
    (remaining - BitVec.ofNat 32 n).toNat = remaining.toNat - n := by
  rw [BitVec.toNat_sub_of_le]
  · rw [BitVec.toNat_ofNat, Nat.mod_eq_of_lt (by omega)]
  · rw [BitVec.le_def, BitVec.toNat_ofNat, Nat.mod_eq_of_lt (by omega)]
    exact h

/-- A frame that continues a packet. -/
theorem demux_continued (hmulti : info.multiFrame = true) (htotal : info.totalLength = 0)
    {p : RLPXPacket} {remaining : BitVec 32}
    (hentry : r.m_incomplete info.sequenceId = some (p, remaining))
    (hpos : 0 < payload.length) (hle : payload.length ≤ remaining.toNat) :
    r.demux info payload =
      if remaining.toNat ≠ payload.length then
        some (r.setIncomplete info.sequenceId
          (some (p.append payload, remaining - BitVec.ofNat 32 payload.length)), [])
      else if (p.append payload).isValid then
        some (r.setIncomplete info.sequenceId none, [p.append payload])
      else none := by
  have hzero : remaining - BitVec.ofNat 32 payload.length = 0#32 ↔
      remaining.toNat = payload.length := by
    rw [← BitVec.toNat_inj, toNat_sub_length hle]
    simp
    omega
  rw [RLPXFrameReader.demux]
  simp [hmulti, htotal, hentry, hpos, hle, hzero]

end Demux

namespace BookedReader

variable {s : BookedReader} {f : FrameIn}

/-- What a reader keeps under a sequence id and what the books say of it. -/
def Matched : Option (RLPXPacket × BitVec 32) → Option (ℕ × ℕ) → Prop
  | none, y => y = none
  | some (p, remaining), y => y = some (p.held + remaining.toNat, p.held) ∧ 0 < remaining.toNat

theorem sound_iff : s.Sound ↔
    (∀ seqId, Matched (s.reader.m_incomplete seqId) (s.books seqId)) ∧
      (∀ x ∈ s.delivered, x.2.held = x.1) ∧ s.unreported = false := by
  constructor
  · intro h
    refine ⟨fun seqId => ?_, h.exact, h.reported⟩
    cases hentry : s.reader.m_incomplete seqId with
    | none => exact h.seen seqId hentry
    | some x => exact h.kept seqId x.1 x.2 hentry
  · rintro ⟨hmatched, hexact, hreported⟩
    refine ⟨fun seqId p remaining hentry => ?_, fun seqId hentry => ?_, hexact, hreported⟩
    · simpa [hentry, Matched] using hmatched seqId
    · simpa [hentry, Matched] using hmatched seqId

/-- Setting what is kept under one sequence id. -/
theorem sound_set_iff (h : s.Sound) (seqId : BitVec 16) (x : Option (RLPXPacket × BitVec 32))
    (y : Option (ℕ × ℕ)) (delivered : List (ℕ × RLPXPacket)) :
    Sound ⟨s.reader.setIncomplete seqId x, Function.update s.books seqId y,
      s.delivered ++ delivered, s.unreported⟩ ↔
      Matched x y ∧ ∀ z ∈ delivered, z.2.held = z.1 := by
  obtain ⟨hmatched, hexact, hreported⟩ := sound_iff.mp h
  rw [sound_iff]
  constructor
  · rintro ⟨hnew, hall, -⟩
    refine ⟨by simpa using hnew seqId, fun z hz => hall z (List.mem_append_right _ hz)⟩
  · rintro ⟨hnew, hnewExact⟩
    refine ⟨fun seqId' => ?_, fun z hz => ?_, hreported⟩
    · by_cases heq : seqId' = seqId
      · subst heq
        simpa using hnew
      · simpa [RLPXFrameReader.setIncomplete_of_ne _ heq, Function.update_of_ne heq] using
          hmatched seqId'
    · rcases List.mem_append.mp hz with hold | hnew
      · exact hexact z hold
      · exact hnewExact z hnew

theorem held_append (p : RLPXPacket) (b : Bytes) : (p.append b).held = p.held + b.length := by
  simp [RLPXPacket.held, RLPXPacket.append]
  omega

theorem read_eq : s.read f = (s.reader.demux f.info f.payload).map fun (r, packets) =>
    BookedReader.mk r ((s.books.enter f.info f.payload.length).getD s.books)
      (s.delivered ++ if f.info.multiFrame then packets.map (s.books.declared f.info, ·) else [])
      (s.unreported || (s.books.enter f.info f.payload.length).isNone) := rfl

/-- A frame that is not of a sequence. -/
theorem read_single (h : s.Sound) (hmulti : f.info.multiFrame = false) : Accounted (s.read f) := by
  have hdemux : s.reader.demux f.info f.payload =
      RLPXFrameReader.parse f.info f.payload.length s.reader f.payload [] := by
    simp [RLPXFrameReader.demux, hmulti]
  have henter : s.books.enter f.info f.payload.length = some s.books := by
    simp [Books.enter, hmulti]
  rw [read_eq, hdemux, henter]
  cases hparse : RLPXFrameReader.parse f.info f.payload.length s.reader f.payload [] with
  | none => trivial
  | some x =>
    obtain ⟨r, packets⟩ := x
    obtain rfl := parse_single hmulti hparse
    simpa [Accounted, hmulti] using h

theorem enter_first {b : Books} {info : RLPXFrameInfo} (n : ℕ) (hmulti : info.multiFrame = true)
    (htotal : info.totalLength ≠ 0) :
    b.enter info n = if info.totalLength.toNat < n then some b else
      some (Function.update b info.sequenceId
        (if n = info.totalLength.toNat then none else some (info.totalLength.toNat, n))) := by
  rw [Books.enter, hmulti, if_neg (by simp), if_pos htotal]

theorem enter_continued {b : Books} {info : RLPXFrameInfo} (n : ℕ)
    (hmulti : info.multiFrame = true) (htotal : info.totalLength = 0) :
    b.enter info n = match b info.sequenceId with
      | none => none
      | some (total, got) =>
        if total < got + n then none
        else some (Function.update b info.sequenceId
          (if got + n = total then none else some (total, got + n))) := by
  rw [Books.enter, hmulti, if_neg (by simp), if_neg (not_not.mpr htotal)]

/-- A frame that is longer than the packet that it declares. -/
theorem read_large (h : s.Sound) (hmulti : f.info.multiFrame = true)
    (htotal : f.info.totalLength ≠ 0)
    (hlarge : f.info.totalLength.toNat < f.payload.length) : Accounted (s.read f) := by
  have hdemux : s.reader.demux f.info f.payload = some (s.reader, []) := by
    rw [RLPXFrameReader.demux, if_pos]
    simpa [hmulti, hlarge] using htotal
  rw [read_eq, hdemux, enter_first _ hmulti htotal, if_pos hlarge]
  simpa [Accounted, hmulti] using h

/-- A frame that begins a packet. -/
theorem read_first (h : s.Sound) (hmulti : f.info.multiFrame = true)
    (htotal : f.info.totalLength ≠ 0)
    (hle : f.payload.length ≤ f.info.totalLength.toNat) :
    Accounted (s.read f) ↔ (f.payload.length < f.info.totalLength.toNat →
      nextRLP f.payload ≠ [] ∧ (RLPXPacket.ofBytes f.payload).isValid = false) := by
  have hdemux := demux_parse s.reader f.info f.payload hmulti
    (fun hlarge => absurd hlarge.2 (by omega)) fun _ _ _ hzero => htotal hzero.1
  have hdeclared : s.books.declared f.info = f.info.totalLength.toNat := by
    rw [Books.declared, if_pos htotal]
  have hmissing := toNat_sub_length hle
  have hheld := held_ofBytes f.payload
  rw [parse_multi hmulti, RLPXFrameReader.setIncomplete_same, Option.getD_none] at hdemux
  rw [read_eq, hdemux, enter_first _ hmulti htotal, if_neg (by omega), hdeclared]
  have hset := sound_set_iff h f.info.sequenceId
  by_cases htype : nextRLP f.payload = []
  · -- nothing is kept of a frame without a type
    rw [if_pos htype]
    simp only [Option.map_some, Option.getD_some, Option.isNone_some, Bool.or_false, Accounted,
      List.map_nil, ite_self, hset, Matched, htype]
    simp
    omega
  · rw [if_neg htype]
    by_cases hvalid : (RLPXPacket.ofBytes f.payload).isValid
    · -- a packet is given out
      rw [if_pos hvalid]
      simp only [Option.map_some, Option.getD_some, Option.isNone_some, Bool.or_false, Accounted,
        hmulti, if_true, List.map_cons, List.map_nil, hset, Matched, hvalid]
      simp [hheld]
      omega
    · rw [if_neg hvalid]
      rw [Bool.not_eq_true] at hvalid
      have hzero : f.info.totalLength - BitVec.ofNat 32 f.payload.length = 0 ↔
          f.payload.length = f.info.totalLength.toNat := by
        rw [← BitVec.toNat_inj, hmissing]
        simp
        omega
      by_cases hlast : f.payload.length = f.info.totalLength.toNat
      · rw [if_neg (not_not.mpr (hzero.mpr hlast))]
        simp only [Option.map_none, Accounted, true_iff]
        omega
      · rw [if_pos (mt hzero.mp hlast), if_neg hlast, setIncomplete_setIncomplete]
        simp only [Option.map_some, Option.getD_some, Option.isNone_some, Bool.or_false,
          Accounted, List.map_nil, ite_self, hset, Matched, hheld, hmissing, hvalid]
        simp [htype]
        omega

/-- A frame that is malformed by the books is not found to be so. -/
theorem read_unreported (hmulti : f.info.multiFrame = true) (htotal : f.info.totalLength = 0)
    (hlen : f.payload.length < 2 ^ 32)
    (hnew : ∀ p remaining, s.reader.m_incomplete f.info.sequenceId = some (p, remaining) →
      ¬(f.info.totalLength = 0 ∧ 0 < f.payload.length ∧ f.payload.length ≤ remaining.toNat))
    (henter : s.books.enter f.info f.payload.length = none) : ¬Accounted (s.read f) := by
  have hdemux := demux_parse s.reader f.info f.payload hmulti
    (fun hlarge => hlarge.1 htotal) hnew
  have hsome : ∃ x, s.reader.demux f.info f.payload = some x := by
    rw [hdemux, parse_multi hmulti]
    split_ifs with htype hvalid hmissing
    · exact ⟨_, rfl⟩
    · exact ⟨_, rfl⟩
    · exact ⟨_, rfl⟩
    · -- nothing is missing only of no bytes, and they have no type
      exfalso
      apply htype
      have hzero : f.payload.length = 0 := by
        rw [not_not, htotal, BitVec.sub_eq_iff_eq_add, ← BitVec.toNat_inj] at hmissing
        simp at hmissing
        omega
      rw [List.eq_nil_of_length_eq_zero hzero]
      rfl
  obtain ⟨⟨r, packets⟩, hsome⟩ := hsome
  rw [read_eq, hsome, henter]
  intro hsound
  simpa using hsound.reported

section Continued

variable {p : RLPXPacket} {remaining : BitVec 32}

/-- A frame that brings at most what is missing continues a packet. -/
theorem read_fitting (h : s.Sound) (hmulti : f.info.multiFrame = true)
    (htotal : f.info.totalLength = 0)
    (hentry : s.reader.m_incomplete f.info.sequenceId = some (p, remaining))
    (hsome : 0 < f.payload.length) (hle : f.payload.length ≤ remaining.toNat) :
    Accounted (s.read f) := by
  have henter := enter_continued (b := s.books) f.payload.length hmulti htotal
  obtain ⟨hbooks, -⟩ := h.kept _ _ _ hentry
  have hset := sound_set_iff h f.info.sequenceId
  have hdeclared : s.books.declared f.info = p.held + remaining.toNat := by
    simp [Books.declared, htotal, hbooks]
  rw [hbooks] at henter
  simp only at henter
  rw [if_neg (by omega)] at henter
  rw [read_eq, demux_continued hmulti htotal hentry hsome hle, henter, hdeclared]
  by_cases hlast : remaining.toNat = f.payload.length
  · rw [if_neg (not_not.mpr hlast), if_pos (by omega)]
    by_cases hvalid : (p.append f.payload).isValid
    · rw [if_pos hvalid]
      simp only [Option.map_some, Option.getD_some, Option.isNone_some, Bool.or_false,
        Accounted, hmulti, if_true, List.map_cons, List.map_nil, hset, Matched]
      simp [held_append, hlast]
    · rw [if_neg hvalid]
      simp [Accounted]
  · rw [if_pos hlast, if_neg (by omega)]
    simp only [Option.map_some, Option.getD_some, Option.isNone_some, Bool.or_false,
      Accounted, List.map_nil, ite_self, hset, Matched, toNat_sub_length hle, held_append]
    simp
    omega

/-- A frame without bytes removes the packet that it should continue. -/
theorem read_nothing (h : s.Sound) (hmulti : f.info.multiFrame = true)
    (htotal : f.info.totalLength = 0)
    (hentry : s.reader.m_incomplete f.info.sequenceId = some (p, remaining))
    (hnil : f.payload = []) : ¬Accounted (s.read f) := by
  have henter := enter_continued (b := s.books) f.payload.length hmulti htotal
  obtain ⟨hbooks, hpos⟩ := h.kept _ _ _ hentry
  have hset := sound_set_iff h f.info.sequenceId
  rw [hbooks] at henter
  simp only at henter
  have hzero : f.payload.length = 0 := List.length_eq_zero_iff.mpr hnil
  rw [if_neg (by omega), if_neg (by omega)] at henter
  have hdemux := demux_parse s.reader f.info f.payload hmulti
    (fun hlarge => hlarge.1 htotal) fun _ _ _ hfits => absurd hfits.2.1 (by omega)
  have hparse := parse_multi hmulti (s.reader.setIncomplete f.info.sequenceId none) f.payload
  have hnone : nextRLP f.payload = [] := by
    rw [hnil]
    rfl
  rw [if_pos hnone] at hparse
  rw [read_eq, hdemux, hparse, henter]
  simp only [Option.map_some, Option.getD_some, Option.isNone_some, Bool.or_false, Accounted,
    List.map_nil, ite_self, hset, Matched]
  simp

end Continued

/-- A frame that does not begin a packet. -/
theorem read_continued (h : s.Sound) (hmulti : f.info.multiFrame = true)
    (htotal : f.info.totalLength = 0) (hlen : f.payload.length < 2 ^ 32) :
    Accounted (s.read f) ↔ (s.reader.m_incomplete f.info.sequenceId).any (fun x =>
      0 < f.payload.length ∧ f.payload.length ≤ x.2.toNat) = true := by
  have henter := enter_continued (b := s.books) f.payload.length hmulti htotal
  cases hentry : s.reader.m_incomplete f.info.sequenceId with
  | none =>
    rw [h.seen _ hentry] at henter
    have hnot := read_unreported hmulti htotal hlen (by simp [hentry]) henter
    simpa using hnot
  | some x =>
    obtain ⟨p, remaining⟩ := x
    simp only [Option.any_some, decide_eq_true_eq]
    by_cases hsome : 0 < f.payload.length
    · by_cases hle : f.payload.length ≤ remaining.toNat
      · simp [read_fitting h hmulti htotal hentry hsome hle, hsome, hle]
      · -- more than is missing is no part of the packet
        obtain ⟨hbooks, hpos⟩ := h.kept _ _ _ hentry
        rw [hbooks] at henter
        simp only at henter
        rw [if_pos (by omega)] at henter
        have hnot := read_unreported hmulti htotal hlen (by
          intro p' remaining' hentry' hfits
          obtain ⟨rfl, rfl⟩ : p = p' ∧ remaining = remaining' := by simpa [hentry] using hentry'
          exact hle hfits.2.2) henter
        simpa [hle] using hnot
    · have hnot := read_nothing h hmulti htotal hentry (List.eq_nil_of_length_eq_zero (by omega))
      simp [hnot, hsome]

/-- A frame keeps the reader right by the books just when it is what it has to be. -/
theorem next_accounted_iff {s : Option BookedReader} (h : Accounted s) {f : FrameIn}
    (hlen : f.payload.length < 2 ^ 24) : Accounted (next s f) ↔ Fits s f := by
  cases s with
  | none => simp [next, Accounted, Fits]
  | some s =>
    show Accounted (s.read f) ↔ s.Continues f
    cases hmulti : f.info.multiFrame with
    | false => simp [Continues, hmulti, read_single h hmulti]
    | true =>
      rw [Continues, hmulti]
      by_cases htotal : f.info.totalLength = 0
      · rw [if_pos htotal, read_continued h hmulti htotal (by omega)]
        simp
      · rw [if_neg htotal]
        by_cases hle : f.payload.length ≤ f.info.totalLength.toNat
        · rw [read_first h hmulti htotal hle]
          simp
        · have hlarge := read_large h hmulti htotal (by omega)
          simp only [hlarge, true_implies, true_iff]
          omega

theorem accounted_start : Accounted (some {}) :=
  sound_iff.mpr ⟨fun _ => rfl, by simp, rfl⟩

/-- The reader is right by the books after every frame of a sequence just when every frame is
what it has to be where it comes. A header counts the bytes of its frame in three bytes. -/
theorem demux_accounted_iff (frames : List FrameIn)
    (hlen : ∀ f ∈ frames, f.payload.length < 2 ^ 24) :
    (∀ pre post, frames = pre ++ post → Accounted (runFrom next (some {}) pre)) ↔
      Guarded next Fits (some {}) frames :=
  guarded_iff (fun _ _ hop h => next_accounted_iff h hop) hlen accounted_start

section Example

/-- A frame of a sequence. A total length of zero continues. -/
def frameOf (totalLength : BitVec 32) (payload : Bytes) : FrameIn :=
  ⟨⟨payload.length, paddingOf payload.length, 0, true, 7, totalLength⟩, payload⟩

theorem demux_accounted_two :
    Accounted (runFrom next (some {}) [frameOf 4 [1, 0xc2], frameOf 0 [1, 2]]) := by
  have hlen : ∀ f ∈ [frameOf 4 [1, 0xc2], frameOf 0 [1, 2]], f.payload.length < 2 ^ 24 := by
    decide
  exact (demux_accounted_iff _ hlen).mpr (by decide) _ [] rfl

/-- A frame that continues nothing begins a packet. -/
theorem stray_not_accounted :
    ((next (some {}) (frameOf 0 [1, 0xc2, 1])).map fun s =>
      (s.reader.m_incomplete 7, s.unreported)) = some (some (⟨[1], [0xc2, 1]⟩, -3), true) ∧
    ¬Accounted (runFrom next (some {}) [frameOf 0 [1, 0xc2, 1]]) := by
  have hkept : ((next (some {}) (frameOf 0 [1, 0xc2, 1])).map fun s =>
      (s.reader.m_incomplete 7, s.unreported)) = some (some (⟨[1], [0xc2, 1]⟩, -3), true) := by
    decide
  refine ⟨hkept, fun h => ?_⟩
  rw [runFrom_singleton] at h
  cases hrun : next (some {}) (frameOf 0 [1, 0xc2, 1]) with
  | none =>
    rw [hrun] at hkept
    cases hkept
  | some s =>
    rw [hrun] at h hkept
    simp [h.reported] at hkept

end Example

end BookedReader

end P2P
end XChain
