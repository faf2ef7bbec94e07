import XChain.RLPXFrameWriter

/-!
# How much a call writes

The bytes that a call may write are shared by the two queues in its first round: the queue of
high priority gets the half, unless that is too little for a frame. What is left for packets
is a difference of unsigned words.
-/
namespace XChain

namespace P2P

namespace RLPXFrameWriter

/-- How many bytes of packets a frame may have, over the integers. -/
def exactAllot (both : Bool) (frameLen : ℕ) : ℤ :=
  (if both then if 0 < (frameLen : ℤ) / 2 - 64 then (frameLen : ℤ) / 2 else frameLen
  else frameLen) - 48

/-- What the allotment is computed from in each round of a call: whether both queues have a
share, and the length that is left. -/
def muxAllots (frameLen : ℕ) (swapQueues : Bool) (w : RLPXFrameWriter) : List (Bool × ℕ) :=
  if frameLen < 64 then []
  else
    let highPending := !w.first.q.isEmpty
    let lowPending := !w.second.q.isEmpty
    if !highPending && !lowPending then []
    else
      let high := if highPending && !swapQueues then true else !lowPending
      let both := !swapQueues && highPending && lowPending
      (both, frameLen) ::
        match Filling.fill (w.queue high).q
            (.start (w.queue high) w.m_sequenceId (frameAllot both frameLen)) with
        | none => []
        | some (q, f) =>
          if f.payload.isEmpty then
            if swapQueues then []
            else muxAllots frameLen true (w.setQueue high (f.state q) f.m_sequenceId)
          else
            let frame : MuxFrame := ⟨w.frameHeader (w.queue high).q.head? f, f.payload⟩
            if frameLen < frame.size then []
            else
              let f := { f with multiFrame := f.multiFrame && f.remaining ≠ 0 }
              muxAllots (frameLen - frame.size) true (w.setQueue high (f.state q) f.m_sequenceId)
termination_by 2 * frameLen + if swapQueues then 0 else 1
decreasing_by
  · simp_all
  · simp only [MuxFrame.size] at *
    split <;> omega

/-- The allotments of a call. -/
def allotments (w : RLPXFrameWriter) (size : ℕ) : List (Bool × ℕ) :=
  if size < 64 then [] else muxAllots (size / 16 * 16) false w

/-- What a call has to keep to. No allotment wraps and no assertion fails, the frames are not
longer than what was asked for, and there is a frame if something waits and a frame has room. -/
def MuxKeeps (w : RLPXFrameWriter) (size : ℕ) : Prop :=
  (∀ x ∈ w.allotments size, (frameAllot x.1 x.2 : ℤ) = exactAllot x.1 x.2) ∧
  ∃ w' frames ret, w.mux size = some (w', frames, ret) ∧
    (frames.map MuxFrame.size).sum ≤ size ∧ (64 ≤ size → w.size ≠ 0 → frames ≠ [])

/-- Packets wait in both queues, and half of what is asked for is less than the least frame. -/
def Narrow (w : RLPXFrameWriter) (size : ℕ) : Prop :=
  w.first.q ≠ [] ∧ w.second.q ≠ [] ∧ 64 ≤ size ∧ size < 128

instance (w : RLPXFrameWriter) (size : ℕ) : Decidable (w.Narrow size) :=
  inferInstanceAs (Decidable (_ ∧ _))

section Reached

theorem sound_fresh (i : BitVec 16) : ({ m_protocolId := i } : RLPXFrameWriter).Sound := by
  intro high
  cases high <;> exact ⟨by simp [queue], fun _ => by simp [queue], by simp [queue]⟩

/-- The states of a writer. -/
inductive Reached (m_protocolId : BitVec 16) : RLPXFrameWriter → Prop
  | fresh : Reached m_protocolId { m_protocolId := m_protocolId }
  | enque {w : RLPXFrameWriter} (t : UInt8) (payload : Bytes) (high : Bool)
      (h : Reached m_protocolId w) : Reached m_protocolId (w.enque (.ofType t payload) high)
  | mux {w w' : RLPXFrameWriter} {size ret : ℕ} {frames : List MuxFrame}
      (h : Reached m_protocolId w) (hmux : w.mux size = some (w', frames, ret)) :
      Reached m_protocolId w'

theorem Reached.sound {m_protocolId : BitVec 16} {w : RLPXFrameWriter}
    (h : Reached m_protocolId w) : w.Sound := by
  induction h with
  | fresh => exact sound_fresh m_protocolId
  | @enque w t payload high h ih =>
    cases hvalid : (RLPXPacket.ofType t payload).isValid with
    | false => simpa [RLPXFrameWriter.enque, hvalid] using ih
    | true =>
      exact ih.enque (RLPXPacket.proper_ofType t ((RLPXPacket.isValid_ofType t payload).mp hvalid))
  | mux h hmux ih =>
    obtain ⟨packets, hcuts, -⟩ := mux_cuts ih hmux
    exact hcuts.sound ih

end Reached

section Allotment

variable {both : Bool} {frameLen : ℕ}

theorem frameAllot_exact (hlen : 64 ≤ frameLen) (hlt : frameLen < 2 ^ 64)
    (hwide : both = true → 128 ≤ frameLen) :
    (frameAllot both frameLen : ℤ) = exactAllot both frameLen := by
  cases both with
  | false =>
    rw [frameAllot_false (by omega) hlt]
    simp only [exactAllot, Bool.false_eq_true, if_false]
    omega
  | true =>
    have hge := hwide rfl
    simp only [frameAllot, exactAllot, if_true]
    split_ifs <;> omega

theorem frameAllot_inexact (hlen : 64 ≤ frameLen) (hlt : frameLen < 128) :
    (frameAllot true frameLen : ℤ) ≠ exactAllot true frameLen := by
  simp only [frameAllot, exactAllot, if_true]
  split_ifs <;> omega

/-- An allotment that is exact has room for a block and leaves room for the rest. -/
theorem frameAllot_bounds (hblock : frameLen % 16 = 0) (hlen : 64 ≤ frameLen)
    (hlt : frameLen < 2 ^ 64) (hwide : both = true → 128 ≤ frameLen) :
    16 ≤ frameAllot both frameLen ∧ frameAllot both frameLen + 48 ≤ frameLen := by
  cases both with
  | false =>
    rw [frameAllot_false (by omega) hlt]
    omega
  | true =>
    have hge := hwide rfl
    simp only [frameAllot, if_true]
    split_ifs <;> omega

end Allotment

section Filled

variable {w : RLPXFrameWriter} {high : Bool}

/-- A frame is filled with no more than its allotment, and with something if there is room
for a block. -/
theorem fill_length (hsound : (w.queue high).Sound) {allot : ℕ} (hblock : 16 ≤ allot)
    (hne : (w.queue high).q ≠ []) :
    ∃ q f, Filling.fill (w.queue high).q (.start (w.queue high) w.m_sequenceId allot) =
      some (q, f) ∧ f.payload.length ≤ allot ∧ f.payload ≠ [] := by
  cases hwriting : (w.queue high).writing with
  | true =>
    obtain ⟨hmulti, hpos, p, rest, hq, hlt⟩ := hsound.busy hwriting
    have hdrop : (p.m_data.drop (p.m_data.length - (w.queue high).remaining)).length =
        (w.queue high).remaining := by
      rw [List.length_drop]
      omega
    rw [hq, Filling.fill_writing (by exact hwriting) hmulti rfl hblock hpos hlt]
    by_cases hfits : (w.queue high).remaining ≤ allot
    · refine ⟨_, _, if_pos hfits, ?_, ?_⟩
      · simp only [Filling.start, hdrop]
        exact hfits
      · apply List.ne_nil_of_length_pos
        simp only [Filling.start, hdrop]
        exact hpos
    · refine ⟨_, _, if_neg hfits, ?_, ?_⟩
      · simp [Filling.start]
      · apply List.ne_nil_of_length_pos
        simp only [Filling.start, List.length_take, hdrop]
        omega
  | false =>
    obtain ⟨hremaining, hmulti⟩ := hsound.idle hwriting
    have hidle : (Filling.start (w.queue high) w.m_sequenceId allot).Idle :=
      ⟨hwriting, hremaining, hmulti, rfl⟩
    by_cases hfirst : fitting allot (w.queue high).q = []
    · obtain ⟨p, rest, hq⟩ := List.exists_cons_of_ne_nil hne
      have hp : p.Proper := hsound.proper p (by rw [hq]; exact List.mem_cons_self)
      have hpos := hp.type_pos
      have hshort := hp.type_short
      have hlong : allot < p.size := by
        rw [hq, fitting] at hfirst
        by_contra hle
        rw [if_pos ⟨hblock, Nat.le_of_not_lt hle⟩] at hfirst
        cases hfirst
      rw [hq, Filling.fill_first hidle hp rfl hblock hlong]
      refine ⟨_, _, rfl, ?_, ?_⟩
      · simp only [Filling.start, List.length_append, List.length_take]
        omega
      · apply List.ne_nil_of_length_pos
        simp only [List.length_append]
        omega
    · have hsub : ∀ p ∈ fitting allot (w.queue high).q, p.Proper := fun p hp =>
        hsound.proper p ((fitting_isPrefix _ _).subset hp)
      rw [Filling.fill_packed hidle hsound.proper fun _ _ _ => hfirst]
      refine ⟨_, _, rfl, ?_, ?_⟩
      · simpa [Filling.packed, Filling.start] using length_contents_fitting hsound.proper allot
      · simpa [Filling.packed, Filling.start] using contents_ne_nil hsub hfirst

end Filled

section Rounds

variable {w : RLPXFrameWriter} {frameLen : ℕ} {swapQueues : Bool}

/-- The queue of a round is not empty. -/
theorem pending_ne_nil (h : ¬(!(!w.first.q.isEmpty) && !(!w.second.q.isEmpty)) = true) :
    (w.queue (if !w.first.q.isEmpty && !swapQueues then true else !(!w.second.q.isEmpty))).q ≠
      [] := by
  cases hfirst : w.first.q with
  | nil =>
    cases hsecond : w.second.q with
    | nil => simp [hfirst, hsecond] at h
    | cons p q => simp [queue, hsecond]
  | cons p q =>
    cases hsecond : w.second.q <;> cases swapQueues <;> simp [queue, hfirst, hsecond]

theorem size_mod (f : MuxFrame) : f.size % 16 = 0 := by
  simp only [MuxFrame.size, paddingOf]
  omega

/-- The frame of a round has packets and fits. -/
theorem round_fits (hsound : w.Sound) (hblock : frameLen % 16 = 0) (hlen : 64 ≤ frameLen)
    (hlt : frameLen < 2 ^ 64) {both high : Bool} (hwide : both = true → 128 ≤ frameLen)
    (hne : (w.queue high).q ≠ []) {o : Option (List RLPXPacket × Filling)}
    (ho : Filling.fill (w.queue high).q
      (.start (w.queue high) w.m_sequenceId (frameAllot both frameLen)) = o) :
    ∃ q f, o = some (q, f) ∧ f.payload.isEmpty = false ∧
      ∀ header, MuxFrame.size ⟨header, f.payload⟩ ≤ frameLen := by
  obtain ⟨hroom, hrest⟩ := frameAllot_bounds hblock hlen hlt hwide
  obtain ⟨q, f, hfill, hle, hsome⟩ := fill_length (hsound high) hroom hne
  refine ⟨q, f, ho.symm.trans hfill, ?_, fun header => ?_⟩
  · rw [List.isEmpty_eq_false_iff]
    exact hsome
  · simp only [MuxFrame.size, paddingOf]
    omega

/-- A call that starts with room for both queues writes no more than it may. -/
theorem muxLoop_fits (hsound : w.Sound) (hblock : frameLen % 16 = 0) (hlt : frameLen < 2 ^ 64)
    (hwide : (!swapQueues && !w.first.q.isEmpty && !w.second.q.isEmpty) = true → 64 ≤ frameLen →
      128 ≤ frameLen)
    (o_toWrite : List MuxFrame) (ret : ℕ) :
    ∃ w' frames ret', muxLoop frameLen swapQueues w o_toWrite ret =
      some (w', o_toWrite ++ frames, ret') ∧ (frames.map MuxFrame.size).sum ≤ frameLen ∧
      (64 ≤ frameLen → w.size ≠ 0 → frames ≠ []) := by
  fun_induction muxLoop frameLen swapQueues w o_toWrite ret with
  | case1 frameLen swapQueues w o_toWrite ret hshort =>
    exact ⟨w, [], ret, by simp, by simp, fun h => absurd hshort (by omega)⟩
  | case2 frameLen swapQueues w o_toWrite ret hlong highPending lowPending hnone =>
    refine ⟨w, [], ret, by simp, by simp, fun _ hsize => absurd ?_ hsize⟩
    simp only [highPending, lowPending, Bool.not_not, Bool.and_eq_true, List.isEmpty_iff] at hnone
    simp [size, hnone]
  | case3 frameLen swapQueues w o_toWrite ret hlong highPending lowPending hsome high allot hfill =>
    obtain ⟨q, f, hnone, -⟩ := round_fits hsound hblock (by omega) hlt
      (fun h => hwide h (by omega)) (pending_ne_nil hsome) hfill
    cases hnone
  | case4 frameLen w o_toWrite ret hlong highPending lowPending hsome q f hempty high allot hfill =>
    obtain ⟨q', f', heq, hne, -⟩ := round_fits hsound hblock (by omega) hlt
      (fun h => hwide h (by omega)) (pending_ne_nil hsome) hfill
    obtain ⟨rfl, rfl⟩ : q = q' ∧ f = f' := by simpa using heq
    simp [hne] at hempty
  | case5 frameLen swapQueues w o_toWrite ret hlong highPending lowPending hsome high allot q f
      hfill hempty =>
    obtain ⟨q', f', heq, hne, -⟩ := round_fits hsound hblock (by omega) hlt
      (fun h => hwide h (by omega)) (pending_ne_nil hsome) hfill
    obtain ⟨rfl, rfl⟩ : q = q' ∧ f = f' := by simpa using heq
    simp [hne] at hempty
  | case6 frameLen swapQueues w o_toWrite ret hlong highPending lowPending hsome high allot q f
      hfill hne frame hlarge =>
    obtain ⟨q', f', heq, -, hfits⟩ := round_fits hsound hblock (by omega) hlt
      (fun h => hwide h (by omega)) (pending_ne_nil hsome) hfill
    obtain ⟨rfl, rfl⟩ : q = q' ∧ f = f' := by simpa using heq
    exact absurd hlarge (Nat.not_lt.mpr (hfits _))
  | case7 frameLen swapQueues w o_toWrite ret hlong highPending lowPending hsome high allot q f
      hfill hne frame hfits f₁ ih =>
    obtain ⟨done, hdone, hcut⟩ := cut_of_fill (hsound high) hfill hne
    have hmod := size_mod frame
    obtain ⟨w', frames, ret', hloop, hsum, -⟩ := ih (hcut.sound hsound) (by omega) (by omega)
      (by simp)
    refine ⟨w', frame :: frames, ret', ?_, ?_, fun _ _ => List.cons_ne_nil _ _⟩
    · rw [hloop, List.append_assoc]
      rfl
    · rw [List.map_cons, List.sum_cons]
      omega

/-- Only the first round has a share for both queues. -/
theorem muxAllots_shares :
    ∀ x ∈ muxAllots frameLen swapQueues w, 64 ≤ x.2 ∧ x.2 ≤ frameLen ∧
      (x.1 = true → x.2 = frameLen ∧
        (!swapQueues && !w.first.q.isEmpty && !w.second.q.isEmpty) = true) := by
  fun_induction muxAllots frameLen swapQueues w with
  | case1 => simp
  | case2 => simp
  | case3 frameLen swapQueues w hlong highPending lowPending hsome high both ih₁ ih₂ =>
    rw [List.forall_mem_cons]
    refine ⟨⟨by omega, le_rfl, fun hboth => ⟨rfl, hboth⟩⟩, fun x hx => ?_⟩
    split at hx
    · simp at hx
    · next q f hfill =>
      split at hx
      · split at hx
        · simp at hx
        · next hswapped =>
          obtain ⟨hlow, hhigh, hshare⟩ := ih₁ q f hswapped x hx
          exact ⟨hlow, hhigh, fun hboth => absurd (hshare hboth).2 (by simp)⟩
      · dsimp only at hx
        split at hx
        · simp at hx
        · next hfits =>
          obtain ⟨hlow, hhigh, hshare⟩ := ih₂ q f hfits x hx
          exact ⟨hlow, by omega, fun hboth => absurd (hshare hboth).2 (by simp)⟩

/-- A call that does not start with too little for both queues fails nowhere. -/
theorem mux_fits (hsound : w.Sound) {size : ℕ} (hsize : size < 2 ^ 64) (hwide : ¬w.Narrow size) :
    ∃ w' frames ret, w.mux size = some (w', frames, ret) ∧
      (frames.map MuxFrame.size).sum ≤ size ∧ (64 ≤ size → w.size ≠ 0 → frames ≠ []) := by
  rw [mux]
  split_ifs with hshort
  · exact ⟨w, [], 0, rfl, by simp, fun h => absurd hshort (by omega)⟩
  · have hroom : (!false && !w.first.q.isEmpty && !w.second.q.isEmpty) = true →
        64 ≤ size / 16 * 16 → 128 ≤ size / 16 * 16 := by
      intro hboth hlen
      by_contra hlt
      apply hwide
      simp only [Bool.not_false, Bool.true_and, Bool.and_eq_true, Bool.not_eq_eq_eq_not,
        Bool.not_true, List.isEmpty_eq_false_iff] at hboth
      exact ⟨hboth.1, hboth.2, by omega, by omega⟩
    obtain ⟨w', frames, ret, hloop, hsum, hsome⟩ := muxLoop_fits hsound
      (show size / 16 * 16 % 16 = 0 by omega) (by omega) hroom [] 0
    rw [List.nil_append] at hloop
    exact ⟨w', frames, ret, hloop, by omega, fun _ => hsome (by omega)⟩

end Rounds

section Example

/-- A packet with an item of some size. -/
def packetOf (t : UInt8) (length : ℕ) : RLPXPacket :=
  .ofType t (Rlp.encode (.data (List.replicate length 7)))

/-- A packet in each queue. -/
def twoPackets : RLPXFrameWriter :=
  (({ m_protocolId := 0 } : RLPXFrameWriter).enque (packetOf 1 50) true).enque (packetOf 2 50)
    false

theorem sound_twoPackets : twoPackets.Sound :=
  ((Reached.fresh : Reached 0 { m_protocolId := 0 }).enque 1 _ true |>.enque 2 _ false).sound

end Example

end RLPXFrameWriter

end P2P
end XChain
