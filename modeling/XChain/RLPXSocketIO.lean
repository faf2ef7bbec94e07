import XChain.RLPXFrameWriter

/-!
# Writing frames to a socket

A round takes frames from the writers of all protocols and writes the first one; the next
round begins when that is written and drops the others. So nothing is lost only if every
round has at most one frame, and if it has one, that frame completes a packet.
-/
namespace XChain

namespace P2P

def MinFrameSize : ℕ := 48

def MaxPacketSize : ℕ := 2 ^ 24

namespace RLPXFrameWriter

/-- The frames of all writers, and how many packets they complete. -/
def muxAll (size : ℕ) :
    List RLPXFrameWriter → Option (List RLPXFrameWriter × List MuxFrame × ℕ)
  | [] => some ([], [], 0)
  | w :: ws => do
    let (w, frames, n) ← w.mux size
    let (ws, rest, m) ← muxAll size ws
    return (w :: ws, frames ++ rest, n + m)

variable {ws : List RLPXFrameWriter} {size : ℕ}

theorem muxAll_idle (h : ∀ w ∈ ws, size < 64 ∨ w.size = 0) : muxAll size ws = some (ws, [], 0) := by
  induction ws with
  | nil => rfl
  | cons w ws ih =>
    have hw : w.mux size = some (w, [], 0) := by
      rw [mux]
      split_ifs with hlt
      · rfl
      · apply muxLoop_done
        exact Or.inr ((h w List.mem_cons_self).resolve_left hlt)
    rw [muxAll, hw]
    simp [ih fun w' hw' => h w' (List.mem_cons_of_mem w hw')]

/-- One frame, from the only writer that has packets. -/
theorem muxAll_one (hlen : 64 ≤ size) (hlt : size < 2 ^ 64)
    (hws : ∀ w ∈ ws, w.first.q = [] ∧ w.Sound) (hone : (ws.filter fun w => w.size ≠ 0).length = 1)
    (hframe : ∀ w ∈ ws, w.size ≠ 0 → OneFrame w.second size) :
    ∃ ws' f n, muxAll size ws = some (ws', [f], n) ∧ 0 < n ∧ ∀ w ∈ ws',
      w.first.q = [] ∧ w.Sound := by
  induction ws with
  | nil => simp at hone
  | cons w ws ih =>
    have hws' : ∀ w' ∈ ws, w'.first.q = [] ∧ w'.Sound :=
      fun w' hw' => hws w' (List.mem_cons_of_mem w hw')
    obtain ⟨hfirst, hsound⟩ := hws w List.mem_cons_self
    by_cases hsize : w.size = 0
    · have hw : w.mux size = some (w, [], 0) := by
        rw [mux, if_neg (by omega)]
        exact muxLoop_done (Or.inr hsize)
      rw [List.filter_cons_of_neg (by simp [hsize])] at hone
      obtain ⟨ws', f, n, hmux, hpos, hgood⟩ := ih hws' hone fun w' hw' =>
        hframe w' (List.mem_cons_of_mem w hw')
      refine ⟨w :: ws', f, n, ?_, hpos, fun w' hw' => ?_⟩
      · rw [muxAll, hw]
        simp [hmux]
      · rcases List.mem_cons.mp hw' with rfl | hmem
        · exact ⟨hfirst, hsound⟩
        · exact hgood w' hmem
    · rw [List.filter_cons_of_pos (by simp [hsize]), List.length_cons] at hone
      have hrest : ∀ w' ∈ ws, size < 64 ∨ w'.size = 0 := fun w' hw' => by
        right
        by_contra hne
        have hmem : w' ∈ ws.filter fun w => w.size ≠ 0 := List.mem_filter.mpr ⟨hw', by simp [hne]⟩
        have hpos := List.length_pos_of_mem hmem
        omega
      obtain ⟨w', f, n, hmux, hpos, hsame⟩ := mux_one hfirst (hsound false) hlen hlt
        (hframe w List.mem_cons_self hsize)
      obtain ⟨packets, hcuts, -⟩ := mux_cuts hsound hmux
      refine ⟨w' :: ws, f, n, ?_, hpos, fun w'' hw'' => ?_⟩
      · rw [muxAll, hmux]
        simp [muxAll_idle hrest]
      · rcases List.mem_cons.mp hw'' with rfl | hmem
        · exact ⟨by rw [hsame]; exact hfirst, hcuts.sound hsound⟩
        · exact hws' w'' hmem

end RLPXFrameWriter

/-- Writes that are outstanding stand with the packets that their rounds completed. The
frames that were returned by the writers and those that were given to the socket are noted. -/
structure RLPXSocketIO where
  m_flowControl : Bool
  m_toSend : List MuxFrame := []
  m_writers : List RLPXFrameWriter
  deferred : Bool := false
  m_queued : BitVec 32 := 0
  m_egressCapacity : BitVec 32
  outstanding : List (MuxFrame × ℕ) := []
  produced : List MuxFrame := []
  written : List MuxFrame := []

namespace RLPXSocketIO

def init (protCount : ℕ) (flowControl : Bool) (initialCapacity : ℕ) : RLPXSocketIO where
  m_flowControl := flowControl
  m_writers := (List.range protCount).map fun i => { m_protocolId := BitVec.ofNat 16 i }
  m_egressCapacity :=
    BitVec.ofNat 32 (if flowControl then initialCapacity else MaxPacketSize * protCount)

variable (s : RLPXSocketIO)

/-- The number of writers with packets. -/
def active : ℕ := (s.m_writers.filter fun w => w.size ≠ 0).length

def protFrameSize : ℕ := min s.m_egressCapacity.toNat MaxPacketSize / s.active

def write (dequed : ℕ) : RLPXSocketIO :=
  match s.m_toSend with
  | [] => s
  | frame :: _ =>
    { s with outstanding := s.outstanding ++ [(frame, dequed)], written := s.written ++ [frame] }

/-- A round. Without active writers it divides by zero. -/
def doWrite : Option RLPXSocketIO :=
  if s.active = 0 then none
  else
    let muxed :=
      if MinFrameSize ≤ s.protFrameSize then RLPXFrameWriter.muxAll s.protFrameSize s.m_writers
      else some (s.m_writers, [], 0)
    muxed.map fun (ws, frames, dequed) =>
      let s := { s with m_writers := ws, m_toSend := frames, produced := s.produced ++ frames }
      if dequed ≠ 0 then s.write dequed else { s with deferred := true }

inductive Op where
  | send (isOpen : Bool) (protocolType : ℕ) (type : UInt8) (payload : Bytes)
  | complete
  | fail
  | timer

/-- What an event does before a round, and whether there is one. -/
def prepare : Op → RLPXSocketIO × Bool
  | .send isOpen protocolType type payload =>
    if !isOpen then (s, false)
    else
      match s.m_writers[protocolType]? with
      | none => (s, false)
      | some w =>
        let writers := s.m_writers.set protocolType (w.enque (.ofType type payload) false)
        ({ s with m_writers := writers, m_queued := s.m_queued + 1 }, s.m_queued + 1 = 1)
  | .complete =>
    match s.outstanding with
    | [] => (s, false)
    | (frame, dequed) :: rest =>
      let capacity := if s.m_flowControl then s.m_egressCapacity - BitVec.ofNat 32 frame.size
        else s.m_egressCapacity
      let queued := s.m_queued - BitVec.ofNat 32 dequed
      ({ s with outstanding := rest, m_egressCapacity := capacity, m_queued := queued }, queued ≠ 0)
  | .fail => ({ s with outstanding := s.outstanding.tail }, false)
  | .timer => if s.deferred then ({ s with deferred := false }, true) else (s, false)

def step (op : Op) : Option RLPXSocketIO :=
  let (s, round) := s.prepare op
  if round then s.doWrite else some s

def run (ops : List Op) : Option RLPXSocketIO := ops.foldlM step s

/-- Some writer has packets, and either no frame fits into its share or it is the only one
and has one frame that completes a packet. -/
def RoundFits : Prop :=
  s.active ≠ 0 ∧ (s.protFrameSize < 64 ∨
    (s.active = 1 ∧ ∀ w ∈ s.m_writers, w.size ≠ 0 →
      RLPXFrameWriter.OneFrame w.second s.protFrameSize))

instance : Decidable s.RoundFits := inferInstanceAs (Decidable (_ ∧ _))

/-- Whether an event counts a packet. -/
def counts : Op → Bool
  | .send isOpen protocolType _ _ => isOpen && decide (protocolType < s.m_writers.length)
  | _ => false

/-- What the state before an event must be like: the count of packets does not overflow, and
a round that begins has one frame at most. -/
def Fits (op : Op) : Prop :=
  (s.counts op = true → s.m_queued + 1 ≠ 0) ∧ ((s.prepare op).2 = true → (s.prepare op).1.RoundFits)

instance (op : Op) : Decidable (s.Fits op) := inferInstanceAs (Decidable (_ ∧ _))

/-- All frames are given to the socket, and one write is outstanding at most. -/
structure Written : Prop where
  written : s.written = s.produced
  single : s.outstanding.length ≤ 1

/-- Packets are only in the queues of low priority, and a round begins only when there is
neither a write outstanding nor one deferred. -/
structure Good : Prop extends Written s where
  writers : ∀ w ∈ s.m_writers, w.first.q = [] ∧ w.Sound
  queued : s.outstanding ≠ [] ∨ s.deferred = true → s.m_queued ≠ 0
  once : s.outstanding ≠ [] → s.deferred = false

section Rounds

variable {s}

/-- A round that fits writes all its frames. -/
theorem doWrite_good (h : s.Good) (hfits : s.RoundFits) (hqueued : s.m_queued ≠ 0)
    (hnone : s.outstanding = []) (hdeferred : s.deferred = false) :
    ∃ s', s.doWrite = some s' ∧ s'.Good := by
  obtain ⟨hactive, hround⟩ := hfits
  have hsize : s.protFrameSize < 2 ^ 64 := by
    rw [protFrameSize]
    apply lt_of_le_of_lt (Nat.div_le_self _ _)
    apply lt_of_le_of_lt (Nat.min_le_right _ _)
    norm_num [MaxPacketSize]
  rw [doWrite, if_neg hactive]
  have hidle : ∀ o : Option (List RLPXFrameWriter × List MuxFrame × ℕ),
      o = some (s.m_writers, [], 0) → ∃ s', (o.map fun (ws, frames, dequed) =>
        let s := { s with m_writers := ws, m_toSend := frames, produced := s.produced ++ frames }
        if dequed ≠ 0 then s.write dequed else { s with deferred := true }) = some s' ∧
          s'.Good := by
    rintro _ rfl
    refine ⟨_, rfl, ⟨⟨?_, h.single⟩, h.writers, fun _ => hqueued, fun hne => absurd hnone hne⟩⟩
    simp [h.written]
  by_cases hsmall : s.protFrameSize < 64
  · apply hidle
    split_ifs with hmin
    · exact RLPXFrameWriter.muxAll_idle fun w hw => Or.inl hsmall
    · rfl
  · obtain ⟨hone, hframe⟩ := hround.resolve_left hsmall
    obtain ⟨ws', f, n, hmux, hpos, hgood⟩ := RLPXFrameWriter.muxAll_one (by omega) hsize h.writers
      hone hframe
    have hmin : MinFrameSize ≤ s.protFrameSize := by
      rw [MinFrameSize]
      omega
    rw [if_pos hmin, hmux]
    simp only [Option.map_some, hpos.ne', ne_eq, not_false_eq_true, if_true, write]
    refine ⟨_, rfl, ⟨⟨?_, ?_⟩, hgood, fun _ => hqueued, fun _ => hdeferred⟩⟩
    · simp [h.written]
    · simp [hnone]

theorem init_good (protCount : ℕ) (flowControl : Bool) (initialCapacity : ℕ) :
    (init protCount flowControl initialCapacity).Good := by
  refine ⟨⟨rfl, Nat.zero_le 1⟩, fun w hw => ?_, fun h => ?_, fun _ => rfl⟩
  · obtain ⟨i, -, rfl⟩ := List.mem_map.mp hw
    refine ⟨rfl, fun high => ?_⟩
    cases high <;> exact ⟨fun p hp => absurd hp List.not_mem_nil, fun _ => ⟨rfl, rfl⟩,
      fun h => by cases h⟩
  · simp [init] at h

theorem enque_good {w : RLPXFrameWriter} (h : w.first.q = [] ∧ w.Sound) (t : UInt8)
    (payload : Bytes) :
    (w.enque (.ofType t payload) false).first.q = [] ∧
      (w.enque (.ofType t payload) false).Sound := by
  cases hvalid : (RLPXPacket.ofType t payload).isValid with
  | false => simpa [RLPXFrameWriter.enque, hvalid] using h
  | true =>
    have hp := RLPXPacket.proper_ofType t ((RLPXPacket.isValid_ofType t payload).mp hvalid)
    refine ⟨?_, h.2.enque hp⟩
    have hqueue : (w.enque (.ofType t payload) false).queue true = _ :=
      RLPXFrameWriter.queue_enque hp true
    simp only [RLPXFrameWriter.queue, if_true, Bool.true_eq_false, if_false,
      List.append_nil] at hqueue
    rw [hqueue]
    exact h.1

/-- What an event does before a round. If there is one, packets are counted and nothing is
being written. -/
theorem prepare_good (h : s.Good) {op : Op} (hcount : s.counts op = true → s.m_queued + 1 ≠ 0) :
    (s.prepare op).1.Good ∧ ((s.prepare op).2 = true → (s.prepare op).1.m_queued ≠ 0 ∧
      (s.prepare op).1.outstanding = [] ∧ (s.prepare op).1.deferred = false) := by
  cases op with
  | send isOpen protocolType type payload =>
    simp only [prepare]
    cases isOpen with
    | false => exact ⟨h, fun hround => by cases hround⟩
    | true =>
      cases hw : s.m_writers[protocolType]? with
      | none => exact ⟨h, fun hround => by cases hround⟩
      | some w =>
        have hlt : protocolType < s.m_writers.length := (List.getElem?_eq_some_iff.mp hw).1
        have hne : s.m_queued + 1 ≠ 0 := hcount (by simp [counts, hlt])
        refine ⟨⟨⟨h.written, h.single⟩, fun w' hw' => ?_, fun _ => hne, h.once⟩, fun hround => ?_⟩
        · rcases List.mem_or_eq_of_mem_set hw' with hold | rfl
          · exact h.writers w' hold
          · exact enque_good (h.writers w (List.mem_of_getElem? hw)) type payload
        · have hone : s.m_queued + 1 = 1 := of_decide_eq_true hround
          have hzero : s.m_queued = 0 := by simpa using hone
          have hidle := fun hb => h.queued hb hzero
          refine ⟨hne, ?_, ?_⟩
          · by_contra hout
            exact hidle (Or.inl hout)
          · exact Bool.eq_false_iff.mpr fun hdef => hidle (Or.inr hdef)
  | complete =>
    have hsingle := h.single
    simp only [prepare]
    cases hout : s.outstanding with
    | nil => exact ⟨h, fun hround => by cases hround⟩
    | cons x rest =>
      obtain ⟨frame, dequed⟩ := x
      rw [hout, List.length_cons] at hsingle
      obtain rfl : rest = [] := List.eq_nil_of_length_eq_zero (by omega)
      have hdeferred : s.deferred = false := h.once (by rw [hout]; exact List.cons_ne_nil _ _)
      refine ⟨⟨⟨h.written, Nat.zero_le 1⟩, h.writers, fun hb => ?_, fun _ => hdeferred⟩,
        fun hround => ⟨of_decide_eq_true hround, rfl, hdeferred⟩⟩
      rcases hb with hb | hb
      · exact absurd rfl hb
      · exact absurd hb (by rw [hdeferred]; exact Bool.false_ne_true)
  | fail =>
    have hsingle := h.single
    have htail : s.outstanding.tail = [] := by
      apply List.eq_nil_of_length_eq_zero
      rw [List.length_tail]
      omega
    simp only [prepare, htail]
    refine ⟨⟨⟨h.written, Nat.zero_le 1⟩, h.writers, fun hb => ?_, fun hb => absurd rfl hb⟩,
      fun hround => by cases hround⟩
    rcases hb with hb | hb
    · exact absurd rfl hb
    · exact h.queued (Or.inr hb)
  | timer =>
    simp only [prepare]
    cases hdeferred : s.deferred with
    | false => exact ⟨h, fun hround => by cases hround⟩
    | true =>
      have hout : s.outstanding = [] := by
        by_contra hne
        rw [h.once hne] at hdeferred
        cases hdeferred
      refine ⟨⟨⟨h.written, h.single⟩, h.writers, fun hb => ?_, fun _ => rfl⟩, fun _ =>
        ⟨h.queued (Or.inr hdeferred), hout, rfl⟩⟩
      exact h.queued (Or.inr hdeferred)

theorem step_eq (op : Op) :
    s.step op = if (s.prepare op).2 then (s.prepare op).1.doWrite else some (s.prepare op).1 := rfl

theorem step_good (h : s.Good) {op : Op} (hfits : s.Fits op) :
    ∃ s', s.step op = some s' ∧ s'.Good := by
  obtain ⟨hgood, hround⟩ := prepare_good h hfits.1
  rw [step_eq]
  cases hb : (s.prepare op).2 with
  | false => exact ⟨_, rfl, hgood⟩
  | true =>
    obtain ⟨hqueued, hnone, hdeferred⟩ := hround hb
    exact doWrite_good hgood (hfits.2 hb) hqueued hnone hdeferred

theorem run_good {ops : List Op} (h : s.Good)
    (hfits : ∀ pre op post s', ops = pre ++ op :: post → s.run pre = some s' → s'.Fits op) :
    ∃ s', s.run ops = some s' ∧ s'.Good := by
  induction ops generalizing s with
  | nil => exact ⟨s, rfl, h⟩
  | cons op ops ih =>
    obtain ⟨s₁, h₁, hgood₁⟩ := step_good h (hfits [] op ops s rfl rfl)
    obtain ⟨s₂, h₂, hgood₂⟩ := ih hgood₁ fun pre op' post s' hops hrun => by
      apply hfits (op :: pre) op' post s'
      · rw [hops, List.cons_append]
      · rw [run, List.foldlM_cons, h₁]
        exact hrun
    refine ⟨s₂, ?_, hgood₂⟩
    rw [run, List.foldlM_cons, h₁]
    exact h₂

end Rounds

/-- In a run in which each event fits, every frame that a writer returns is given to the
socket once and in order, and no write begins while one is outstanding. -/
theorem frames_written (protCount : ℕ) (flowControl : Bool) (initialCapacity : ℕ) (ops : List Op)
    (hfits : ∀ pre op post s, ops = pre ++ op :: post →
      (init protCount flowControl initialCapacity).run pre = some s → s.Fits op) :
    ∀ pre post, ops = pre ++ post →
      ∃ s, (init protCount flowControl initialCapacity).run pre = some s ∧ s.Written := by
  intro pre post hops
  have hkept : ∃ s, (init protCount flowControl initialCapacity).run pre = some s ∧ s.Good :=
    run_good (init_good protCount flowControl initialCapacity) fun pre' op post' s' hpre => by
      apply hfits pre' op (post' ++ post) s'
      rw [hops, hpre, List.append_assoc, List.cons_append]
  obtain ⟨s, hrun, hgood⟩ := hkept
  exact ⟨s, hrun, hgood.toWritten⟩

section Example

/-- A packet with an item of one byte. -/
def sendOne (protocolType : ℕ) : Op := .send true protocolType 0 [1]

def start : RLPXSocketIO := init 2 true 2048

def startSent : RLPXSocketIO := (start.run [sendOne 0]).get (by decide +kernel)

theorem frames_written_one : ∃ s, start.run [sendOne 0, .complete] = some s ∧ s.Written := by
  refine frames_written _ _ _ [sendOne 0, .complete] ?_ [sendOne 0, .complete] [] rfl
  intro pre op post s hops hrun
  match pre, hops with
  | [], hops =>
    obtain ⟨rfl, -⟩ := List.cons.inj hops
    obtain rfl : start = s := Option.some.inj hrun
    decide +kernel
  | [_], hops =>
    simp only [List.cons_append, List.nil_append, List.cons.injEq] at hops
    obtain ⟨rfl, rfl, -⟩ := hops
    have hsent : start.run [sendOne 0] = some startSent := (Option.some_get _).symm
    obtain rfl : startSent = s := Option.some.inj (hsent.symm.trans hrun)
    decide +kernel
  | _ :: _ :: _, hops =>
    have hlen := congrArg List.length hops
    simp at hlen

/-- Two protocols have packets when a write completes, and only the first frame of the round
is written. In the end nothing waits. -/
theorem second_frame_dropped : ∃ s, (init 2 false 0).run
    [sendOne 0, sendOne 0, sendOne 1, .complete, .complete] = some s ∧ s.outstanding = [] ∧
      s.deferred = false ∧ s.m_queued = 0 ∧ s.produced.length = 3 ∧
        s.written = s.produced.take 2 := by
  refine ⟨((init 2 false 0).run [sendOne 0, sendOne 0, sendOne 1, .complete, .complete]).get
    (by decide +kernel), (Option.some_get _).symm, ?_⟩
  decide +kernel

end Example

end RLPXSocketIO

end P2P
end XChain
