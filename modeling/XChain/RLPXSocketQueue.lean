import Mathlib.Algebra.Order.BigOperators.Group.List
import XChain.RLPXSocketIO
import XChain.RLPXFrameAllot

/-!
# The count of packets at a socket

A packet is counted when it is sent and no longer when the write of the round that took it has
completed. The count decides whether a round begins, and a round divides by the number of
writers that have packets.
-/
namespace XChain

namespace P2P

namespace RLPXFrameWriter

section Cuts

variable {w w' : RLPXFrameWriter} {high : Bool} {f : MuxFrame} {packets : List RLPXPacket}

/-- A frame takes from the queues the packets that it completes. -/
theorem Cut.size_eq (h : Cut w high f packets w') : w.size = w'.size + packets.length := by
  cases h with
  | packed packets rest hidle hq hne =>
    cases high <;> simp [queue, setQueue, size] at hq ⊢ <;> simp [hq] <;> omega
  | first p rest k hidle hq hpos hlt =>
    cases high <;> simp [queue, setQueue, size] at hq ⊢ <;> simp [hq]
  | more p rest k hbusy hq hpos hlt =>
    cases high <;> simp [queue, setQueue, size]
  | last p rest hbusy hq =>
    cases high <;> simp [queue, setQueue, size] at hq ⊢ <;> simp [hq] <;> omega

theorem Cut.first_nil (h : Cut w high f packets w') (hfirst : w.first.q = []) :
    w'.first.q = [] := by
  cases h with
  | packed packets rest hidle hq hne =>
    cases high <;> simp [queue, setQueue, hfirst] at hq ⊢
    exact absurd hq.1 hne
  | first p rest k hidle hq hpos hlt =>
    cases high <;> simp [queue, setQueue, hfirst] at hq ⊢
  | more p rest k hbusy hq hpos hlt =>
    cases high <;> simp [queue, setQueue, hfirst]
  | last p rest hbusy hq =>
    cases high <;> simp [queue, setQueue, hfirst] at hq ⊢

theorem Cuts.size_eq {fs : List MuxFrame} {packets : List (Bool × RLPXPacket)}
    (h : Cuts w fs packets w') : w.size = w'.size + packets.length := by
  induction h with
  | nil w => simp
  | cons hcut hcuts ih =>
    have hsize := hcut.size_eq
    simp only [List.length_append, List.length_map]
    omega

theorem Cuts.first_nil {fs : List MuxFrame} {packets : List (Bool × RLPXPacket)}
    (h : Cuts w fs packets w') (hfirst : w.first.q = []) : w'.first.q = [] := by
  induction h with
  | nil w => exact hfirst
  | cons hcut hcuts ih => exact ih (hcut.first_nil hfirst)

theorem Cuts.ne_nil {fs : List MuxFrame} {packets : List (Bool × RLPXPacket)}
    (h : Cuts w fs packets w') (hne : packets ≠ []) : fs ≠ [] := by
  cases h with
  | nil w => exact absurd rfl hne
  | cons hcut hcuts => exact List.cons_ne_nil _ _

end Cuts

/-- Packets are only in the queue of low priority. -/
def Low (w : RLPXFrameWriter) : Prop := w.first.q = [] ∧ w.Sound

/-- The packets that wait in all writers. -/
def waiting (ws : List RLPXFrameWriter) : ℕ := (ws.map size).sum

/-- The frames of a writer fit into its share, and it loses the packets that it reports. -/
theorem mux_counted {w : RLPXFrameWriter} (h : w.Low) {share : ℕ} (hshare : share < 2 ^ 64) :
    ∃ w' frames n, w.mux share = some (w', frames, n) ∧ w'.Low ∧ w'.size + n = w.size ∧
      (∀ f ∈ frames, f.size ≤ share) ∧ (n ≠ 0 → frames ≠ []) := by
  obtain ⟨hfirst, hsound⟩ := h
  obtain ⟨w', frames, n, hmux, hsum, -⟩ := mux_fits hsound hshare fun hnarrow => hnarrow.1 hfirst
  obtain ⟨packets, hcuts, rfl⟩ := mux_cuts hsound hmux
  refine ⟨w', frames, _, hmux, ⟨hcuts.first_nil hfirst, hcuts.sound hsound⟩, hcuts.size_eq.symm,
    fun f hf => ?_, fun hne => ?_⟩
  · have hle := List.single_le_sum (fun _ _ => Nat.zero_le _) _ (List.mem_map_of_mem (f := MuxFrame.size) hf)
    omega
  · apply hcuts.ne_nil
    rintro rfl
    exact hne rfl

theorem muxAll_counted {ws : List RLPXFrameWriter} (h : ∀ w ∈ ws, w.Low) {share : ℕ}
    (hshare : share < 2 ^ 64) :
    ∃ ws' frames n, muxAll share ws = some (ws', frames, n) ∧ (∀ w ∈ ws', w.Low) ∧
      waiting ws' + n = waiting ws ∧ (∀ f ∈ frames, f.size ≤ share) ∧ (n ≠ 0 → frames ≠ []) := by
  induction ws with
  | nil => exact ⟨[], [], 0, rfl, by simp, rfl, by simp, by simp⟩
  | cons w ws ih =>
    obtain ⟨hw, hws⟩ := List.forall_mem_cons.mp h
    obtain ⟨w', frames, n, hmux, hlow, hsize, hfit, hsome⟩ := mux_counted hw hshare
    obtain ⟨ws', rest, m, hall, hlows, hsizes, hfits, hsomes⟩ := ih hws
    refine ⟨w' :: ws', frames ++ rest, n + m, ?_, ?_, ?_, ?_, ?_⟩
    · rw [muxAll, hmux, hall]
      rfl
    · exact List.forall_mem_cons.mpr ⟨hlow, hlows⟩
    · simp only [waiting, List.map_cons, List.sum_cons] at hsizes ⊢
      omega
    · intro f hf
      rcases List.mem_append.mp hf with hleft | hright
      · exact hfit f hleft
      · exact hfits f hright
    · intro hne hnil
      obtain ⟨hleft, hright⟩ := List.append_eq_nil_iff.mp hnil
      by_cases hn : n = 0
      · exact hsomes (by omega) hright
      · exact hsome hn hleft

theorem waiting_set {ws : List RLPXFrameWriter} {i : ℕ} {w w' : RLPXFrameWriter}
    (hi : ws[i]? = some w) (hsize : w'.size = w.size + 1) :
    waiting (ws.set i w') = waiting ws + 1 := by
  induction ws generalizing i with
  | nil => simp at hi
  | cons v ws ih =>
    cases i with
    | zero =>
      obtain rfl : v = w := by simpa using hi
      simp only [waiting, List.set_cons_zero, List.map_cons, List.sum_cons]
      omega
    | succ i =>
      have hrest := ih (i := i) (by simpa using hi)
      simp only [waiting, List.set_cons_succ, List.map_cons, List.sum_cons] at hrest ⊢
      omega

theorem size_enque {w : RLPXFrameWriter} {p : RLPXPacket} (hp : p.isValid = true) (high : Bool) :
    (w.enque p high).size = w.size + 1 := by
  cases high <;> simp [enque, hp, size] <;> omega

end RLPXFrameWriter

namespace RLPXSocketIO

open RLPXFrameWriter

/-- What an event has to be for the count to be right: a packet that is sent is valid and one
more can be counted, and no write fails. -/
def Takes (s : RLPXSocketIO) : Op → Prop
  | .send isOpen protocolType type payload =>
    s.counts (.send isOpen protocolType type payload) = true →
      (RLPXPacket.ofType type payload).isValid = true ∧ s.m_queued + 1 ≠ 0
  | .fail => False
  | _ => True

instance (s : RLPXSocketIO) (op : Op) : Decidable (s.Takes op) := by
  cases op <;> unfold Takes <;> infer_instance

/-- The count is that of the packets that wait and of those that the outstanding write took,
and the capacity is enough for what is being written. -/
structure Counted (s : RLPXSocketIO) : Prop where
  queued : s.m_queued.toNat = waiting s.m_writers + (s.outstanding.map Prod.snd).sum
  capacity : (s.outstanding.map fun x => x.1.size).sum ≤ s.m_egressCapacity.toNat

/-- Between events. A write that is outstanding took packets, and a round is deferred only
when packets wait and nothing is being written. -/
structure Steady (s : RLPXSocketIO) : Prop extends Counted s where
  low : ∀ w ∈ s.m_writers, w.Low
  single : s.outstanding.length ≤ 1
  taken : ∀ x ∈ s.outstanding, x.2 ≠ 0
  once : s.deferred = true → s.outstanding = [] ∧ waiting s.m_writers ≠ 0

/-- Before a round. -/
structure Ready (s : RLPXSocketIO) : Prop where
  low : ∀ w ∈ s.m_writers, w.Low
  queued : s.m_queued.toNat = waiting s.m_writers
  pending : waiting s.m_writers ≠ 0
  idle : s.outstanding = []
  undeferred : s.deferred = false

section Rounds

variable {s : RLPXSocketIO}

theorem active_ne_zero (h : waiting s.m_writers ≠ 0) : s.active ≠ 0 := by
  intro hactive
  apply h
  rw [active, List.length_eq_zero_iff, List.filter_eq_nil_iff] at hactive
  apply List.sum_eq_zero
  intro n hn
  obtain ⟨w, hw, rfl⟩ := List.mem_map.mp hn
  simpa using hactive w hw

theorem protFrameSize_le : s.protFrameSize ≤ s.m_egressCapacity.toNat := by
  rw [protFrameSize]
  exact (Nat.div_le_self _ _).trans (Nat.min_le_left _ _)

theorem toNat_succ {n : BitVec 32} (h : n + 1 ≠ 0) : (n + 1).toNat = n.toNat + 1 := by
  have hlt := n.isLt
  rw [BitVec.toNat_add_of_lt]
  · rfl
  · by_contra hge
    apply h
    apply BitVec.eq_of_toNat_eq
    have hmax : n.toNat = 2 ^ 32 - 1 := by
      simp at hge
      omega
    rw [BitVec.toNat_add, hmax]
    rfl

/-- A round writes what it took, or it is deferred. -/
theorem doWrite_steady (h : s.Ready) : ∃ s', s.doWrite = some s' ∧ s'.Steady := by
  have hshare : s.protFrameSize < 2 ^ 64 := by
    have hle := protFrameSize_le (s := s)
    omega
  have hmuxed : ∃ ws' frames n,
      (if MinFrameSize ≤ s.protFrameSize then RLPXFrameWriter.muxAll s.protFrameSize s.m_writers
      else some (s.m_writers, [], 0)) = some (ws', frames, n) ∧ (∀ w ∈ ws', w.Low) ∧
      waiting ws' + n = waiting s.m_writers ∧ (∀ f ∈ frames, f.size ≤ s.protFrameSize) ∧
      (n ≠ 0 → frames ≠ []) := by
    split_ifs
    · exact muxAll_counted h.low hshare
    · exact ⟨s.m_writers, [], 0, rfl, h.low, rfl, by simp, by simp⟩
  obtain ⟨ws', frames, n, hmux, hlow, hsize, hfit, hsome⟩ := hmuxed
  rw [doWrite, if_neg (active_ne_zero h.pending), hmux]
  have hqueued := h.queued
  have hpending := h.pending
  by_cases hn : n = 0
  · subst hn
    refine ⟨_, rfl, ⟨?_, ?_⟩, hlow, ?_, ?_, fun _ => ⟨h.idle, ?_⟩⟩
    · simp [h.idle]
      omega
    · simp [h.idle]
    · simp [h.idle]
    · simp [h.idle]
    · simp
      omega
  · obtain ⟨frame, rest, rfl⟩ := List.exists_cons_of_ne_nil (hsome hn)
    have hframe := (hfit frame List.mem_cons_self).trans protFrameSize_le
    simp only [Option.map_some, ne_eq, hn, not_false_eq_true, if_true, write]
    refine ⟨_, rfl, ⟨?_, ?_⟩, hlow, ?_, ?_, fun hdeferred => ?_⟩
    · simp [h.idle]
      omega
    · simpa [h.idle] using hframe
    · simp [h.idle]
    · simpa [h.idle] using hn
    · rw [h.undeferred] at hdeferred
      cases hdeferred

/-- A session in which nothing is counted is not writing and has not deferred a round. -/
theorem Steady.idle_of_queued (h : s.Steady) (hzero : s.m_queued.toNat = 0) :
    s.outstanding = [] ∧ s.deferred = false := by
  have hqueued := h.queued
  constructor
  · by_contra hne
    obtain ⟨x, rest, hout⟩ := List.exists_cons_of_ne_nil hne
    have hx := h.taken x (by simp [hout])
    simp only [hout, List.map_cons, List.sum_cons] at hqueued
    omega
  · cases hdeferred : s.deferred with
    | false => rfl
    | true => exact absurd (by omega) (h.once hdeferred).2

/-- What an event leaves before the round that it begins, or at its end. -/
def Prepared (r : RLPXSocketIO × Bool) : Prop := if r.2 then r.1.Ready else r.1.Steady

theorem prepare_send (h : s.Steady) {protocolType : ℕ} {type : UInt8} {payload : Bytes}
    (htakes : s.Takes (.send true protocolType type payload)) :
    Prepared (s.prepare (.send true protocolType type payload)) := by
  have hqueued := h.queued
  cases hw : s.m_writers[protocolType]? with
  | none => simpa [Prepared, prepare, hw] using h
  | some w =>
    have hlt : protocolType < s.m_writers.length := (List.getElem?_eq_some_iff.mp hw).1
    obtain ⟨hvalid, hcount⟩ := htakes (by simp [counts, hlt])
    have hlow : ∀ w' ∈ s.m_writers.set protocolType (w.enque (.ofType type payload) false),
        w'.Low := by
      intro w' hw'
      rcases List.mem_or_eq_of_mem_set hw' with hold | rfl
      · exact h.low w' hold
      · exact enque_good (h.low w (List.mem_of_getElem? hw)) type payload
    have hwaiting := waiting_set hw (size_enque (w := w) hvalid false)
    have hnext := toNat_succ hcount
    simp only [Prepared, prepare, hw, Bool.not_true, Bool.false_eq_true, if_false]
    by_cases hround : s.m_queued + 1 = 1
    · have hone : (s.m_queued + 1).toNat = 1 := by
        rw [hround]
        rfl
      obtain ⟨hidle, hundeferred⟩ := h.idle_of_queued (by omega)
      rw [if_pos (decide_eq_true hround)]
      refine ⟨hlow, ?_, ?_, hidle, hundeferred⟩
      · simp only [hnext, hwaiting, hidle, List.map_nil, List.sum_nil] at hqueued ⊢
        omega
      · simp only [hwaiting]
        omega
    · rw [if_neg (by simpa using hround)]
      refine ⟨⟨?_, h.capacity⟩, hlow, h.single, h.taken, fun hdeferred => ?_⟩
      · simp only [hnext, hwaiting]
        omega
      · simp only [hwaiting]
        exact ⟨(h.once hdeferred).1, by omega⟩

/-- The packets of the write that ends are no longer counted. -/
theorem prepare_complete (h : s.Steady) : Prepared (s.prepare .complete) := by
  have hqueued := h.queued
  have hsingle := h.single
  cases hout : s.outstanding with
  | nil => simpa [Prepared, prepare, hout] using h
  | cons x rest =>
    obtain ⟨frame, dequed⟩ := x
    rw [hout, List.length_cons] at hsingle
    obtain rfl : rest = [] := List.eq_nil_of_length_eq_zero (by omega)
    have hundeferred : s.deferred = false := by
      cases hdeferred : s.deferred with
      | false => rfl
      | true => simpa [hout] using (h.once hdeferred).1
    simp only [hout, List.map_cons, List.map_nil, List.sum_cons, List.sum_nil] at hqueued
    have hless : (s.m_queued - BitVec.ofNat 32 dequed).toNat = waiting s.m_writers := by
      rw [BitVec.toNat_sub_of_le]
      · simp
        omega
      · rw [BitVec.le_def]
        simp
        omega
    simp only [Prepared, prepare, hout]
    by_cases hround : s.m_queued - BitVec.ofNat 32 dequed = 0
    · rw [if_neg (by simpa using hround)]
      refine ⟨⟨?_, ?_⟩, h.low, ?_, ?_, fun hdeferred => ?_⟩
      · simp [hless]
      · simp
      · simp
      · simp
      · simp [hundeferred] at hdeferred
    · rw [if_pos (by simpa using hround)]
      refine ⟨h.low, hless, fun hnone => hround ?_, rfl, hundeferred⟩
      apply BitVec.eq_of_toNat_eq
      rw [hless, hnone]
      rfl

theorem prepare_timer (h : s.Steady) : Prepared (s.prepare .timer) := by
  have hqueued := h.queued
  cases hdeferred : s.deferred with
  | false => simpa [Prepared, prepare, hdeferred] using h
  | true =>
    obtain ⟨hidle, hpending⟩ := h.once hdeferred
    simp only [Prepared, prepare, hdeferred, if_true]
    refine ⟨h.low, ?_, hpending, hidle, rfl⟩
    simpa [hidle] using hqueued

theorem prepare_steady (h : s.Steady) {op : Op} (htakes : s.Takes op) :
    Prepared (s.prepare op) := by
  cases op with
  | send isOpen protocolType type payload =>
    cases isOpen with
    | false => simpa [Prepared, prepare] using h
    | true => exact prepare_send h htakes
  | complete => exact prepare_complete h
  | fail => exact absurd htakes id
  | timer => exact prepare_timer h

theorem step_steady (h : s.Steady) {op : Op} (htakes : s.Takes op) :
    ∃ s', s.step op = some s' ∧ s'.Steady := by
  have hprepared := prepare_steady h htakes
  rw [Prepared] at hprepared
  rw [step_eq]
  split_ifs at hprepared ⊢ with hround
  · exact doWrite_steady hprepared
  · exact ⟨_, rfl, hprepared⟩

theorem run_steady {ops : List Op} (h : s.Steady)
    (htakes : ∀ pre op post s', ops = pre ++ op :: post → s.run pre = some s' → s'.Takes op) :
    ∃ s', s.run ops = some s' ∧ s'.Steady := by
  induction ops generalizing s with
  | nil => exact ⟨s, rfl, h⟩
  | cons op ops ih =>
    obtain ⟨s₁, hstep, h₁⟩ := step_steady h (htakes [] op ops s rfl rfl)
    have hrest : ∀ pre op' post s', ops = pre ++ op' :: post → s₁.run pre = some s' →
        s'.Takes op' := by
      intro pre op' post s' hops hrun
      apply htakes (op :: pre) op' post s'
      · rw [hops, List.cons_append]
      · rw [run, List.foldlM_cons, hstep]
        exact hrun
    obtain ⟨s₂, hrun, h₂⟩ := ih h₁ hrest
    refine ⟨s₂, ?_, h₂⟩
    rw [run, List.foldlM_cons, hstep]
    exact hrun

theorem init_steady (protCount : ℕ) (flowControl : Bool) (initialCapacity : ℕ) :
    (init protCount flowControl initialCapacity).Steady := by
  have hgood := init_good protCount flowControl initialCapacity
  have hnone : waiting (init protCount flowControl initialCapacity).m_writers = 0 := by
    apply List.sum_eq_zero
    simp [init, size]
  refine ⟨⟨?_, ?_⟩, hgood.writers, ?_, ?_, fun hdeferred => ?_⟩
  · rw [hnone]
    simp [init]
  · simp [init]
  · simp [init]
  · simp [init]
  · simp [init] at hdeferred

end Rounds

/-- In a run in which every packet that is sent is valid and no write fails, no round divides
by zero, the count is right in every state and the capacity is enough for every write. -/
theorem queue_counted (protCount : ℕ) (flowControl : Bool) (initialCapacity : ℕ) (ops : List Op)
    (htakes : ∀ pre op post s, ops = pre ++ op :: post →
      (init protCount flowControl initialCapacity).run pre = some s → s.Takes op) :
    ∀ pre post, ops = pre ++ post →
      ∃ s, (init protCount flowControl initialCapacity).run pre = some s ∧ s.Counted := by
  intro pre post hops
  have hkept : ∃ s, (init protCount flowControl initialCapacity).run pre = some s ∧ s.Steady := by
    apply run_steady (init_steady protCount flowControl initialCapacity)
    intro pre' op post' s' hpre
    apply htakes pre' op (post' ++ post) s'
    rw [hops, hpre, List.append_assoc, List.cons_append]
  obtain ⟨s, hrun, hsteady⟩ := hkept
  exact ⟨s, hrun, hsteady.toCounted⟩

section Example

theorem queue_counted_one : ∃ s, start.run [sendOne 0, .complete] = some s ∧ s.Counted := by
  refine queue_counted _ _ _ [sendOne 0, .complete] ?_ [sendOne 0, .complete] [] rfl
  intro pre op post s hops hrun
  match pre, hops with
  | [], hops =>
    obtain ⟨rfl, -⟩ := List.cons.inj hops
    obtain rfl : start = s := Option.some.inj hrun
    decide +kernel
  | [_], hops =>
    simp only [List.cons_append, List.nil_append, List.cons.injEq] at hops
    obtain ⟨rfl, rfl, -⟩ := hops
    exact trivial
  | _ :: _ :: _, hops =>
    have hlen := congrArg List.length hops
    simp at hlen

/-- A packet with two items. -/
def sendTwo : Op := .send true 0 0 [1, 2]

/-- The first packet is refused by its writer and counted, and the round that begins divides
by zero. Behind another packet it stays counted when nothing waits. -/
theorem refused_counted : start.run [sendTwo] = none ∧
    ∃ s, start.run [sendOne 0, sendTwo] = some s ∧ ¬s.Counted := by
  refine ⟨by decide +kernel, (start.run [sendOne 0, sendTwo]).get (by decide +kernel),
    (Option.some_get _).symm, fun h => ?_⟩
  have hqueued := h.queued
  revert hqueued
  decide +kernel

end Example

end RLPXSocketIO

end P2P
end XChain
