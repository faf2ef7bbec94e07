import XChain.NodeTableRuns

/-!
# Challenges

A node that is challenged should stay if it answers in time and be replaced if it does not,
and the challenge should be settled by that. No challenge ever is: an answer counts only if
the time of the challenge is in the future, and a check leaves the challenges as they are.
-/
namespace XChain

namespace P2P

namespace NodeTable

variable (sha3 : Bytes → FixedHash 32) (test_allowLocal : Bool) (t : NodeTable)

def Op.time : Op → Option ℕ
  | .noteActiveNode _ _ now _ => some now
  | .pong _ _ now _ => some now
  | .doCheckEvictions now => some now
  | .addKnownNode _ _ now _ => some now
  | _ => none

/-- The times at which the clock was read. -/
def times (ops : List Op) : List ℕ := ops.filterMap Op.time

/-- The challenged node answers within the timeout. -/
def AnsweredBy (e : EvictionTimeout) (op : Op) : Prop :=
  ∃ endpoint now isOpen, op = .pong e.leastSeen endpoint now isOpen ∧ now ≤ e.time + c_reqTimeout

/-- A check that is scheduled finds that the timeout has passed. -/
def ExpiredAt (e : EvictionTimeout) (op : Op) : Prop :=
  ∃ now, op = .doCheckEvictions now ∧ t.checks ≠ 0 ∧ e.time + c_reqTimeout < now

/-- The node of an id is in some bucket. -/
def Listed (id : Public) : Prop := ∃ n i, t.m_nodes id = some n ∧ n ∈ t.m_state i

/-- One copy of the challenge is gone, and of its two nodes only the one that stays is in a
bucket. -/
structure Settled (e : EvictionTimeout) (stays goes : Public) (t' : NodeTable) : Prop where
  stays : t'.Listed stays
  goes : ¬t'.Listed goes
  removed : t'.m_evictions.count e < t.m_evictions.count e

/-- What is claimed of an event and a challenge. -/
def Handles (e : EvictionTimeout) (op : Op) : Prop :=
  (AnsweredBy e op → ∃ t', t.step sha3 test_allowLocal op = some t' ∧
    t.Settled e e.leastSeen e.new t') ∧
  (t.ExpiredAt e op → ∃ t', t.step sha3 test_allowLocal op = some t' ∧
    t.Settled e e.new e.leastSeen t')

section Steps

variable {sha3} {test_allowLocal} {t} {t' : NodeTable}

/-- No challenge is found if all of them are in the past. -/
theorem onPong_evictions {sourceid : Public} {endpoint : NodeIPEndpoint} {now : ℕ} {b : Bool}
    (h : t.onPong sha3 sourceid endpoint now = some (t', b)) (hpast : ∀ e ∈ t.m_evictions, e.time ≤ now) :
    t'.m_evictions = t.m_evictions := by
  have hnone : (t.m_evictions.find? fun e => e.leastSeen = sourceid ∧ now < e.time) = none := by
    apply List.find?_eq_none.mpr
    intro e he
    simp [Nat.not_lt.mpr (hpast e he)]
  have hpending : (t.notePending sourceid).m_evictions = t.m_evictions := by
    rw [notePending]
    cases t.m_nodes sourceid <;> rfl
  have hadd : ∀ s : NodeTable, (s.addNode sourceid endpoint).m_evictions = s.m_evictions := by
    intro s
    rw [addNode]
    split_ifs <;> rfl
  rw [onPong, hnone] at h
  simp only at h
  split_ifs at h
  · obtain ⟨rfl, -⟩ := Prod.mk.inj (Option.some.inj h)
    exact hpending
  · obtain ⟨rfl, -⟩ := Prod.mk.inj (Option.some.inj h)
    rfl
  · obtain ⟨rfl, -⟩ := Prod.mk.inj (Option.some.inj h)
    exact hadd _

/-- What comes before noting a node leaves the challenges as they are. -/
theorem prepare_evictions {op : Op} {x : Option Note} (h : t.prepare sha3 op = some (t', x))
    (hpast : ∀ now, op.time = some now → ∀ e ∈ t.m_evictions, e.time ≤ now) :
    t'.m_evictions = t.m_evictions ∧ ∀ y, x = some y → op.time = some y.now := by
  cases op with
  | noteActiveNode pubk endpoint now isOpen =>
    obtain ⟨rfl, rfl⟩ := Prod.mk.inj (Option.some.inj h)
    exact ⟨rfl, fun y hy => by rw [← Option.some.inj hy]; rfl⟩
  | dropNode n =>
    obtain ⟨t₁, h₁, h₂⟩ := Option.map_eq_some_iff.mp h
    obtain ⟨rfl, rfl⟩ := Prod.mk.inj h₂
    obtain ⟨s, ev, rfl, -⟩ := dropNode_eq h₁
    exact ⟨rfl, fun y hy => by cases hy⟩
  | pong sourceid endpoint now isOpen =>
    obtain ⟨⟨t₁, b⟩, h₁, h₂⟩ := Option.map_eq_some_iff.mp h
    obtain ⟨rfl, rfl⟩ := Prod.mk.inj h₂
    refine ⟨onPong_evictions h₁ (hpast now rfl), fun y hy => ?_⟩
    cases b with
    | false => simp at hy
    | true =>
      simp only [if_true, Option.some.injEq] at hy
      rw [← hy]
      rfl
  | doCheckEvictions now =>
    obtain ⟨t₁, h₁, h₂⟩ := Option.map_eq_some_iff.mp h
    obtain ⟨rfl, rfl⟩ := Prod.mk.inj h₂
    obtain ⟨s, ev, ch, rfl, -⟩ := doCheckEvictions_eq h₁
    exact ⟨rfl, fun y hy => by cases hy⟩
  | addNode id endpoint =>
    obtain ⟨rfl, rfl⟩ := Prod.mk.inj (Option.some.inj h)
    refine ⟨?_, fun y hy => by cases hy⟩
    rw [NodeTable.addNode]
    split_ifs <;> rfl
  | addKnownNode id endpoint now isOpen =>
    obtain ⟨rfl, rfl⟩ := Prod.mk.inj (Option.some.inj h)
    exact ⟨rfl, fun y hy => by rw [← Option.some.inj hy]; rfl⟩
  | expire n =>
    obtain ⟨rfl, rfl⟩ := Prod.mk.inj (Option.some.inj h)
    exact ⟨rfl, fun y hy => by cases hy⟩

/-- An event whose time is not before that of any challenge only adds challenges. -/
theorem step_evictions {op : Op} (h : t.step sha3 test_allowLocal op = some t') (ht : t.Held)
    (hpast : ∀ now, op.time = some now → ∀ e ∈ t.m_evictions, e.time ≤ now) :
    t'.Held ∧ t.m_evictions <+: t'.m_evictions ∧
      ∀ e ∈ t'.m_evictions, e ∈ t.m_evictions ∨ op.time = some e.time := by
  rw [step] at h
  obtain ⟨⟨t₁, x⟩, hprep, hrest⟩ := Option.bind_eq_some_iff.mp h
  obtain ⟨hsame, hnow⟩ := prepare_evictions hprep hpast
  have hheld := (prepare_keeps hprep).held' ht
  cases x with
  | none =>
    obtain rfl := Option.some.inj hrest
    exact ⟨hheld, by rw [hsame], fun e he => Or.inl (hsame ▸ he)⟩
  | some y =>
    have hnote : t₁.note sha3 test_allowLocal y = some t' := hrest
    refine ⟨note_held hnote hheld, ?_⟩
    obtain rfl | ⟨n, i, e, evictions, checks, events, -, -, -, -, rfl, hkept, htimes⟩ :=
      note_eq hnote hheld
    · exact ⟨by rw [hsame], fun e he => Or.inl (hsame ▸ he)⟩
    · rw [hsame] at hkept htimes
      refine ⟨hkept, fun c hc => (htimes c hc).imp_right fun htime => ?_⟩
      rw [hnow y rfl, htime]

end Steps

section Runs

variable {sha3} {test_allowLocal}

theorem times_append (a b : List Op) : times (a ++ b) = times a ++ times b := List.filterMap_append

/-- In a run whose clock never goes back, challenges are from the past. -/
theorem run_evictions {own : Public} {ops : List Op} {t : NodeTable}
    (hclock : (times ops).Pairwise (· ≤ ·)) (h : (init own).run sha3 test_allowLocal ops = some t) :
    t.Held ∧ ∀ e ∈ t.m_evictions, e.time ∈ times ops := by
  induction ops using List.reverseRecOn generalizing t with
  | nil =>
    obtain rfl := Option.some.inj h
    exact ⟨held_init own, fun e he => by simp [init] at he⟩
  | append_singleton ops op ih =>
    rw [run, List.foldlM_append] at h
    obtain ⟨t₁, h₁, h₂⟩ := Option.bind_eq_some_iff.mp h
    have hstep : t₁.step sha3 test_allowLocal op = some t := by simpa using h₂
    rw [times_append] at hclock ⊢
    obtain ⟨hops, -, hlast⟩ := List.pairwise_append.mp hclock
    obtain ⟨hheld, hpast⟩ := ih hops h₁
    obtain ⟨hheld', -, hnew⟩ := step_evictions hstep hheld fun now hnow e he =>
      hlast _ (hpast e he) now (by simp [times, hnow])
    refine ⟨hheld', fun e he => ?_⟩
    rcases hnew e he with hold | hop
    · exact List.mem_append_left _ (hpast e hold)
    · exact List.mem_append_right _ (by simp [times, hop])

/-- No event settles a challenge. -/
theorem not_settled {own : Public} {pre : List Op} {op : Op} {t t' : NodeTable}
    (hclock : (times (pre ++ [op])).Pairwise (· ≤ ·))
    (hrun : (init own).run sha3 test_allowLocal pre = some t)
    (hstep : t.step sha3 test_allowLocal op = some t') (e : EvictionTimeout) (stays goes : Public) :
    ¬t.Settled e stays goes t' := by
  intro hsettled
  rw [times_append] at hclock
  obtain ⟨hpre, -, hlast⟩ := List.pairwise_append.mp hclock
  obtain ⟨hheld, hpast⟩ := run_evictions hpre hrun
  obtain ⟨-, hkept, -⟩ := step_evictions hstep hheld fun now hnow e he =>
    hlast _ (hpast e he) now (by simp [times, hnow])
  exact absurd hsettled.removed (Nat.not_lt.mpr (hkept.sublist.count_le e))

end Runs

/-- What is claimed holds of those runs only in which no challenge is answered in time and
no check finds one whose timeout has passed. -/
theorem evictions_exact (own : Public) (ops : List Op) (hclock : (times ops).Pairwise (· ≤ ·)) :
    (∀ pre op post t, ops = pre ++ op :: post → (init own).run sha3 test_allowLocal pre = some t →
      ∀ e ∈ t.m_evictions, t.Handles sha3 test_allowLocal e op) ↔
    ∀ pre op post t, ops = pre ++ op :: post → (init own).run sha3 test_allowLocal pre = some t →
      ∀ e ∈ t.m_evictions, ¬AnsweredBy e op ∧ ¬t.ExpiredAt e op := by
  constructor
  · intro h pre op post t hops hrun e he
    obtain ⟨hanswered, hexpired⟩ := h pre op post t hops hrun e he
    have hpre : (times (pre ++ [op])).Pairwise (· ≤ ·) := by
      rw [hops, List.append_cons, times_append] at hclock
      exact (List.pairwise_append.mp hclock).1
    constructor
    · intro ha
      obtain ⟨t', hstep, hsettled⟩ := hanswered ha
      exact not_settled hpre hrun hstep e _ _ hsettled
    · intro hx
      obtain ⟨t', hstep, hsettled⟩ := hexpired hx
      exact not_settled hpre hrun hstep e _ _ hsettled
  · intro h pre op post t hops hrun e he
    obtain ⟨hanswered, hexpired⟩ := h pre op post t hops hrun e he
    exact ⟨fun ha => absurd ha hanswered, fun hx => absurd hx hexpired⟩

section Example

/-- A bucket is filled and one more node challenges the first one in it. -/
def challenges : List Op := (List.range 17).map fun k => addFar (.ofNat (k + 1))

def answer : Op := .pong (farId 1) publicEndpoint 1 true

def check : Op := .doCheckEvictions (c_reqTimeout + 1)

theorem evictions_exact_answer :
    (∀ pre op post t, challenges ++ [answer] = pre ++ op :: post → after pre = some t →
      ∀ e ∈ t.m_evictions, t.Handles firstHalf false e op) ↔
    ∀ pre op post t, challenges ++ [answer] = pre ++ op :: post → after pre = some t →
      ∀ e ∈ t.m_evictions, ¬AnsweredBy e op ∧ ¬t.ExpiredAt e op :=
  evictions_exact firstHalf false (.zero 64) (challenges ++ [answer]) (by decide)

def challenged : NodeTable := (after challenges).get (by decide +kernel)

def answered : NodeTable := (challenged.step firstHalf false answer).get (by decide +kernel)

def checked : NodeTable := (challenged.step firstHalf false check).get (by decide +kernel)

def challenge : EvictionTimeout := ⟨farId 1, 0, farId 17⟩

/-- The challenge is still there after the answer, and also after the check. -/
theorem challenge_remains : after challenges = some challenged ∧ challenge ∈ challenged.m_evictions ∧
    ¬challenged.Handles firstHalf false challenge answer ∧
    ¬challenged.Handles firstHalf false challenge check := by
  have hanswered : challenged.step firstHalf false answer = some answered := (Option.some_get _).symm
  have hchecked : challenged.step firstHalf false check = some checked := (Option.some_get _).symm
  refine ⟨(Option.some_get _).symm, by decide +kernel, fun h => ?_, fun h => ?_⟩
  · obtain ⟨t', hstep, hsettled⟩ := h.1 ⟨publicEndpoint, 1, true, rfl, by decide⟩
    obtain rfl : answered = t' := Option.some.inj (hanswered.symm.trans hstep)
    exact absurd hsettled.removed (by decide +kernel)
  · obtain ⟨t', hstep, hsettled⟩ := h.2 ⟨c_reqTimeout + 1, rfl, by decide +kernel, by decide⟩
    obtain rfl : checked = t' := Option.some.inj (hchecked.symm.trans hstep)
    exact absurd hsettled.removed (by decide +kernel)

end Example

end NodeTable

end P2P
end XChain
