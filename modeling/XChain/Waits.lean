import XChain.GuardedRuns
import Mathlib.Algebra.Ring.Nat

/-!
# Runs of threads

A run is a list of steps, each taken by some thread. What the steps put out is collected; if
each step conserves what goes in and comes out, so does the run. A thread waits while others
take their steps: if every step of a helper lowers a rank, and no other step raises it, the
wait sees no more steps of the helper than the rank says.
-/
namespace XChain

section Waits

variable {State Op : Type*} {step : State → Op → State} {guard : State → Op → Prop}

/-- What holds in every state of a run, the first and the last one included. -/
def Throughout (step : State → Op → State) (W : State → Prop) (s : State) (ops : List Op) : Prop :=
  ∀ pre post, ops = pre ++ post → W (runFrom step s pre)

/-- The steps keep `I`; while `W` lasts a step of a helper lowers the rank, and none raises it. -/
structure Served (step : State → Op → State) (guard : State → Op → Prop) (I W : State → Prop)
    (helps : Op → Bool) (rank : State → ℕ) : Prop where
  keeps : ∀ s op, I s → guard s op → I (step s op)
  falls : ∀ s op, I s → W s → guard s op → W (step s op) →
    rank (step s op) + (helps op).toNat ≤ rank s

/-- A state is reachable if a run whose steps are all possible leads to it. -/
def ReachableFrom (step : State → Op → State) (guard : State → Op → Prop) (s s' : State) : Prop :=
  ∃ ops, Guarded step guard s ops ∧ runFrom step s ops = s'

/-- What the steps of a run put out, in this order. -/
def outputs {β : Type*} (step : State → Op → State) (out : State → Op → List β) :
    State → List Op → List β
  | _, [] => []
  | s, op :: ops => out s op ++ outputs step out (step s op) ops

/-- What there is at first and goes in is what comes out and is left at the end. -/
theorem outputs_conserved {β : Type*} {I : State → Prop} {content : State → List β}
    {ins outs : State → Op → List β} {s : State} {ops : List Op}
    (hkeeps : ∀ s op, I s → guard s op → I (step s op))
    (hstep : ∀ s op, I s → guard s op → content s ++ ins s op = outs s op ++ content (step s op))
    (hs : I s) (hops : Guarded step guard s ops) :
    content s ++ outputs step ins s ops =
      outputs step outs s ops ++ content (runFrom step s ops) := by
  induction ops generalizing s with
  | nil => exact List.append_nil _
  | cons op ops ih =>
    obtain ⟨hop, hrest⟩ := hops
    have hlater := ih (hkeeps s op hs hop) hrest
    calc content s ++ (ins s op ++ outputs step ins (step s op) ops)
        = outs s op ++ (content (step s op) ++ outputs step ins (step s op) ops) := by
          rw [← List.append_assoc, hstep s op hs hop, List.append_assoc]
      _ = outs s op ++ outputs step outs (step s op) ops ++
            content (runFrom step (step s op) ops) := by
          rw [hlater, List.append_assoc]

variable {I W : State → Prop} {helps : Op → Bool} {rank : State → ℕ} {s s' : State} {op : Op}
  {ops pre post : List Op}

/-- Where each step pays for what it puts out from a credit that only some operations renew, a
run puts out no more than its credit and what renews it. -/
theorem outputs_sum_le {β : Type*} {out : State → Op → List β} {price : β → ℕ}
    {credit : State → ℕ} {grant : Op → ℕ} (hkeeps : ∀ s op, I s → guard s op → I (step s op))
    (hpays : ∀ s op, I s → guard s op →
      ((out s op).map price).sum + credit (step s op) ≤ credit s + grant op)
    (hs : I s) (hops : Guarded step guard s ops) :
    ((outputs step out s ops).map price).sum + credit (runFrom step s ops) ≤
      credit s + (ops.map grant).sum := by
  induction ops generalizing s with
  | nil => exact Nat.le_of_eq (Nat.zero_add _)
  | cons op ops ih =>
    obtain ⟨hop, hrest⟩ := hops
    have hlater := ih (hkeeps s op hs hop) hrest
    have hnow := hpays s op hs hop
    rw [outputs, List.map_append, List.sum_append, List.map_cons, List.sum_cons]
    change _ + credit (runFrom step (step s op) ops) ≤ _
    omega

/-- What is due stays due until it is put out. -/
theorem due_or_mem_outputs {β : Type*} {out : State → Op → List β} {Q : β → Prop}
    (hkeeps : ∀ s op, I s → guard s op → I (step s op))
    (hdue : ∀ s op, I s → guard s op → W s → W (step s op) ∨ ∃ b ∈ out s op, Q b)
    (hs : I s) (hops : Guarded step guard s ops) (hW : W s) :
    W (runFrom step s ops) ∨ ∃ b ∈ outputs step out s ops, Q b := by
  induction ops generalizing s with
  | nil => exact Or.inl hW
  | cons op ops ih =>
    obtain ⟨hop, hrest⟩ := hops
    rcases hdue s op hs hop hW with hW' | ⟨b, hb, hQ⟩
    · rcases ih (hkeeps s op hs hop) hrest hW' with hend | ⟨b, hb, hQ⟩
      · exact Or.inl hend
      · exact Or.inr ⟨b, List.mem_append_right _ hb, hQ⟩
    · exact Or.inr ⟨b, List.mem_append_left _ hb, hQ⟩

theorem throughout_nil : Throughout step W s [] ↔ W s := by
  refine ⟨fun h => h [] [] rfl, fun h pre post hops => ?_⟩
  obtain ⟨rfl, -⟩ := List.append_eq_nil_iff.mp hops.symm
  exact h

theorem throughout_cons :
    Throughout step W s (op :: ops) ↔ W s ∧ Throughout step W (step s op) ops := by
  constructor
  · intro h
    refine ⟨h [] (op :: ops) rfl, fun pre post hops => ?_⟩
    exact h (op :: pre) post (by rw [hops, List.cons_append])
  · rintro ⟨hs, h⟩ pre post hops
    cases pre with
    | nil => exact hs
    | cons op' pre =>
      obtain ⟨rfl, hops'⟩ := List.cons.inj hops
      exact h pre post hops'

theorem Throughout.head (h : Throughout step W s ops) : W s := h [] ops rfl

theorem Served.countP_add_rank_le (h : Served step guard I W helps rank) (hs : I s)
    (hops : Guarded step guard s ops) (hwait : Throughout step W s ops) :
    ops.countP helps + rank (runFrom step s ops) ≤ rank s := by
  induction ops generalizing s with
  | nil => exact Nat.le_of_eq (Nat.zero_add _)
  | cons op ops ih =>
    obtain ⟨hop, hrest⟩ := hops
    obtain ⟨hfirst, hwait⟩ := throughout_cons.mp hwait
    have hlater := ih (h.keeps s op hs hop) hrest hwait
    have hnow := h.falls s op hs hfirst hop hwait.head
    have hcount : (op :: ops).countP helps = ops.countP helps + (helps op).toNat := by
      rw [List.countP_cons]
      cases helps op <;> rfl
    change (op :: ops).countP helps + rank (runFrom step (step s op) ops) ≤ rank s
    omega

theorem ReachableFrom.refl : ReachableFrom step guard s s := ⟨[], trivial, rfl⟩

theorem ReachableFrom.run (h : ReachableFrom step guard s s') (hops : Guarded step guard s' ops) :
    ReachableFrom step guard s (runFrom step s' ops) := by
  obtain ⟨before, hbefore, rfl⟩ := h
  exact ⟨before ++ ops, guarded_append.mpr ⟨hbefore, hops⟩, runFrom_append⟩

theorem ReachableFrom.next (h : ReachableFrom step guard s s') (hop : guard s' op) :
    ReachableFrom step guard s (step s' op) :=
  have hops : Guarded step guard s' [op] := ⟨hop, trivial⟩
  h.run hops

theorem ReachableFrom.invariant (h : ReachableFrom step guard s s')
    (hstep : ∀ s op, I s → guard s op → I (step s op)) (hs : I s) : I s' := by
  obtain ⟨ops, hops, rfl⟩ := h
  exact hops.invariant hstep hs

end Waits

end XChain
