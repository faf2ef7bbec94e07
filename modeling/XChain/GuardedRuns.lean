import Mathlib.Data.List.Basic

/-!
# Runs under a guard

A list of operations is run from a state. An invariant that the operations keep where they
meet a guard holds in every state of a run whose operations all meet the guard.
-/
namespace XChain

section GuardedRuns

variable {State Op : Type*} (step : State → Op → State) (guard : State → Op → Prop)

/-- The state after the operations. -/
def runFrom (s : State) (ops : List Op) : State := ops.foldl step s

/-- Every operation meets the guard in the state that it finds. -/
def Guarded : State → List Op → Prop
  | _, [] => True
  | s, op :: ops => guard s op ∧ Guarded (step s op) ops

instance decidableGuarded [∀ s op, Decidable (guard s op)] :
    ∀ s ops, Decidable (Guarded step guard s ops)
  | _, [] => inferInstanceAs (Decidable True)
  | s, op :: ops =>
    haveI := decidableGuarded (step s op) ops
    inferInstanceAs (Decidable (guard s op ∧ Guarded step guard (step s op) ops))

variable {step guard} {I : State → Prop} {s : State} {ops pre post : List Op} {op : Op}

@[simp] theorem runFrom_nil : runFrom step s [] = s := rfl

@[simp] theorem runFrom_append :
    runFrom step s (pre ++ post) = runFrom step (runFrom step s pre) post :=
  List.foldl_append

@[simp] theorem runFrom_singleton : runFrom step s [op] = step s op := rfl

theorem guarded_append : Guarded step guard s (pre ++ post) ↔
    Guarded step guard s pre ∧ Guarded step guard (runFrom step s pre) post := by
  induction pre generalizing s with
  | nil => exact (and_iff_right trivial).symm
  | cons op pre ih =>
    rw [List.cons_append, Guarded, Guarded, ih, and_assoc]
    rfl

theorem Guarded.invariant (h : Guarded step guard s ops)
    (hstep : ∀ s op, I s → guard s op → I (step s op)) (hs : I s) : I (runFrom step s ops) := by
  induction ops generalizing s with
  | nil => exact hs
  | cons op ops ih => exact ih h.2 (hstep s op hs h.1)

/-- What holds where an operation of the run stands. -/
theorem Guarded.here (h : Guarded step guard s (pre ++ op :: post))
    (hstep : ∀ s op, I s → guard s op → I (step s op)) (hs : I s) :
    I (runFrom step s pre) ∧ guard (runFrom step s pre) op := by
  obtain ⟨hpre, hpost⟩ := guarded_append.mp h
  exact ⟨hpre.invariant hstep hs, hpost.1⟩

/-- Where a guard is just what a step needs to keep the invariant, the runs whose operations all
meet it are those in which it holds in every state. -/
theorem guarded_iff_of_guarded {P : State → Op → Prop}
    (hstep : ∀ s op, P s op → I s → (I (step s op) ↔ guard s op)) (hops : Guarded step P s ops)
    (hs : I s) :
    (∀ pre post, ops = pre ++ post → I (runFrom step s pre)) ↔ Guarded step guard s ops := by
  induction ops generalizing s with
  | nil =>
    refine ⟨fun _ => trivial, fun _ pre post h => ?_⟩
    obtain ⟨rfl, -⟩ := List.append_eq_nil_iff.mp h.symm
    exact hs
  | cons op ops ih =>
    obtain ⟨hop, hrest⟩ := hops
    constructor
    · intro hall
      have hnext : I (step s op) := hall [op] ops rfl
      refine ⟨(hstep s op hop hs).mp hnext, (ih hrest hnext).mp fun pre post h => ?_⟩
      exact hall (op :: pre) post (by rw [h, List.cons_append])
    · rintro ⟨hguard, hguarded⟩ pre post h
      cases pre with
      | nil => exact hs
      | cons op' pre =>
        obtain ⟨rfl, hops'⟩ := List.cons.inj h
        exact (ih hrest ((hstep s op hop hs).mpr hguard)).mpr hguarded pre post hops'

theorem guarded_of_forall {Q : Op → Prop} (hops : ∀ op ∈ ops, Q op) :
    Guarded step (fun _ op => Q op) s ops := by
  induction ops generalizing s with
  | nil => trivial
  | cons op ops ih =>
    obtain ⟨hop, hrest⟩ := List.forall_mem_cons.mp hops
    exact ⟨hop, ih hrest⟩

theorem guarded_iff {Q : Op → Prop}
    (hstep : ∀ s op, Q op → I s → (I (step s op) ↔ guard s op)) (hops : ∀ op ∈ ops, Q op)
    (hs : I s) :
    (∀ pre post, ops = pre ++ post → I (runFrom step s pre)) ↔ Guarded step guard s ops :=
  guarded_iff_of_guarded hstep (guarded_of_forall hops) hs

end GuardedRuns

end XChain
