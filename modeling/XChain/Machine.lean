import Mathlib.Data.Nat.Notation
import Mathlib.Tactic.SplitIfs

/-!
# Machines with a state and exceptions

A machine makes steps that change its state; a step goes on, halts, or throws an
exception, and a throw keeps the changes made so far. `Runs` says what holds after
a program, for its results and its exceptions. An invariant of the steps holds in
every state reached, and a measure that falls with every step bounds a run.
-/
namespace XChain
namespace Machine

variable {ε σ α β : Type}

/-- The program ends as `Q` says, or throws as `E` says. -/
def Runs (m : EStateM ε σ α) (s : σ) (Q : α → σ → Prop) (E : ε → σ → Prop) : Prop :=
  match m.run s with
  | .ok a s' => Q a s'
  | .error e s' => E e s'

section Rules

variable {s : σ} {Q Q' : α → σ → Prop} {E E' : ε → σ → Prop}

theorem Runs.mono {m : EStateM ε σ α} (h : Runs m s Q E) (hQ : ∀ a s', Q a s' → Q' a s')
    (hE : ∀ e s', E e s' → E' e s') : Runs m s Q' E' := by
  unfold Runs at h ⊢
  cases hm : m.run s with
  | ok a s' =>
    rw [hm] at h
    exact hQ a s' h
  | error e s' =>
    rw [hm] at h
    exact hE e s' h

theorem Runs.ok {m : EStateM ε σ α} (h : Runs m s Q E) {a : α} {s' : σ} (hm : m s = .ok a s') :
    Q a s' := by
  unfold Runs at h
  rw [show m.run s = .ok a s' from hm] at h
  exact h

theorem Runs.error {m : EStateM ε σ α} (h : Runs m s Q E) {e : ε} {s' : σ}
    (hm : m s = .error e s') : E e s' := by
  unfold Runs at h
  rw [show m.run s = .error e s' from hm] at h
  exact h

theorem runs_of_ok {m : EStateM ε σ α} {a : α} {s' : σ} (hm : m s = .ok a s') (h : Q a s') :
    Runs m s Q E := by
  unfold Runs
  rw [show m.run s = .ok a s' from hm]
  exact h

theorem runs_of_error {m : EStateM ε σ α} {e : ε} {s' : σ} (hm : m s = .error e s') (h : E e s') :
    Runs m s Q E := by
  unfold Runs
  rw [show m.run s = .error e s' from hm]
  exact h

/-- A program that ends in no exception ends as `Q` says. -/
theorem Runs.exists_ok {m : EStateM ε σ α} (h : Runs m s Q fun _ _ => False) :
    ∃ a s', m s = .ok a s' ∧ Q a s' := by
  unfold Runs at h
  cases hm : m.run s with
  | ok a s' =>
    rw [hm] at h
    exact ⟨a, s', hm, h⟩
  | error e s' =>
    rw [hm] at h
    exact h.elim

theorem Runs.imp {m : EStateM ε σ α} (h : Runs m s Q E) (hQ : ∀ a s', Q a s' → Q' a s') :
    Runs m s Q' E := h.mono hQ fun _ _ he => he

theorem Runs.congr {m m' : EStateM ε σ α} (h : Runs m s Q E) (hm : m' s = m s) : Runs m' s Q E := by
  unfold Runs at h ⊢
  rwa [show m'.run s = m.run s from hm]

theorem bind_ok {m : EStateM ε σ α} {f : α → EStateM ε σ β} {a : α} {s' : σ}
    (h : m s = .ok a s') : (m >>= f) s = f a s' := by
  show EStateM.bind m f s = f a s'
  unfold EStateM.bind
  rw [h]

theorem bind_error {m : EStateM ε σ α} {f : α → EStateM ε σ β} {e : ε} {s' : σ}
    (h : m s = .error e s') : (m >>= f) s = .error e s' := by
  show EStateM.bind m f s = .error e s'
  unfold EStateM.bind
  rw [h]

theorem get_bind (f : σ → EStateM ε σ β) : ((get : EStateM ε σ σ) >>= f) s = f s s := rfl

theorem modify_bind (g : σ → σ) (f : PUnit → EStateM ε σ β) :
    ((modify g : EStateM ε σ PUnit) >>= f) s = f ⟨⟩ (g s) := rfl

theorem bind_congr {m m' : EStateM ε σ α} {f : α → EStateM ε σ β} (h : m s = m' s) :
    (m >>= f) s = (m' >>= f) s := by
  cases h' : m' s with
  | ok a t => rw [bind_ok h', bind_ok (h.trans h')]
  | error e t => rw [bind_error h', bind_error (h.trans h')]

theorem runs_pure {a : α} (h : Q a s) : Runs (pure a) s Q E := h

theorem runs_bind {m : EStateM ε σ α} {f : α → EStateM ε σ β} {Q : β → σ → Prop}
    (h : Runs m s (fun a s' => Runs (f a) s' Q E) E) : Runs (m >>= f) s Q E := by
  unfold Runs at h
  change (match (EStateM.bind m f) s with
    | .ok a s' => Q a s'
    | .error e s' => E e s')
  change (match m s with
    | .ok a s' => Runs (f a) s' Q E
    | .error e s' => E e s') at h
  unfold EStateM.bind
  cases hm : m s with
  | ok a s' =>
    rw [hm] at h
    exact h
  | error e s' =>
    rw [hm] at h
    exact h

theorem runs_get {Q : σ → σ → Prop} (h : Q s s) : Runs (get : EStateM ε σ σ) s Q E := h

theorem runs_set {t : σ} {Q : PUnit → σ → Prop} (h : Q ⟨⟩ t) :
    Runs (set t : EStateM ε σ PUnit) s Q E := h

theorem runs_modify {f : σ → σ} {Q : PUnit → σ → Prop} (h : Q ⟨⟩ (f s)) :
    Runs (modify f : EStateM ε σ PUnit) s Q E := h

theorem runs_throw {e : ε} (h : E e s) : Runs (throw e : EStateM ε σ α) s Q E := h

theorem runs_tryCatch {m : EStateM ε σ α} {f : ε → EStateM ε σ α}
    (h : Runs m s Q fun e s' => Runs (f e) s' Q E) : Runs (tryCatch m f) s Q E := by
  unfold Runs at h
  change (match (EStateM.tryCatch m f) s with
    | .ok a s' => Q a s'
    | .error e s' => E e s')
  change (match m s with
    | .ok a s' => Q a s'
    | .error e s' => Runs (f e) s' Q E) at h
  unfold EStateM.tryCatch
  cases hm : m s with
  | ok a s' =>
    rw [hm] at h
    exact h
  | error e s' =>
    rw [hm] at h
    exact h

theorem runs_ite {p : Prop} [Decidable p] {m m' : EStateM ε σ α} (h : p → Runs m s Q E)
    (h' : ¬ p → Runs m' s Q E) : Runs (if p then m else m') s Q E := by
  split_ifs with hp
  · exact h hp
  · exact h' hp

end Rules

section Steps

variable (step : EStateM ε σ Bool)

/-- Steps until one does not go on; nothing when the fuel runs out before. -/
def runFor : ℕ → σ → Option (EStateM.Result ε σ Unit)
  | 0, _ => none
  | fuel + 1, s =>
    match step s with
    | .ok true s' => runFor fuel s'
    | .ok false s' => some (.ok () s')
    | .error e s' => some (.error e s')

/-- The states between the steps of a run. -/
inductive Reaches (s₀ : σ) : σ → Prop where
  | start : Reaches s₀ s₀
  | next {s s' : σ} (h : Reaches s₀ s) (hstep : step s = .ok true s') : Reaches s₀ s'

variable {step} {I : σ → Prop} {E : σ → ε → σ → Prop}

theorem Reaches.invariant (hstep : ∀ s, I s → Runs step s (fun b s' => b = true → I s') (E s))
    {s₀ s : σ} (h : Reaches step s₀ s) (h₀ : I s₀) : I s := by
  induction h with
  | start => exact h₀
  | @next s s' _ hs ih => exact (hstep s ih).ok hs rfl

/-- A run ends with a step from a state that it reaches. -/
theorem runFor_end {s₀ s : σ} {fuel : ℕ} {r : EStateM.Result ε σ Unit} (h : Reaches step s₀ s)
    (hrun : runFor step fuel s = some r) : ∃ s', Reaches step s₀ s' ∧
      ((∃ t, step s' = .ok false t ∧ r = .ok () t) ∨ ∃ e t, step s' = .error e t ∧ r = .error e t) := by
  induction fuel generalizing s with
  | zero => cases hrun
  | succ fuel ih =>
    rw [runFor] at hrun
    cases hr : step s with
    | ok b s' =>
      rw [hr] at hrun
      cases b with
      | true => exact ih (h.next hr) hrun
      | false => exact ⟨s, h, Or.inl ⟨s', hr, (Option.some.inj hrun).symm⟩⟩
    | error e s' =>
      rw [hr] at hrun
      exact ⟨s, h, Or.inr ⟨e, s', hr, (Option.some.inj hrun).symm⟩⟩

theorem runFor_terminates (μ : σ → ℕ)
    (hstep : ∀ s, I s → Runs step s (fun b s' => b = true → I s' ∧ μ s' < μ s) (E s)) {s : σ}
    (hs : I s) {fuel : ℕ} (hfuel : μ s < fuel) : ∃ r, runFor step fuel s = some r := by
  induction fuel generalizing s with
  | zero => omega
  | succ fuel ih =>
    rw [runFor]
    cases hr : step s with
    | ok b s' =>
      cases b with
      | true =>
        obtain ⟨hI, hlt⟩ := (hstep s hs).ok hr rfl
        exact ih hI (by omega)
      | false => exact ⟨_, rfl⟩
    | error e s' => exact ⟨_, rfl⟩

end Steps

section Commuting

/-- A result with another state in the place of its own. -/
def mapState (φ : σ → σ) : EStateM.Result ε σ α → EStateM.Result ε σ α
  | .ok a s => .ok a (φ s)
  | .error e s => .error e (φ s)

theorem mapState_id (r : EStateM.Result ε σ α) : mapState id r = r := by
  cases r <;> rfl

/-- The program does the same from a changed state, and keeps the change. -/
def Commutes (φ : σ → σ) (m : EStateM ε σ α) : Prop := ∀ s, m (φ s) = mapState φ (m s)

variable {φ : σ → σ}

theorem commutes_pure (a : α) : Commutes φ (pure a : EStateM ε σ α) := fun _ => rfl

theorem commutes_throw (e : ε) : Commutes φ (throw e : EStateM ε σ α) := fun _ => rfl

theorem Commutes.bind {m : EStateM ε σ α} {f : α → EStateM ε σ β} (hm : Commutes φ m)
    (hf : ∀ a, Commutes φ (f a)) : Commutes φ (m >>= f) := by
  intro s
  show EStateM.bind m f (φ s) = mapState φ (EStateM.bind m f s)
  unfold EStateM.bind
  rw [hm s]
  cases m s with
  | ok a s' => exact hf a s'
  | error e s' => rfl

theorem commutes_get {f : σ → EStateM ε σ β} (hf : ∀ s, f (φ s) = f s)
    (hc : ∀ s, Commutes φ (f s)) : Commutes φ (get >>= f) := by
  intro s
  show f (φ s) (φ s) = mapState φ (f s s)
  rw [hf s]
  exact hc s s

theorem commutes_modify {g : σ → σ} (hg : ∀ s, g (φ s) = φ (g s)) :
    Commutes φ (modify g : EStateM ε σ PUnit) := by
  intro s
  show EStateM.Result.ok PUnit.unit (g (φ s)) = .ok PUnit.unit (φ (g s))
  rw [hg s]

theorem commutes_ite {p : Prop} [Decidable p] {m m' : EStateM ε σ α} (hm : Commutes φ m)
    (hm' : Commutes φ m') : Commutes φ (if p then m else m') := by
  split_ifs
  · exact hm
  · exact hm'

end Commuting

section Comparing

variable {ω ν : Type} (see : σ → ω) (out : EStateM.Result ε σ Unit → ν)

/-- What a run shows: what is seen of the states at its steps, and of its result. -/
def trace (step : EStateM ε σ Bool) : ℕ → σ → List ω × Option ν
  | 0, _ => ([], none)
  | fuel + 1, s =>
    match step s with
    | .ok true s' => (see s :: (trace step fuel s').1, (trace step fuel s').2)
    | .ok false s' => ([see s], some (out (.ok () s')))
    | .error e s' => ([see s], some (out (.error e s')))

theorem trace_snd (step : EStateM ε σ Bool) (fuel : ℕ) (s : σ) :
    (trace see out step fuel s).2 = (runFor step fuel s).map out := by
  induction fuel generalizing s with
  | zero => rfl
  | succ fuel ih =>
    unfold trace runFor
    cases step s with
    | ok b s' =>
      cases b with
      | true => exact ih s'
      | false => rfl
    | error e s' => rfl

theorem trace_head (step : EStateM ε σ Bool) (fuel : ℕ) (s : σ) :
    (trace see out step (fuel + 1) s).1.head? = some (see s) := by
  unfold trace
  cases step s with
  | ok b s' => cases b <;> rfl
  | error e s' => rfl

/-- Two machines that go on to states that look different. -/
theorem trace_ne_of_next {step step' : EStateM ε σ Bool} {s s' t t' : σ}
    (h : step s = .ok true t) (h' : step' s' = .ok true t') (hne : see t' ≠ see t) :
    trace see out step' 2 s' ≠ trace see out step 2 s := by
  intro heq
  unfold trace at heq
  rw [h, h'] at heq
  have hlist := congrArg List.head? (List.cons.inj (congrArg Prod.fst heq)).2
  rw [trace_head, trace_head] at hlist
  exact hne (Option.some.inj hlist)

/-- Two machines that throw, with results that look different. -/
theorem trace_ne_of_error {step step' : EStateM ε σ Bool} {s s' t t' : σ} {e e' : ε}
    (h : step s = .error e t) (h' : step' s' = .error e' t')
    (hne : out (.error e' t') ≠ out (.error e t)) :
    trace see out step' 1 s' ≠ trace see out step 1 s := by
  intro heq
  unfold trace at heq
  rw [h, h'] at heq
  exact hne (Option.some.inj (congrArg Prod.snd heq))

/-- The results of two steps correspond: both go on, from states that correspond, or both
end, and show the same. -/
def Matches (out : EStateM.Result ε σ Unit → ν) (φ : σ → σ) :
    EStateM.Result ε σ Bool → EStateM.Result ε σ Bool → Prop
  | .ok true t', .ok true t => t' = φ t
  | .ok false t', .ok false t => out (.ok () t') = out (.ok () t)
  | .error e' t', .error e t => out (.error e' t') = out (.error e t)
  | _, _ => False

theorem matches_mapState {φ : σ → σ} (hout : ∀ r, out (mapState φ r) = out r)
    (r : EStateM.Result ε σ Bool) : Matches out φ (mapState φ r) r := by
  cases r with
  | ok b t =>
    cases b with
    | true => rfl
    | false => exact hout (.ok () t)
  | error e t => exact hout (.error e t)

theorem matches_go {φ : σ → σ} {r : EStateM.Result ε σ Bool} {t : σ}
    (h : Matches out φ r (.ok true t)) : r = .ok true (φ t) := by
  cases r with
  | ok b t' =>
    cases b with
    | true => rw [show t' = φ t from h]
    | false => exact h.elim
  | error e t' => exact h.elim

theorem trace_of_matches {step step' : EStateM ε σ Bool} {φ : σ → σ} {s : σ} {fuel : ℕ}
    (hsee : see (φ s) = see s) (h : Matches out φ (step' (φ s)) (step s))
    (hrest : ∀ t, step s = .ok true t → trace see out step' fuel (φ t) = trace see out step fuel t) :
    trace see out step' (fuel + 1) (φ s) = trace see out step (fuel + 1) s := by
  unfold trace
  rw [hsee]
  cases hstep : step s with
  | ok b t =>
    rw [hstep] at h
    cases b with
    | true =>
      rw [matches_go out h]
      show (see s :: (trace see out step' fuel (φ t)).1, _) = _
      rw [hrest t hstep]
    | false =>
      cases hstep' : step' (φ s) with
      | ok b' t' =>
        rw [hstep'] at h
        cases b' with
        | true => exact h.elim
        | false => exact congrArg (fun v => ([see s], some v)) h
      | error e t' =>
        rw [hstep'] at h
        exact h.elim
  | error e t =>
    rw [hstep] at h
    cases hstep' : step' (φ s) with
    | ok b' t' =>
      rw [hstep'] at h
      cases b' <;> exact h.elim
    | error e' t' =>
      rw [hstep'] at h
      exact congrArg (fun v => ([see s], some v)) h

/-- Two machines show the same from states that correspond exactly when every state that the
first one reaches is one where their steps correspond, provided that elsewhere something is
to be seen. -/
theorem trace_eq_iff {step step' : EStateM ε σ Bool} {φ : σ → σ} {s₀ : σ} {M : σ → Prop}
    (hsee : ∀ s, see (φ s) = see s)
    (hM : ∀ s, Reaches step s₀ s → M s → Matches out φ (step' (φ s)) (step s))
    (hN : ∀ s, Reaches step s₀ s → ¬ M s →
      ∃ fuel, trace see out step' fuel (φ s) ≠ trace see out step fuel s) :
    (∀ fuel, trace see out step' fuel (φ s₀) = trace see out step fuel s₀) ↔
      ∀ s, Reaches step s₀ s → M s := by
  constructor
  · intro h
    have hms : ∀ s, Reaches step s₀ s →
        (∀ fuel, trace see out step' fuel (φ s) = trace see out step fuel s) → M s := by
      intro s hs hall
      refine Classical.byContradiction fun hcon => ?_
      obtain ⟨fuel, hne⟩ := hN s hs hcon
      exact hne (hall fuel)
    have hall : ∀ s, Reaches step s₀ s →
        ∀ fuel, trace see out step' fuel (φ s) = trace see out step fuel s := by
      intro s hs
      induction hs with
      | start => exact h
      | @next s s' hs hstep ih =>
        intro fuel
        have hgo := hM s hs (hms s hs ih)
        rw [hstep] at hgo
        have hnext := ih (fuel + 1)
        unfold trace at hnext
        rw [matches_go out hgo, hstep] at hnext
        obtain ⟨hlist, hres⟩ := Prod.mk.inj hnext
        exact Prod.ext (List.cons.inj hlist).2 hres
    exact fun s hs => hms s hs (hall s hs)
  · intro h fuel
    have hall : ∀ fuel s, Reaches step s₀ s →
        trace see out step' fuel (φ s) = trace see out step fuel s := by
      intro fuel
      induction fuel with
      | zero =>
        intro s _
        rfl
      | succ fuel ih =>
        intro s hs
        exact trace_of_matches see out (hsee s) (hM s hs (h s hs)) fun t ht => ih t (hs.next ht)
    exact hall fuel s₀ .start

end Comparing

end Machine
end XChain
