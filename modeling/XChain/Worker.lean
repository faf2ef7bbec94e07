import XChain.Mutex
import XChain.Waits
import Mathlib.Tactic.Cases

/-!
# A worker and its owners

A worker is a thread that other threads, its owners, start, stop and terminate. The owners
exclude each other by a lock which they hold for a whole call, also while they wait for the
thread; the thread itself never takes the lock, and all it shares with them is the state.
-/
namespace XChain

inductive WorkerState where
  | Starting
  | Started
  | Stopping
  | Stopped
  | Killing
  deriving DecidableEq, Repr

/-- The desired state in place of the expected one; any other state stays. -/
def WorkerState.compareExchange (m_state ex desired : WorkerState) : WorkerState :=
  if m_state = ex then desired else m_state

/-- Where the thread is in its function, named after what it does next. -/
inductive ThreadAt where
  | testKilling
  | exchangeStarted
  | startedWorking
  | testStarted
  | doWork
  | doneWorking
  | exchangeStopped
  | exchangeBack (ex : WorkerState)
  | testStopped
  | ended
  deriving DecidableEq, Repr

inductive WorkerCall where
  | startWorking
  | stopWorking
  | isWorking
  | terminate
  deriving DecidableEq, Repr

/-- Where an owner is: in no call, before the lock, or behind it. -/
inductive OwnerAt where
  | out
  | lock (call : WorkerCall)
  | testWork (call : WorkerCall)
  | exchangeStarting
  | setStarting
  | newThread
  | whileStarting
  | exchangeStopping
  | whileNotStopped
  | exchangeKilling
  | join
  | reset
  deriving DecidableEq, Repr

/-- An owner that is called may go on, but before the lock only if that is free. -/
def OwnerAt.mayGo (free : Bool) : OwnerAt → Bool
  | .out => false
  | .lock _ => free
  | _ => true

/-- The worker, its thread if there is one, and where all its owners are. -/
structure Worker (Owner : Type) where
  m_state : WorkerState := .Starting
  m_work : Option ThreadAt := none
  x_work : Option Owner := none
  owners : Owner → OwnerAt := fun _ => .out

/-- One step of the thread's function. What the worker runs in it may throw, and the
exception ends it. -/
def ThreadAt.next (throws : Bool) (m_state : WorkerState) : ThreadAt → WorkerState × ThreadAt
  | .testKilling => (m_state, if m_state ≠ .Killing then .exchangeStarted else .ended)
  | .exchangeStarted => (m_state.compareExchange .Starting .Started, .startedWorking)
  | .startedWorking => (m_state, if throws then .exchangeStopped else .testStarted)
  | .testStarted => (m_state, if m_state = .Started then .doWork else .doneWorking)
  | .doWork => (m_state, if throws then .exchangeStopped else .testStarted)
  | .doneWorking => (m_state, .exchangeStopped)
  | .exchangeStopped =>
    (.Stopped, if m_state = .Killing ∨ m_state = .Starting then .exchangeBack m_state
      else .testStopped)
  | .exchangeBack ex => (ex, .testStopped)
  | .testStopped => (m_state, if m_state = .Stopped then .testStopped else .testKilling)
  | .ended => (m_state, .ended)

namespace Worker

variable {Owner : Type} [DecidableEq Owner] (w : Worker Owner) (o : Owner)

def moveTo (place : OwnerAt) : Worker Owner :=
  { w with owners := Function.update w.owners o place }

/-- The call returns, and with it the owner gives the lock back. -/
def leave : Worker Owner := { w.moveTo o .out with x_work := none }

/-- What a call of `isWorking` reads when it has the lock. -/
def isWorking : Bool := w.m_state = .Started

/-- One step of an owner. The waiting loops go on as long as their tests say. -/
def ownerStep : Worker Owner :=
  match w.owners o with
  | .out => w
  | .lock call => { w.moveTo o (.testWork call) with x_work := some o }
  | .testWork .startWorking =>
    w.moveTo o (if w.m_work.isSome then .exchangeStarting else .setStarting)
  | .testWork .stopWorking => if w.m_work.isSome then w.moveTo o .exchangeStopping else w.leave o
  | .testWork .isWorking => w.leave o
  | .testWork .terminate => if w.m_work.isSome then w.moveTo o .exchangeKilling else w.leave o
  | .exchangeStarting =>
    { w.moveTo o .whileStarting with m_state := w.m_state.compareExchange .Stopped .Starting }
  | .setStarting => { w.moveTo o .newThread with m_state := .Starting }
  | .newThread => { w.moveTo o .whileStarting with m_work := some .testKilling }
  | .whileStarting => if w.m_state = .Starting then w else w.leave o
  | .exchangeStopping =>
    { w.moveTo o .whileNotStopped with m_state := w.m_state.compareExchange .Started .Stopping }
  | .whileNotStopped => if w.m_state ≠ .Stopped then w else w.leave o
  | .exchangeKilling => { w.moveTo o .join with m_state := .Killing }
  | .join => if w.m_work = some .ended then w.moveTo o .reset else w
  | .reset => { w.leave o with m_work := none }

/-- An owner makes a call or goes on in it, or the thread goes on, with an exception or none. -/
inductive Act (Owner : Type) where
  | call (o : Owner) (call : WorkerCall)
  | owner (o : Owner)
  | thread (throws : Bool)
  deriving DecidableEq, Repr

def step (w : Worker Owner) : Act Owner → Worker Owner
  | .call o call => w.moveTo o (.lock call)
  | .owner o => w.ownerStep o
  | .thread throws =>
    match w.m_work with
    | none => w
    | some t => { w with m_state := (t.next throws w.m_state).1,
                         m_work := some (t.next throws w.m_state).2 }

/-- Only a thread that is there and has not ended goes on, and nobody passes a lock that
another one holds. -/
def Enabled (w : Worker Owner) : Act Owner → Prop
  | .call o _ => w.owners o = .out
  | .owner o => (w.owners o).mayGo w.x_work.isNone = true
  | .thread _ => w.m_work.any (· ≠ .ended) = true

instance (w : Worker Owner) (a : Act Owner) : Decidable (Enabled w a) :=
  match a with
  | .call o _ => inferInstanceAs (Decidable (w.owners o = .out))
  | .owner _ | .thread _ => inferInstanceAs (Decidable (_ = true))

/-- The worker comes about in some run from its construction. -/
def Reachable (w : Worker Owner) : Prop := ReachableFrom step Enabled {} w

variable {w o} in
omit [DecidableEq Owner] in
theorem Enabled.ne_out (h : Enabled w (.owner o)) : w.owners o ≠ .out := by
  intro ho
  rw [Enabled, ho] at h
  cases h

variable {w o} in
omit [DecidableEq Owner] in
theorem Enabled.lock {call : WorkerCall} (h : Enabled w (.owner o)) (ho : w.owners o = .lock call) :
    w.x_work = none := by
  rw [Enabled, ho] at h
  exact Option.isNone_iff_eq_none.mp h

variable {w} in
omit [DecidableEq Owner] in
theorem enabled_thread {throws : Bool} :
    Enabled w (.thread throws) ↔ ∃ t, w.m_work = some t ∧ t ≠ .ended := by
  show w.m_work.any _ = true ↔ _
  cases w.m_work with
  | none => exact iff_of_false nofun nofun
  | some t => exact ⟨fun h => ⟨t, rfl, of_decide_eq_true h⟩,
      fun ⟨t', ht', h⟩ => decide_eq_true (Option.some.inj ht' ▸ h)⟩

@[simp] theorem moveTo_owners_self (place : OwnerAt) : (w.moveTo o place).owners o = place :=
  Function.update_self ..

theorem moveTo_owners_of_ne (place : OwnerAt) {o o' : Owner} (h : o' ≠ o) :
    (w.moveTo o place).owners o' = w.owners o' :=
  Function.update_of_ne h ..

@[simp] theorem moveTo_m_state (place : OwnerAt) : (w.moveTo o place).m_state = w.m_state := rfl

@[simp] theorem moveTo_m_work (place : OwnerAt) : (w.moveTo o place).m_work = w.m_work := rfl

@[simp] theorem moveTo_x_work (place : OwnerAt) : (w.moveTo o place).x_work = w.x_work := rfl

@[simp] theorem leave_owners : (w.leave o).owners = Function.update w.owners o .out := rfl

@[simp] theorem leave_m_state : (w.leave o).m_state = w.m_state := rfl

@[simp] theorem leave_m_work : (w.leave o).m_work = w.m_work := rfl

@[simp] theorem leave_x_work : (w.leave o).x_work = none := rfl

end Worker

/-- Behind the lock. -/
def OwnerAt.Inside : OwnerAt → Prop
  | .out | .lock _ => False
  | _ => True

/-- The thread runs the worker's code or is about to, or has just come to its end. -/
def ThreadAt.Working : ThreadAt → Prop
  | .startedWorking | .testStarted | .doWork | .doneWorking | .exchangeStopped => True
  | _ => False

/-- The thread works as it should, or has stopped. -/
def Settled (m_state : WorkerState) (t : ThreadAt) : Prop :=
  (m_state = .Started ∧ t.Working) ∨ (m_state = .Stopped ∧ t = .testStopped)

/-- The thread is told to start and has not done it. -/
def Starts (m_state : WorkerState) (t : ThreadAt) : Prop :=
  m_state = .Starting ∧ (t = .testStopped ∨ t = .testKilling ∨ t = .exchangeStarted)

/-- The thread is told to stop and has not done it, or it has. -/
def Stops (m_state : WorkerState) (t : ThreadAt) : Prop :=
  (m_state = .Stopping ∧ t.Working) ∨ (m_state = .Stopped ∧ t = .testStopped)

/-- The thread is told to end. Once it has replaced what it was told it puts it back. -/
def Ends (m_state : WorkerState) (t : ThreadAt) : Prop :=
  (m_state = .Killing ∧ (t.Working ∨ t = .testStopped ∨ t = .testKilling ∨ t = .ended)) ∨
    (m_state = .Stopped ∧ t = .exchangeBack .Killing)

/-- What the state and the thread are like, from where the one is who has the lock. -/
def Fits (m_state : WorkerState) (m_work : Option ThreadAt) : OwnerAt → Prop
  | .out | .lock _ | .testWork _ => ∀ t, m_work = some t → Settled m_state t
  | .exchangeStarting | .exchangeStopping | .exchangeKilling =>
    ∃ t, m_work = some t ∧ Settled m_state t
  | .setStarting => m_work = none
  | .newThread => m_work = none ∧ m_state = .Starting
  | .whileStarting => ∃ t, m_work = some t ∧ (Settled m_state t ∨ Starts m_state t)
  | .whileNotStopped => ∃ t, m_work = some t ∧ Stops m_state t
  | .join => ∃ t, m_work = some t ∧ Ends m_state t
  | .reset => m_work = some .ended ∧ m_state = .Killing

section Thread

variable {m_state : WorkerState} {t : ThreadAt} (throws : Bool)

theorem Settled.next (h : Settled m_state t) :
    Settled (t.next throws m_state).1 (t.next throws m_state).2 := by
  rcases h with ⟨rfl, h⟩ | ⟨rfl, rfl⟩
  · cases t <;> cases throws <;> simp_all [ThreadAt.Working, ThreadAt.next, Settled]
  · exact Or.inr ⟨rfl, rfl⟩

theorem Starts.next (h : Starts m_state t) : Settled (t.next throws m_state).1
    (t.next throws m_state).2 ∨ Starts (t.next throws m_state).1 (t.next throws m_state).2 := by
  obtain ⟨rfl, rfl | rfl | rfl⟩ := h
  · exact Or.inr ⟨rfl, Or.inr (Or.inl rfl)⟩
  · exact Or.inr ⟨rfl, Or.inr (Or.inr rfl)⟩
  · exact Or.inl (Or.inl ⟨rfl, trivial⟩)

theorem Stops.next (h : Stops m_state t) :
    Stops (t.next throws m_state).1 (t.next throws m_state).2 := by
  rcases h with ⟨rfl, h⟩ | ⟨rfl, rfl⟩
  · cases t <;> cases throws <;> simp_all [ThreadAt.Working, ThreadAt.next, Stops]
  · exact Or.inr ⟨rfl, rfl⟩

theorem Ends.next (h : Ends m_state t) :
    Ends (t.next throws m_state).1 (t.next throws m_state).2 := by
  rcases h with ⟨rfl, h | rfl | rfl | rfl⟩ | ⟨rfl, rfl⟩
  · cases t <;> cases throws <;> simp_all [ThreadAt.Working, ThreadAt.next, Ends]
  · exact Or.inl ⟨rfl, Or.inr (Or.inr (Or.inl rfl))⟩
  · exact Or.inl ⟨rfl, Or.inr (Or.inr (Or.inr rfl))⟩
  · exact Or.inl ⟨rfl, Or.inr (Or.inr (Or.inr rfl))⟩
  · exact Or.inl ⟨rfl, Or.inr (Or.inl rfl)⟩

/-- The thread keeps to what the owner that has the lock may rely on. -/
theorem Fits.next {place : OwnerAt} (h : Fits m_state (some t) place) (ht : t ≠ .ended) :
    Fits (t.next throws m_state).1 (some (t.next throws m_state).2) place := by
  cases place with
  | out | lock call | testWork call =>
    intro t' ht'
    cases ht'
    exact Settled.next throws (h t rfl)
  | exchangeStarting | exchangeStopping | exchangeKilling =>
    obtain ⟨t', ht', h⟩ := h
    cases ht'
    exact ⟨_, rfl, h.next throws⟩
  | setStarting => cases h
  | newThread => cases h.1
  | whileStarting =>
    obtain ⟨t', ht', h | h⟩ := h
    · cases ht'
      exact ⟨_, rfl, Or.inl (h.next throws)⟩
    · cases ht'
      exact ⟨_, rfl, h.next throws⟩
  | whileNotStopped =>
    obtain ⟨t', ht', h⟩ := h
    cases ht'
    exact ⟨_, rfl, h.next throws⟩
  | join =>
    obtain ⟨t', ht', h⟩ := h
    cases ht'
    exact ⟨_, rfl, h.next throws⟩
  | reset => exact absurd (Option.some.inj h.1) ht

end Thread

namespace Worker

variable {Owner : Type} [DecidableEq Owner] {w : Worker Owner} {o : Owner}

/-- Where the one is who has the lock. -/
def holderAt (w : Worker Owner) : OwnerAt :=
  match w.x_work with
  | none => .out
  | some o => w.owners o

/-- The lock excludes, and all is as the one who has it may rely on. -/
structure Invariant (w : Worker Owner) : Prop where
  inside : Excludes OwnerAt.Inside w.x_work w.owners
  fits : Fits w.m_state w.m_work w.holderAt

omit [DecidableEq Owner] in
theorem holderAt_of_x_work (h : w.x_work = some o) : w.holderAt = w.owners o := by
  unfold holderAt
  rw [h]

omit [DecidableEq Owner] in
theorem holderAt_of_free (h : w.x_work = none) : w.holderAt = .out := by
  unfold holderAt
  rw [h]

omit [DecidableEq Owner] in
theorem Invariant.fits_at {place : OwnerAt} (h : Invariant w) (ho : w.owners o = place)
    (hplace : place.Inside) :
    (w.owners o).Inside ∧ Fits w.m_state w.m_work place := by
  subst ho
  refine ⟨hplace, ?_⟩
  rw [← holderAt_of_x_work ((h.inside o).mp hplace)]
  exact h.fits

/-- The one who has the lock goes on behind it. -/
theorem Invariant.moved {w' : Worker Owner} {place : OwnerAt} (h : Invariant w)
    (ho : (w.owners o).Inside) (hlock : w'.x_work = w.x_work)
    (howners : w'.owners = Function.update w.owners o place) (hplace : place.Inside)
    (hfits : Fits w'.m_state w'.m_work place) : Invariant w' := by
  constructor
  · rw [hlock, howners]
    exact h.inside.within ho hplace
  · rw [holderAt_of_x_work (hlock.trans ((h.inside o).mp ho)), howners, Function.update_self]
    exact hfits

/-- The one who has the lock gives it back. -/
theorem Invariant.left {w' : Worker Owner} (h : Invariant w) (ho : (w.owners o).Inside)
    (hlock : w'.x_work = none) (howners : w'.owners = Function.update w.owners o .out)
    (hfits : Fits w'.m_state w'.m_work .out) : Invariant w' := by
  constructor
  · rw [hlock, howners]
    exact h.inside.leave ho id
  · rw [holderAt_of_free hlock]
    exact hfits

theorem Invariant.call (h : Invariant w) (ho : w.owners o = .out) (call : WorkerCall) :
    Invariant (w.moveTo o (.lock call)) := by
  have hout : ¬ (w.owners o).Inside := by
    rw [ho]
    exact id
  constructor
  · exact h.inside.outside hout id
  · cases hx : w.x_work with
    | none =>
      rw [holderAt_of_free (w := w.moveTo o _) hx]
      exact holderAt_of_free hx ▸ h.fits
    | some o' =>
      have hne : o' ≠ o := by
        rintro rfl
        exact hout ((h.inside o').mpr hx)
      rw [holderAt_of_x_work (w := w.moveTo o _) hx, moveTo_owners_of_ne w _ hne]
      exact holderAt_of_x_work hx ▸ h.fits

theorem Invariant.lock (h : Invariant w) {call : WorkerCall} (hfree : w.x_work = none) :
    Invariant { w.moveTo o (.testWork call) with x_work := some o } := by
  have hinside := h.inside
  have hfits := h.fits
  rw [hfree] at hinside
  rw [holderAt_of_free hfree] at hfits
  constructor
  · exact hinside.enter trivial
  · rw [holderAt_of_x_work (o := o) rfl]
    show Fits w.m_state w.m_work ((w.moveTo o _).owners o)
    rw [moveTo_owners_self]
    exact hfits

theorem Invariant.ownerStep (h : Invariant w) (hlock : ∀ call, w.owners o = .lock call →
    w.x_work = none) : Invariant (w.ownerStep o) := by
  unfold Worker.ownerStep
  cases ho : w.owners o with
  | out => exact h
  | lock call => exact h.lock (hlock call ho)
  | testWork call =>
    obtain ⟨hin, hsettled⟩ := h.fits_at ho trivial
    cases hw : w.m_work with
    | none =>
      cases call with
      | startWorking => exact h.moved hin rfl rfl trivial hw
      | stopWorking | isWorking | terminate => exact h.left hin rfl rfl hsettled
    | some t =>
      have hthread := hsettled t hw
      cases call with
      | startWorking => exact h.moved hin rfl rfl trivial ⟨t, hw, hthread⟩
      | isWorking => exact h.left hin rfl rfl hsettled
      | stopWorking => exact h.moved hin rfl rfl trivial ⟨t, hw, hthread⟩
      | terminate => exact h.moved hin rfl rfl trivial ⟨t, hw, hthread⟩
  | exchangeStarting =>
    obtain ⟨hin, t, ht, hsettled⟩ := h.fits_at ho trivial
    refine h.moved hin rfl rfl trivial ⟨t, ht, ?_⟩
    rcases hsettled with ⟨hs, hworks⟩ | ⟨hs, hstopped⟩
    · exact Or.inl (Or.inl ⟨by rw [hs]; rfl, hworks⟩)
    · exact Or.inr ⟨by rw [hs]; rfl, Or.inl hstopped⟩
  | setStarting =>
    obtain ⟨hin, hnone⟩ := h.fits_at ho trivial
    exact h.moved hin rfl rfl trivial ⟨hnone, rfl⟩
  | newThread =>
    obtain ⟨hin, -, hstarting⟩ := h.fits_at ho trivial
    exact h.moved hin rfl rfl trivial ⟨_, rfl, Or.inr ⟨hstarting, Or.inr (Or.inl rfl)⟩⟩
  | whileStarting =>
    obtain ⟨hin, t, ht, hstarts⟩ := h.fits_at ho trivial
    dsimp only
    split_ifs with hs
    · exact h
    · refine h.left hin rfl rfl fun t' ht' => ?_
      obtain rfl := Option.some.inj (ht.symm.trans ht')
      exact hstarts.resolve_right fun h => hs h.1
  | exchangeStopping =>
    obtain ⟨hin, t, ht, hsettled⟩ := h.fits_at ho trivial
    refine h.moved hin rfl rfl trivial ⟨t, ht, ?_⟩
    rcases hsettled with ⟨hs, hworks⟩ | ⟨hs, hstopped⟩
    · exact Or.inl ⟨by rw [hs]; rfl, hworks⟩
    · exact Or.inr ⟨by rw [hs]; rfl, hstopped⟩
  | whileNotStopped =>
    obtain ⟨hin, t, ht, hstops⟩ := h.fits_at ho trivial
    dsimp only
    split_ifs with hs
    · exact h
    · refine h.left hin rfl rfl fun t' ht' => ?_
      obtain rfl := Option.some.inj (ht.symm.trans ht')
      exact Or.inr (hstops.resolve_left fun h => hs (by rw [h.1]; nofun))
  | exchangeKilling =>
    obtain ⟨hin, t, ht, hsettled⟩ := h.fits_at ho trivial
    refine h.moved hin rfl rfl trivial ⟨t, ht, Or.inl ⟨rfl, ?_⟩⟩
    rcases hsettled with ⟨-, hworks⟩ | ⟨-, hstopped⟩
    · exact Or.inl hworks
    · exact Or.inr (Or.inl hstopped)
  | join =>
    obtain ⟨hin, t, ht, hends⟩ := h.fits_at ho trivial
    dsimp only
    split_ifs with hended
    · refine h.moved hin rfl rfl trivial ⟨hended, ?_⟩
      rcases hends with ⟨hs, -⟩ | ⟨-, hback⟩
      · exact hs
      · rw [ht, hback] at hended
        cases hended
    · exact h
  | reset =>
    exact h.left (h.fits_at ho trivial).1 rfl rfl nofun

omit [DecidableEq Owner] in
theorem fits_some {t : ThreadAt} {place : OwnerAt} (hw : w.m_work = some t)
    (h : Fits w.m_state w.m_work place) : Fits w.m_state (some t) place := hw ▸ h

theorem step_thread {t : ThreadAt} (hw : w.m_work = some t) (throws : Bool) :
    w.step (.thread throws) = { w with m_state := (t.next throws w.m_state).1,
                                       m_work := some (t.next throws w.m_state).2 } := by
  unfold Worker.step
  rw [hw]

theorem Invariant.step {a : Act Owner} (h : Invariant w) (ha : Enabled w a) :
    Invariant (w.step a) := by
  cases a with
  | call o call => exact h.call ha call
  | owner o => exact h.ownerStep fun call hcall => ha.lock hcall
  | thread throws =>
    obtain ⟨t, ht, hrun⟩ := enabled_thread.mp ha
    rw [step_thread ht]
    exact ⟨h.inside, (fits_some ht h.fits).next throws hrun⟩

omit [DecidableEq Owner] in
theorem invariant_init : Invariant ({} : Worker Owner) :=
  ⟨excludes_of_outside fun _ => id, nofun⟩

theorem Reachable.invariant (h : Reachable w) : Invariant w :=
  ReachableFrom.invariant h (fun _ _ hw ha => hw.step ha) invariant_init

end Worker

end XChain
