import XChain.Worker

/-!
# What the owners of a worker may rely on

However owners and thread take their turns: a wait ends after a few steps of the thread,
a worker that has been told to stop does what it is at and no more, and a worker that has
been started goes on with its work, unless an exception ends it.
-/
namespace XChain

/-- How many steps of the thread an owner at the place waits for, at most. -/
def OwnerAt.patience : OwnerAt → ℕ
  | .whileStarting => 2
  | .whileNotStopped => 3
  | .join => 6
  | _ => 0

/-- How many steps of the thread are to come while an owner waits at the place. -/
def OwnerAt.toCome : OwnerAt → ThreadAt → ℕ
  | .whileStarting, .testStopped => 2
  | .whileStarting, .testKilling => 1
  | .whileNotStopped, .startedWorking => 3
  | .whileNotStopped, .doWork => 3
  | .whileNotStopped, .testStarted => 2
  | .whileNotStopped, .doneWorking => 1
  | .join, .startedWorking => 6
  | .join, .doWork => 6
  | .join, .testStarted => 5
  | .join, .doneWorking => 4
  | .join, .exchangeStopped => 3
  | .join, .exchangeBack _ => 2
  | .join, .testStopped => 1
  | _, _ => 0

example : OwnerAt.join.toCome .ended = 0 := by simp only [OwnerAt.toCome]

theorem OwnerAt.toCome_le_patience (place : OwnerAt) (t : ThreadAt) :
    place.toCome t ≤ place.patience := by
  cases place <;> cases t <;> simp [OwnerAt.toCome, OwnerAt.patience]

section Thread

variable {m_state : WorkerState} {t : ThreadAt} {throws : Bool}

theorem Starts.toCome_next (h : Starts m_state t) (hnext : (t.next throws m_state).1 = .Starting) :
    OwnerAt.whileStarting.toCome (t.next throws m_state).2 + 1 ≤
      OwnerAt.whileStarting.toCome t := by
  obtain ⟨rfl, rfl | rfl | rfl⟩ := h
  · exact Nat.le_refl 2
  · exact Nat.le_refl 1
  · cases hnext

theorem Stops.toCome_next (h : Stops m_state t) (hnext : (t.next throws m_state).1 ≠ .Stopped) :
    OwnerAt.whileNotStopped.toCome (t.next throws m_state).2 + 1 ≤
      OwnerAt.whileNotStopped.toCome t := by
  rcases h with ⟨rfl, h⟩ | ⟨rfl, rfl⟩
  · cases t <;> cases throws <;> simp_all [ThreadAt.Working, ThreadAt.next, OwnerAt.toCome]
  · exact absurd rfl hnext

theorem Ends.toCome_next (h : Ends m_state t) (hnext : (t.next throws m_state).2 ≠ .ended) :
    OwnerAt.join.toCome (t.next throws m_state).2 + 1 ≤ OwnerAt.join.toCome t := by
  rcases h with ⟨rfl, h | rfl | rfl | rfl⟩ | ⟨rfl, rfl⟩
  · cases t <;> cases throws <;> simp_all [ThreadAt.Working, ThreadAt.next, OwnerAt.toCome]
  · exact Nat.le_refl 1
  · exact absurd rfl hnext
  · exact absurd rfl hnext
  · exact Nat.le_refl 2

/-- The thread has been told to stop or to end, or it has. -/
def Halts (m_state : WorkerState) (t : ThreadAt) : Prop :=
  (m_state = .Stopping ∧ t.Working) ∨ (m_state = .Stopped ∧ t = .testStopped) ∨ Ends m_state t

/-- What of the worker's code a thread still runs that has been told to stop or to end. -/
def ThreadAt.toRun : ThreadAt → List ThreadAt
  | .startedWorking => [.startedWorking, .doneWorking]
  | .doWork => [.doWork, .doneWorking]
  | .testStarted => [.doneWorking]
  | .doneWorking => [.doneWorking]
  | _ => []

/-- The worker's code that the thread is about to run, if it is. -/
def ThreadAt.called (t : ThreadAt) : List ThreadAt :=
  [t].filter (· ∈ [.startedWorking, .doWork, .doneWorking])

theorem Fits.halts {place : OwnerAt} (h : Fits m_state (some t) place)
    (hstarting : m_state ≠ .Starting) (hstarted : m_state ≠ .Started) : Halts m_state t := by
  have hsettled (h : Settled m_state t) : Halts m_state t :=
    Or.inr (Or.inl (h.resolve_left fun h => hstarted h.1))
  cases place with
  | out | lock | testWork => exact hsettled (h t rfl)
  | exchangeStarting | exchangeStopping | exchangeKilling =>
    obtain ⟨t', ht', h⟩ := h
    cases ht'
    exact hsettled h
  | setStarting => cases h
  | newThread => cases h.1
  | whileStarting =>
    obtain ⟨t', ht', h⟩ := h
    cases ht'
    exact hsettled (h.resolve_right fun h => hstarting h.1)
  | whileNotStopped =>
    obtain ⟨t', ht', h⟩ := h
    cases ht'
    exact h.imp_right Or.inl
  | join =>
    obtain ⟨t', ht', h⟩ := h
    cases ht'
    exact Or.inr (Or.inr h)
  | reset =>
    obtain ⟨ht, hs⟩ := h
    cases ht
    exact Or.inr (Or.inr (Or.inl ⟨hs, Or.inr (Or.inr (Or.inr rfl))⟩))

theorem Fits.starts {place : OwnerAt} (h : Fits m_state (some t) place)
    (hstarting : m_state = .Starting) : Starts m_state t := by
  subst hstarting
  have hsettled : ¬ Settled .Starting t := by rintro (⟨h, -⟩ | ⟨h, -⟩) <;> cases h
  cases place with
  | out | lock | testWork => exact absurd (h t rfl) hsettled
  | exchangeStarting | exchangeStopping | exchangeKilling =>
    obtain ⟨t', ht', h⟩ := h
    cases ht'
    exact absurd h hsettled
  | setStarting => cases h
  | newThread => cases h.1
  | whileStarting =>
    obtain ⟨t', ht', h⟩ := h
    cases ht'
    exact h.resolve_left hsettled
  | whileNotStopped =>
    obtain ⟨-, -, ⟨h, -⟩ | ⟨h, -⟩⟩ := h <;> cases h
  | join =>
    obtain ⟨-, -, ⟨h, -⟩ | ⟨h, -⟩⟩ := h <;> cases h
  | reset => cases h.2

theorem Halts.next (h : Halts m_state t) : (t.next throws m_state).1 ≠ .Starting ∧
    (t.next throws m_state).1 ≠ .Started ∧
    t.called ++ (t.next throws m_state).2.toRun <+: t.toRun := by
  rcases h with ⟨rfl, h⟩ | ⟨rfl, rfl⟩ | ⟨rfl, h | rfl | rfl | rfl⟩ | ⟨rfl, rfl⟩
  · cases t <;> cases throws <;> simp_all [ThreadAt.Working] <;> decide
  · cases throws <;> decide
  · cases t <;> cases throws <;> simp_all [ThreadAt.Working] <;> decide
  all_goals cases throws <;> decide

/-- The thread goes round the worker's loop, or is about to enter it. -/
def ThreadAt.GoesOn (t : ThreadAt) : Prop := t = .startedWorking ∨ t = .testStarted ∨ t = .doWork

/-- How many steps the thread has made towards its work. -/
def ThreadAt.lead : ThreadAt → ℕ
  | .testStarted => 1
  | .doWork => 2
  | _ => 0

theorem ThreadAt.GoesOn.next (h : t.GoesOn) : (t.next false .Started).1 = .Started ∧
    (t.next false .Started).2.GoesOn ∧
    t.lead + 1 = 2 * t.called.count .doWork + (t.next false .Started).2.lead := by
  rcases h with rfl | rfl | rfl
  · exact ⟨rfl, Or.inr (Or.inl rfl), rfl⟩
  · exact ⟨rfl, Or.inr (Or.inr rfl), rfl⟩
  · exact ⟨rfl, Or.inr (Or.inl rfl), rfl⟩

/-- A thread comes to its work by being told to start. -/
theorem Fits.goesOn_next {place : OwnerAt} (h : Fits m_state (some t) place)
    (hgoes : m_state = .Started → t.GoesOn) (hnext : (t.next false m_state).1 = .Started) :
    (t.next false m_state).2.GoesOn := by
  by_cases hs : m_state = .Started
  · subst hs
    exact (hgoes rfl).next.2.1
  · by_cases hstarting : m_state = .Starting
    · obtain ⟨rfl, rfl | rfl | rfl⟩ := h.starts hstarting
      · cases hnext
      · cases hnext
      · exact Or.inl rfl
    · exact absurd hnext (h.halts hstarting hs).next.2.1

end Thread

namespace Worker

variable {Owner : Type} [DecidableEq Owner] {w : Worker Owner} {o : Owner} {a : Act Owner}
  {ops : List (Act Owner)}

def Act.isThread : Act Owner → Bool
  | .thread _ => true
  | _ => false

/-- The owner is in a loop whose test sends it round again. -/
def Waits (o : Owner) (w : Worker Owner) : Prop :=
  match w.owners o with
  | .whileStarting => w.m_state = .Starting
  | .whileNotStopped => w.m_state ≠ .Stopped
  | .join => w.m_work ≠ some .ended
  | _ => False

omit [DecidableEq Owner] in
theorem waits_of_whileNotStopped (ho : w.owners o = .whileNotStopped) (hs : w.m_state ≠ .Stopped) :
    w.Waits o := by
  unfold Waits
  rw [ho]
  exact hs

/-- The steps of the thread that the owner's wait is for. -/
def toCome (o : Owner) (w : Worker Owner) : ℕ :=
  match w.m_work with
  | none => 0
  | some t => (w.owners o).toCome t

omit [DecidableEq Owner] in
theorem Waits.inside (h : w.Waits o) : (w.owners o).Inside := by
  unfold Waits at h
  cases ho : w.owners o <;> simp_all [OwnerAt.Inside]

omit [DecidableEq Owner] in
theorem toCome_le (o : Owner) : w.toCome o ≤ (w.owners o).patience := by
  unfold toCome
  cases w.m_work with
  | none => exact Nat.zero_le _
  | some t => exact (w.owners o).toCome_le_patience t

/-- One that waits goes round its loop. -/
theorem Waits.ownerStep (h : w.Waits o) : w.ownerStep o = w := by
  unfold Waits at h
  unfold Worker.ownerStep
  cases ho : w.owners o <;> rw [ho] at h <;> simp_all

omit [DecidableEq Owner] in
/-- While the lock is held the other owners stay where they are, unless one makes a call. -/
theorem Invariant.owner_eq (h : Invariant w) (ho : (w.owners o).Inside) {o' : Owner}
    (ha : Enabled w (.owner o')) : o' = o := by
  have hheld : w.x_work = some o := (h.inside o).mp ho
  by_cases hin : (w.owners o').Inside
  · exact h.inside.eq hin ho
  · cases ho' : w.owners o' with
    | out => exact absurd ho' ha.ne_out
    | lock call =>
      rw [ha.lock ho'] at hheld
      cases hheld
    | _ =>
      rw [ho'] at hin
      exact absurd trivial hin

theorem Invariant.toCome_thread (h : Invariant w) (hwait : w.Waits o) {throws : Bool}
    (hnext : (w.step (.thread throws)).Waits o) :
    (w.step (.thread throws)).toCome o + 1 ≤ w.toCome o := by
  have hfits := (h.fits_at rfl hwait.inside).2
  unfold Waits at hwait hnext
  unfold toCome
  cases hw : w.m_work with
  | none =>
    rw [hw] at hfits
    cases ho : w.owners o <;> simp_all [Fits]
  | some t =>
    rw [step_thread hw] at hnext ⊢
    rw [hw] at hfits hwait
    dsimp only at hnext ⊢
    cases ho : w.owners o with
    | whileStarting =>
      rw [ho] at hfits hwait hnext
      obtain ⟨t', ht', hsettled | hstarts⟩ := hfits
      · rcases hsettled with ⟨hs, -⟩ | ⟨hs, -⟩ <;> rw [hs] at hwait <;> cases hwait
      · cases ht'
        exact hstarts.toCome_next hnext
    | whileNotStopped =>
      rw [ho] at hfits hnext
      obtain ⟨t', ht', hstops⟩ := hfits
      cases ht'
      exact hstops.toCome_next hnext
    | join =>
      rw [ho] at hfits hnext
      obtain ⟨t', ht', hends⟩ := hfits
      cases ht'
      exact hends.toCome_next fun hended => hnext (congrArg some hended)
    | _ =>
      rw [ho] at hwait
      exact hwait.elim

theorem served (o : Owner) :
    Served step Enabled Invariant (Waits o) Act.isThread (toCome o : Worker Owner → ℕ) where
  keeps _ _ h ha := h.step ha
  falls w a h hwait ha hnext := by
    cases a with
    | thread throws => exact h.toCome_thread hwait hnext
    | owner o' =>
      obtain rfl := h.owner_eq hwait.inside ha
      rw [show w.step (.owner o') = w from hwait.ownerStep]
      exact Nat.le_refl _
    | call o' call =>
      have hne : o ≠ o' := by
        rintro rfl
        have hin := hwait.inside
        rw [show w.owners o = .out from ha] at hin
        exact hin
      unfold toCome
      rw [show (w.step (.call o' call)).owners o = w.owners o from moveTo_owners_of_ne w _ hne]
      exact Nat.le_refl _

omit [DecidableEq Owner] in
/-- The thread that is waited for is there and has not ended. -/
theorem Invariant.enabled_thread (h : Invariant w) (hwait : w.Waits o) (throws : Bool) :
    Enabled w (.thread throws) := by
  have hfits := (h.fits_at rfl hwait.inside).2
  unfold Waits at hwait
  rw [Worker.enabled_thread]
  cases ho : w.owners o with
  | whileStarting =>
    rw [ho] at hfits
    obtain ⟨t, ht, hfits⟩ := hfits
    refine ⟨t, ht, ?_⟩
    rintro rfl
    rcases hfits with (⟨-, h⟩ | ⟨-, h⟩) | ⟨-, h | h | h⟩ <;> cases h
  | whileNotStopped =>
    rw [ho] at hfits
    obtain ⟨t, ht, hfits⟩ := hfits
    refine ⟨t, ht, ?_⟩
    rintro rfl
    rcases hfits with ⟨-, h⟩ | ⟨-, h⟩ <;> cases h
  | join =>
    rw [ho] at hfits hwait
    obtain ⟨t, ht, -⟩ := hfits
    exact ⟨t, ht, fun hended => hwait (by rw [ht, hended])⟩
  | _ =>
    rw [ho] at hwait
    exact hwait.elim

/-- Nobody waits for more than a few steps of the thread, and the thread can make them. -/
theorem thread_steps_of_waits (hw : Reachable w) (hops : Guarded step Enabled w ops)
    (hwait : Throughout step (Waits o) w ops) :
    ops.countP Act.isThread ≤ (w.owners o).patience ∧
      ∀ throws, Enabled (runFrom step w ops) (.thread throws) := by
  constructor
  · have hcount := (served o).countP_add_rank_le hw.invariant hops hwait
    have hrank := toCome_le (w := w) o
    omega
  · have hinv : Invariant (runFrom step w ops) := Reachable.invariant (ReachableFrom.run hw hops)
    have hend : (runFrom step w ops).Waits o := hwait ops [] (List.append_nil ops).symm
    exact hinv.enabled_thread hend

/-- One owner starts the worker, and another one tells it to stop while it works. -/
def askedWhileWorking : List (Act Bool) :=
  [.call true .startWorking, .owner true, .owner true, .owner true, .owner true, .thread false,
    .thread false, .owner true, .thread false, .thread false, .call false .stopWorking,
    .owner false, .owner false, .owner false]

theorem thread_steps_of_askedWhileWorking :
    let w := runFrom step {} askedWhileWorking
    let ops : List (Act Bool) := [.thread false, .call true .isWorking, .thread false, .owner false]
    ops.countP Act.isThread ≤ (w.owners false).patience ∧
      ∀ throws, Enabled (runFrom step w ops) (.thread throws) := by
  apply thread_steps_of_waits (o := false) ⟨askedWhileWorking, by decide, rfl⟩ (by decide)
  simp only [throughout_cons, throughout_nil]
  refine ⟨?_, ?_, ?_, ?_, ?_⟩ <;> exact waits_of_whileNotStopped (by decide) (by decide)

/-! ### What the worker runs -/

def called (w : Worker Owner) (a : Act Owner) : List ThreadAt :=
  if a.isThread then w.m_work.toList.flatMap ThreadAt.called else []

/-- What the thread runs of the worker's code, in this order. -/
def calls (w : Worker Owner) (ops : List (Act Owner)) : List ThreadAt := outputs step called w ops

theorem calls_cons : w.calls (a :: ops) = w.called a ++ (w.step a).calls ops := rfl

omit [DecidableEq Owner] in
theorem called_thread {t : ThreadAt} (hw : w.m_work = some t) (throws : Bool) :
    w.called (.thread throws) = t.called := by
  show w.m_work.toList.flatMap ThreadAt.called = _
  rw [hw]
  exact List.append_nil _

/-- The owner tells the thread to start, or makes the state ready for a new one. -/
def Restarts (w : Worker Owner) : Act Owner → Prop
  | .owner o => w.owners o = .exchangeStarting ∨ w.owners o = .setStarting
  | _ => False

instance (w : Worker Owner) (a : Act Owner) : Decidable (Restarts w a) :=
  match a with
  | .owner _ => inferInstanceAs (Decidable (_ ∨ _))
  | .call .. | .thread _ => inferInstanceAs (Decidable False)

/-- The thread is neither told to start nor to go on. -/
def Halting (w : Worker Owner) : Prop := w.m_state ≠ .Starting ∧ w.m_state ≠ .Started

/-- What the thread still runs of the worker's code once it is told to stop or to end. -/
def toRun (w : Worker Owner) : List ThreadAt := w.m_work.toList.flatMap ThreadAt.toRun

omit [DecidableEq Owner] in
theorem toRun_of_some {t : ThreadAt} (hw : w.m_work = some t) : w.toRun = t.toRun := by
  unfold toRun
  rw [hw]
  exact List.append_nil _

omit [DecidableEq Owner] in
theorem Halting.compareExchange (h : w.Halting) :
    w.m_state.compareExchange .Started .Stopping = w.m_state := if_neg h.2

/-- An owner that does not start the worker leaves the thread alone, or removes it. -/
theorem Halting.ownerStep (h : w.Halting) (hinv : w.Invariant)
    (hno : ¬ w.Restarts (.owner o)) :
    (w.ownerStep o).Halting ∧ (w.ownerStep o).toRun <+: w.toRun := by
  unfold Worker.ownerStep
  cases ho : w.owners o with
  | exchangeStarting => exact absurd (Or.inl ho) hno
  | setStarting => exact absurd (Or.inr ho) hno
  | newThread => exact absurd (hinv.fits_at ho trivial).2.2 h.1
  | out | lock => exact ⟨h, List.prefix_rfl⟩
  | testWork call =>
    cases call with
    | isWorking => exact ⟨h, List.prefix_rfl⟩
    | _ => dsimp only; split_ifs <;> exact ⟨h, List.prefix_rfl⟩
  | whileStarting | whileNotStopped | join =>
    dsimp only
    split_ifs <;> exact ⟨h, List.prefix_rfl⟩
  | exchangeStopping =>
    refine ⟨?_, List.prefix_rfl⟩
    show w.m_state.compareExchange .Started .Stopping ≠ .Starting ∧
      w.m_state.compareExchange .Started .Stopping ≠ .Started
    rw [h.compareExchange]
    exact h
  | exchangeKilling => exact ⟨⟨nofun, nofun⟩, List.prefix_rfl⟩
  | reset => exact ⟨h, List.nil_prefix⟩

theorem Halting.calls_prefix (hhalt : w.Halting) (h : w.Invariant)
    (hops : Guarded step (fun w a => Enabled w a ∧ ¬ w.Restarts a) w ops) :
    (runFrom step w ops).Halting ∧ w.calls ops <+: w.toRun := by
  induction ops generalizing w with
  | nil => exact ⟨hhalt, List.nil_prefix⟩
  | cons a ops ih =>
    obtain ⟨⟨ha, hno⟩, hrest⟩ := hops
    have hnext : (w.step a).Halting → (runFrom step w (a :: ops)).Halting ∧
        (w.step a).calls ops <+: (w.step a).toRun := fun hhalt => ih hhalt (h.step ha) hrest
    cases a with
    | call o call => exact hnext hhalt
    | owner o =>
      obtain ⟨hhalt', hrun⟩ := hhalt.ownerStep h hno
      exact ⟨(hnext hhalt').1, (hnext hhalt').2.trans hrun⟩
    | thread throws =>
      obtain ⟨t, ht, -⟩ := enabled_thread.mp ha
      have hhalts : Halts w.m_state t := (fits_some ht h.fits).halts hhalt.1 hhalt.2
      obtain ⟨hstarting, hstarted, hrun⟩ :=
        show (t.next throws w.m_state).1 ≠ .Starting ∧ (t.next throws w.m_state).1 ≠ .Started ∧
          t.called ++ (t.next throws w.m_state).2.toRun <+: t.toRun from hhalts.next
      have hstep := step_thread ht throws
      obtain ⟨hend, hcalls⟩ := hnext (by rw [hstep]; exact ⟨hstarting, hstarted⟩)
      refine ⟨hend, ?_⟩
      rw [toRun_of_some (t := (t.next throws w.m_state).2) (by rw [hstep])] at hcalls
      rw [toRun_of_some ht, calls_cons, called_thread ht]
      exact (List.prefix_append_right_inj _ |>.mpr hcalls).trans hrun

/-- Once a worker is told to stop or to end it finishes what it runs, and starts nothing new
but the notice that it is done, as long as no owner starts it again. -/
theorem calls_of_asked (hw : Reachable w)
    (hasked : w.owners o = .whileNotStopped ∨ w.owners o = .join)
    (hops : Guarded step (fun w a => Enabled w a ∧ ¬ w.Restarts a) w ops) :
    w.calls ops <+: w.toRun ∧ (w.calls ops).count .doWork ≤ 1 := by
  have hhalt : w.Halting := by
    rcases hasked with ho | ho <;> obtain ⟨-, t, -, hfits⟩ := hw.invariant.fits_at ho trivial
    · rcases hfits with ⟨hs, -⟩ | ⟨hs, -⟩ <;> exact ⟨by rw [hs]; nofun, by rw [hs]; nofun⟩
    · rcases hfits with ⟨hs, -⟩ | ⟨hs, -⟩ <;> exact ⟨by rw [hs]; nofun, by rw [hs]; nofun⟩
  have hcalls := (hhalt.calls_prefix hw.invariant hops).2
  refine ⟨hcalls, Nat.le_trans (hcalls.sublist.count_le _) ?_⟩
  unfold toRun
  cases w.m_work with
  | none => exact Nat.zero_le 1
  | some t =>
    cases t with
    | exchangeBack ex => exact Nat.zero_le 1
    | _ => decide

theorem calls_of_askedWhileWorking :
    (runFrom step {} askedWhileWorking).calls [.thread true, .owner false, .thread false] <+:
        (runFrom step {} askedWhileWorking).toRun ∧
      ((runFrom step {} askedWhileWorking).calls
        [.thread true, .owner false, .thread false]).count .doWork ≤ 1 :=
  calls_of_asked (o := false) ⟨askedWhileWorking, by decide, rfl⟩ (Or.inl (by decide)) (by decide)

/-- When a call of `stopWorking` returns the worker has stopped: nothing of it runs, and nobody
finds it working, until an owner starts it again. -/
theorem calls_of_stopped (hw : Reachable w) (ho : w.owners o = .whileNotStopped)
    (hs : w.m_state = .Stopped)
    (hops : Guarded step (fun w a => Enabled w a ∧ ¬ w.Restarts a) (w.ownerStep o) ops) :
    (w.ownerStep o).owners o = .out ∧ (w.ownerStep o).calls ops = [] ∧
      (runFrom step (w.ownerStep o) ops).isWorking = false := by
  have hleave : w.ownerStep o = w.leave o := by
    unfold Worker.ownerStep
    rw [ho]
    exact if_neg fun hne => hne hs
  obtain ⟨-, t, ht, hfits⟩ := hw.invariant.fits_at ho trivial
  have hstopped : t = .testStopped := by
    rcases hfits with ⟨hs', -⟩ | ⟨-, ht⟩
    · rw [hs] at hs'
      cases hs'
    · exact ht
  have hinv : Invariant (w.ownerStep o) :=
    hw.invariant.ownerStep fun call hcall => by rw [ho] at hcall; cases hcall
  rw [hleave] at hops hinv ⊢
  obtain ⟨hend, hcalls⟩ := Halting.calls_prefix (w := w.leave o)
    ⟨by rw [leave_m_state, hs]; nofun, by rw [leave_m_state, hs]; nofun⟩ hinv hops
  rw [toRun_of_some (w := w.leave o) (t := .testStopped) (by rw [leave_m_work, ht, hstopped])]
    at hcalls
  exact ⟨Function.update_self .., List.prefix_nil.mp hcalls, decide_eq_false hend.2⟩

theorem calls_of_stopped_thread :
    let w := runFrom step {} (askedWhileWorking ++ [.thread false, .thread false, .thread false,
      .thread false])
    (w.ownerStep false).owners false = .out ∧
      (w.ownerStep false).calls [.call true .terminate, .thread false, .owner true] = [] ∧
      (runFrom step (w.ownerStep false)
        [.call true .terminate, .thread false, .owner true]).isWorking = false :=
  calls_of_stopped ⟨_, by decide, rfl⟩ (by decide) (by decide) (by decide)

/-! ### A start without exceptions -/

/-- The step throws no exception. -/
def Act.Quiet : Act Owner → Prop
  | .thread throws => throws = false
  | _ => True

instance (a : Act Owner) : Decidable a.Quiet :=
  match a with
  | .thread _ => inferInstanceAs (Decidable (_ = false))
  | .call .. | .owner _ => inferInstanceAs (Decidable True)

/-- Without exceptions a thread that is told to work does, and a start is not forgotten. -/
structure Busy (w : Worker Owner) : Prop where
  goesOn : w.m_state = .Started → ∀ t, w.m_work = some t → t.GoesOn
  starting : ∀ o, w.owners o = .whileStarting → w.m_state = .Starting ∨ w.m_state = .Started

theorem owners_ownerStep_of_ne {o' : Owner} (h : o' ≠ o) :
    (w.ownerStep o).owners o' = w.owners o' := by
  unfold Worker.ownerStep
  cases w.owners o with
  | out => rfl
  | testWork call =>
    cases call with
    | isWorking => exact Function.update_of_ne h ..
    | _ => dsimp only; split_ifs <;> exact Function.update_of_ne h ..
  | whileStarting | whileNotStopped | join =>
    dsimp only
    split_ifs <;> first | rfl | exact Function.update_of_ne h ..
  | _ => exact Function.update_of_ne h ..

/-- No owner makes the thread work by itself, or changes the thread while it works. -/
theorem Invariant.started_of_ownerStep (h : Invariant w)
    (hs : (w.ownerStep o).m_state = .Started) :
    w.m_state = .Started ∧ (w.ownerStep o).m_work = w.m_work := by
  unfold Worker.ownerStep at hs ⊢
  cases ho : w.owners o with
  | out | lock => rw [ho] at hs; exact ⟨hs, rfl⟩
  | testWork call =>
    rw [ho] at hs
    cases call with
    | isWorking => exact ⟨hs, rfl⟩
    | _ => dsimp only at hs ⊢; split_ifs at hs ⊢ <;> exact ⟨hs, rfl⟩
  | whileStarting | whileNotStopped | join =>
    rw [ho] at hs
    dsimp only at hs ⊢
    split_ifs at hs ⊢ <;> exact ⟨hs, rfl⟩
  | exchangeStarting | exchangeStopping =>
    rw [ho] at hs
    dsimp only [WorkerState.compareExchange] at hs
    split_ifs at hs
    exact ⟨hs, rfl⟩
  | setStarting | exchangeKilling => rw [ho] at hs; cases hs
  | newThread =>
    rw [ho] at hs
    have hstarting := (h.fits_at ho trivial).2.2
    rw [show w.m_state = .Started from hs] at hstarting
    cases hstarting
  | reset =>
    rw [ho] at hs
    have hkilling := (h.fits_at ho trivial).2.2
    rw [show w.m_state = .Started from hs] at hkilling
    cases hkilling

theorem Invariant.ownerStep_starting (h : w.Invariant)
    (hnext : (w.ownerStep o).owners o = .whileStarting) :
    (w.ownerStep o).m_state = .Starting ∨ (w.ownerStep o).m_state = .Started := by
  unfold Worker.ownerStep at hnext ⊢
  cases ho : w.owners o with
  | exchangeStarting =>
    obtain ⟨-, t, -, ⟨hs, -⟩ | ⟨hs, -⟩⟩ := h.fits_at ho trivial
    · exact Or.inr (by rw [hs]; rfl)
    · exact Or.inl (by rw [hs]; rfl)
  | newThread => exact Or.inl (h.fits_at ho trivial).2.2
  | whileStarting =>
    rw [ho] at hnext
    dsimp only at hnext ⊢
    split_ifs at hnext ⊢ with hs
    · exact Or.inl hs
    · rw [leave_owners, Function.update_self] at hnext
      cases hnext
  | testWork call =>
    rw [ho] at hnext
    cases call <;> dsimp only at hnext <;> (try split_ifs at hnext) <;>
      simp only [moveTo_owners_self, leave_owners, Function.update_self, reduceCtorEq] at hnext
  | whileNotStopped | join =>
    rw [ho] at hnext
    dsimp only at hnext
    split_ifs at hnext <;> simp_all
  | _ =>
    rw [ho] at hnext
    simp_all

theorem Busy.ownerStep (h : w.Busy) (hinv : w.Invariant) (ha : Enabled w (.owner o)) :
    (w.ownerStep o).Busy := by
  constructor
  · intro hs t ht
    obtain ⟨hs, hsame⟩ := hinv.started_of_ownerStep hs
    exact h.goesOn hs t (hsame ▸ ht)
  · intro o' ho'
    by_cases heq : o' = o
    · subst heq
      exact hinv.ownerStep_starting ho'
    · rw [owners_ownerStep_of_ne heq] at ho'
      have hin : (w.owners o').Inside := by rw [ho']; trivial
      exact absurd (hinv.owner_eq hin ha).symm heq

theorem Busy.step (h : w.Busy) (hinv : w.Invariant) (ha : Enabled w a) (hquiet : a.Quiet) :
    (w.step a).Busy := by
  cases a with
  | call o call =>
    refine ⟨h.goesOn, fun o' ho' => ?_⟩
    by_cases heq : o' = o
    · subst heq
      rw [show (w.step (.call o' call)).owners o' = _ from moveTo_owners_self ..] at ho'
      cases ho'
    · exact h.starting o' ((moveTo_owners_of_ne w _ heq).symm.trans ho')
  | owner o => exact h.ownerStep hinv ha
  | thread throws =>
    obtain ⟨t, ht, -⟩ := enabled_thread.mp ha
    obtain rfl : throws = false := hquiet
    have hfits := fits_some ht hinv.fits
    rw [step_thread ht]
    constructor
    · intro hs t' ht'
      obtain rfl := Option.some.inj ht'
      exact hfits.goesOn_next (fun hs => h.goesOn hs t ht) hs
    · intro o ho
      dsimp only
      rcases h.starting o ho with hs | hs
      · obtain ⟨-, rfl | rfl | rfl⟩ := hfits.starts hs
        · exact Or.inl hs
        · exact Or.inl hs
        · exact Or.inr (by rw [hs]; rfl)
      · rw [hs]
        exact Or.inr (h.goesOn hs t ht).next.1

/-- The thread works, and is not told otherwise. -/
structure Works (w : Worker Owner) : Prop where
  started : w.m_state = .Started
  thread : ∃ t, w.m_work = some t ∧ t.GoesOn

/-- The owner tells the thread to stop or to end. -/
def Asks (w : Worker Owner) : Act Owner → Prop
  | .owner o => w.owners o = .exchangeStopping ∨ w.owners o = .exchangeKilling
  | _ => False

instance (w : Worker Owner) (a : Act Owner) : Decidable (Asks w a) :=
  match a with
  | .owner _ => inferInstanceAs (Decidable (_ ∨ _))
  | .call .. | .thread _ => inferInstanceAs (Decidable False)

theorem Works.ownerStep (h : w.Works) (hinv : w.Invariant) (hno : ¬ w.Asks (.owner o)) :
    (w.ownerStep o).m_state = .Started := by
  obtain ⟨hs, t, ht, -⟩ := h
  unfold Worker.ownerStep
  cases ho : w.owners o with
  | exchangeStopping => exact absurd (Or.inl ho) hno
  | exchangeKilling => exact absurd (Or.inr ho) hno
  | setStarting =>
    have hnone := (hinv.fits_at ho trivial).2
    rw [show w.m_work = none from hnone] at ht
    cases ht
  | exchangeStarting =>
    show w.m_state.compareExchange .Stopped .Starting = .Started
    rw [hs]
    rfl
  | testWork call =>
    cases call with
    | isWorking => exact hs
    | _ => dsimp only; split_ifs <;> exact hs
  | whileStarting | whileNotStopped | join =>
    dsimp only
    split_ifs <;> exact hs
  | _ => exact hs

theorem Works.keeps (h : w.Works) (hinv : w.Invariant) (ha : Enabled w a) (hquiet : a.Quiet)
    (hno : ¬ w.Asks a) : (w.step a).Works := by
  cases a with
  | call o call => exact ⟨h.started, h.thread⟩
  | owner o =>
    have hs := h.ownerStep hinv hno
    obtain ⟨t, ht, hgoes⟩ := h.thread
    exact ⟨hs, t, (hinv.started_of_ownerStep hs).2.trans ht, hgoes⟩
  | thread throws =>
    obtain ⟨t, ht, hgoes⟩ := h.thread
    obtain rfl : throws = false := hquiet
    rw [step_thread ht, h.started]
    exact ⟨hgoes.next.1, _, rfl, hgoes.next.2.1⟩

/-- How far the thread is on its way to its work. -/
def lead (w : Worker Owner) : ℕ := (w.m_work.map ThreadAt.lead).getD 0

omit [DecidableEq Owner] in
theorem lead_of_some {t : ThreadAt} (hw : w.m_work = some t) : w.lead = t.lead := by
  unfold lead
  rw [hw]
  rfl

/-- Two steps of the thread for each piece of work. -/
theorem Works.thread_steps (h : w.Works) (hinv : w.Invariant)
    (hops : Guarded step (fun w a => (Enabled w a ∧ a.Quiet) ∧ ¬ w.Asks a) w ops) :
    (runFrom step w ops).Works ∧ ops.countP Act.isThread + w.lead =
      2 * (w.calls ops).count .doWork + (runFrom step w ops).lead := by
  induction ops generalizing w with
  | nil => exact ⟨h, rfl⟩
  | cons a ops ih =>
    obtain ⟨⟨⟨ha, hquiet⟩, hno⟩, hrest⟩ := hops
    obtain ⟨hend, hcount⟩ := ih (h.keeps hinv ha hquiet hno) (hinv.step ha) hrest
    refine ⟨hend, ?_⟩
    change _ = 2 * _ + (runFrom step (w.step a) ops).lead
    rw [calls_cons, List.count_append, List.countP_cons]
    cases a with
    | call o call =>
      change ops.countP Act.isThread + w.lead = _ at hcount
      simpa [Act.isThread, called] using hcount
    | owner o =>
      have hsame := (hinv.started_of_ownerStep (h.ownerStep hinv hno)).2
      have hlead : (w.step (.owner o)).lead = w.lead := by
        show ((w.ownerStep o).m_work.map ThreadAt.lead).getD 0 = _
        rw [hsame]
        rfl
      rw [hlead] at hcount
      simpa [Act.isThread, called] using hcount
    | thread throws =>
      obtain ⟨t, ht, hgoes⟩ := h.thread
      obtain rfl : throws = false := hquiet
      have hnext := hgoes.next.2.2
      have hlead : (w.step (.thread false)).lead = (t.next false .Started).2.lead := by
        rw [step_thread ht, h.started]
        rfl
      rw [lead_of_some ht, called_thread ht]
      rw [hlead] at hcount
      simp only [Act.isThread, if_true]
      omega

/-- Without exceptions a call of `startWorking` returns with the worker working. It goes on until
an owner asks it to stop or to end: with every two steps of the thread a piece of work is done. -/
theorem works_of_started
    (hw : ReachableFrom step (fun (w : Worker Owner) a => Enabled w a ∧ a.Quiet) {} w)
    (ho : w.owners o = .whileStarting) (hs : w.m_state ≠ .Starting)
    (hops : Guarded step (fun w a => (Enabled w a ∧ a.Quiet) ∧ ¬ w.Asks a) (w.ownerStep o) ops) :
    (w.ownerStep o).owners o = .out ∧ (runFrom step (w.ownerStep o) ops).isWorking = true ∧
      ops.countP Act.isThread ≤ 2 * ((w.ownerStep o).calls ops).count .doWork + 2 := by
  obtain ⟨hinv, hbusy⟩ : w.Invariant ∧ w.Busy :=
    ReachableFrom.invariant (I := fun w => w.Invariant ∧ w.Busy) hw
      (fun w a hw ha => ⟨hw.1.step ha.1, hw.2.step hw.1 ha.1 ha.2⟩)
      ⟨invariant_init, ⟨nofun, nofun⟩⟩
  have hleave : w.ownerStep o = w.leave o := by
    unfold Worker.ownerStep
    rw [ho]
    exact if_neg hs
  have hstarted : w.m_state = .Started := (hbusy.starting o ho).resolve_left hs
  obtain ⟨-, t, ht, -⟩ := hinv.fits_at ho trivial
  have hinv' : Invariant (w.ownerStep o) :=
    hinv.ownerStep fun call hcall => by rw [ho] at hcall; cases hcall
  rw [hleave] at hops hinv' ⊢
  have hworks : (w.leave o).Works := ⟨hstarted, t, ht, hbusy.goesOn hstarted t ht⟩
  obtain ⟨hend, hcount⟩ := hworks.thread_steps hinv' hops
  refine ⟨Function.update_self .., decide_eq_true hend.started, ?_⟩
  obtain ⟨t', ht', hgoes⟩ := hend.thread
  rw [lead_of_some ht'] at hcount
  have hlead : t'.lead ≤ 2 := by rcases hgoes with rfl | rfl | rfl <;> decide
  omega

theorem works_of_started_thread :
    let w : Worker Bool := runFrom step {} (askedWhileWorking.take 7)
    let ops := [Act.thread false, .call false .startWorking, .owner false, .thread false,
      .thread false, .owner false, .owner false]
    (w.ownerStep true).owners true = .out ∧
      (runFrom step (w.ownerStep true) ops).isWorking = true ∧
      ops.countP Act.isThread ≤ 2 * ((w.ownerStep true).calls ops).count .doWork + 2 :=
  works_of_started ⟨askedWhileWorking.take 7, by decide, rfl⟩ (by decide) (by decide) (by decide)

end Worker

end XChain
