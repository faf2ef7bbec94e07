import XChain.Mutex
import XChain.Waits
import Mathlib.Algebra.Order.BigOperators.Group.Finset
import Mathlib.Data.Fintype.BigOperators

/-!
# A queue that threads share

Threads push elements and pop them, behind a lock. One that finds the queue empty gives the
lock back and waits; a push wakes one of those that wait, if there are any. A wait may also
end for no reason, and that of a bounded pop when its time is up.
-/
namespace XChain

inductive QueueCall (α : Type) where
  | push (elem : α)
  | pop
  | tryPop
  deriving DecidableEq, Repr

/-- Where a thread is, named after what it does next. A pop is `timed` if its wait is bounded,
and `expired` when the time is up. -/
inductive QueueAt (α : Type) where
  | out
  | lockPush (elem : α)
  | push (elem : α)
  | unlockPush
  | notifyOne
  | lockPop (timed : Bool)
  | testEmpty (timed expired : Bool)
  | waiting (timed : Bool)
  | relock (timed expired : Bool)
  | front
  | unlockPop (item : Option α)
  deriving DecidableEq, Repr

namespace QueueAt

variable {α : Type}

/-- Behind the lock. -/
def Inside : QueueAt α → Prop
  | .push _ | .unlockPush | .testEmpty .. | .front | .unlockPop _ => True
  | _ => False

/-- The thread wants the lock. -/
def WantsLock : QueueAt α → Prop
  | .lockPush _ | .lockPop _ | .relock .. => True
  | _ => False

def isWaiting : QueueAt α → Bool
  | .waiting _ => true
  | _ => false

/-- One that will tell of an element, or look for one before it waits. -/
def alert : QueueAt α → ℕ
  | .unlockPush | .notifyOne | .testEmpty .. | .relock .. | .front => 1
  | _ => 0

/-- The steps to come until the thread is out or waits. A notice leaves its steps to the one
that it wakes. -/
def toCome : QueueAt α → ℕ
  | .lockPush _ => 8
  | .push _ => 7
  | .unlockPush => 6
  | .notifyOne => 5
  | .lockPop _ | .relock .. => 4
  | .testEmpty .. => 3
  | .front => 2
  | .unlockPop _ => 1
  | .out | .waiting _ => 0

def pushes : QueueAt α → List α
  | .push elem => [elem]
  | _ => []

def takes (m_queue : List α) : QueueAt α → List α
  | .front => m_queue.head?.toList
  | _ => []

instance (place : QueueAt α) : Decidable place.Inside := by
  cases place <;> unfold Inside <;> infer_instance

instance (place : QueueAt α) : Decidable place.WantsLock := by
  cases place <;> unfold WantsLock <;> infer_instance

theorem toCome_le (place : QueueAt α) : place.toCome ≤ 8 := by
  cases place <;> simp [toCome]

end QueueAt

/-- The queue, and where the threads are. -/
structure ConcurrentQueue (Thread α : Type) where
  m_queue : List α := []
  x_mutex : Option Thread := none
  threads : Thread → QueueAt α := fun _ => .out

namespace ConcurrentQueue

variable {Thread α : Type} [DecidableEq Thread] (s : ConcurrentQueue Thread α) (t : Thread)

def moveTo (place : QueueAt α) : ConcurrentQueue Thread α :=
  { s with threads := Function.update s.threads t place }

def lock (place : QueueAt α) : ConcurrentQueue Thread α :=
  { s.moveTo t place with x_mutex := some t }

def unlock (place : QueueAt α) : ConcurrentQueue Thread α :=
  { s.moveTo t place with x_mutex := none }

/-- One step of a thread that neither waits nor notifies. -/
def runStep : ConcurrentQueue Thread α :=
  match s.threads t with
  | .lockPush elem => s.lock t (.push elem)
  | .push elem => { s.moveTo t .unlockPush with m_queue := s.m_queue ++ [elem] }
  | .unlockPush => s.unlock t .notifyOne
  | .lockPop timed => s.lock t (.testEmpty timed false)
  | .testEmpty timed expired =>
    if s.m_queue ≠ [] then s.moveTo t .front
    else if expired then s.moveTo t (.unlockPop none)
    else s.unlock t (.waiting timed)
  | .relock timed expired => s.lock t (.testEmpty timed expired)
  | .front => { s.moveTo t (.unlockPop s.m_queue.head?) with m_queue := s.m_queue.tail }
  | .unlockPop _ => s.unlock t .out
  | .out | .waiting _ | .notifyOne => s

/-- The wait of a thread ends, and it wants the lock again. -/
def wake (expired : Bool) : ConcurrentQueue Thread α :=
  match s.threads t with
  | .waiting timed => s.moveTo t (.relock timed expired)
  | _ => s

/-- A thread makes a call or goes on in it, notifies another one if any waits, or wakes up by
itself, maybe since its time is up. -/
inductive Act (Thread α : Type) where
  | call (t : Thread) (call : QueueCall α)
  | run (t : Thread)
  | notify (t : Thread) (woken : Option Thread)
  | wake (t : Thread) (expired : Bool)
  deriving DecidableEq, Repr

def callAt : QueueCall α → QueueAt α
  | .push elem => .lockPush elem
  | .pop => .lockPop false
  | .tryPop => .lockPop true

def step (s : ConcurrentQueue Thread α) : Act Thread α → ConcurrentQueue Thread α
  | .call t call => s.moveTo t (callAt call)
  | .run t => s.runStep t
  | .notify t woken =>
    match woken with
    | none => s.moveTo t .out
    | some u => (s.moveTo t .out).wake u false
  | .wake t expired => s.wake t expired

/-- A notice wakes one of those that wait, and none only if nobody waits. -/
def Enabled (s : ConcurrentQueue Thread α) : Act Thread α → Prop
  | .call t _ => s.threads t = .out
  | .run t => (s.threads t).Inside ∨ ((s.threads t).WantsLock ∧ s.x_mutex = none)
  | .notify t woken => s.threads t = .notifyOne ∧
    match woken with
    | none => ∀ u, (s.threads u).isWaiting = false
    | some u => (s.threads u).isWaiting = true
  | .wake t expired => s.threads t = .waiting true ∨ (s.threads t = .waiting false ∧ expired = false)

instance [Fintype Thread] [DecidableEq α] (s : ConcurrentQueue Thread α) (a : Act Thread α) :
    Decidable (Enabled s a) :=
  match a with
  | .call t _ => inferInstanceAs (Decidable (s.threads t = .out))
  | .run t =>
    inferInstanceAs (Decidable ((s.threads t).Inside ∨ ((s.threads t).WantsLock ∧ s.x_mutex = none)))
  | .notify t none => inferInstanceAs
    (Decidable (s.threads t = .notifyOne ∧ ∀ u, (s.threads u).isWaiting = false))
  | .notify t (some u) => inferInstanceAs
    (Decidable (s.threads t = .notifyOne ∧ (s.threads u).isWaiting = true))
  | .wake _ _ => inferInstanceAs (Decidable (_ ∨ (_ ∧ _)))

/-- The queue comes about in some run from its construction. -/
def Reachable (s : ConcurrentQueue Thread α) : Prop := ReachableFrom step Enabled {} s

/-- What a step pushes. -/
def pushed (s : ConcurrentQueue Thread α) : Act Thread α → List α
  | .run t => (s.threads t).pushes
  | _ => []

/-- What a step takes from the queue, for its thread to return. -/
def taken (s : ConcurrentQueue Thread α) : Act Thread α → List α
  | .run t => (s.threads t).takes s.m_queue
  | _ => []

variable {s t} {a : Act Thread α} {ops : List (Act Thread α)}

@[simp] theorem moveTo_m_queue (place : QueueAt α) : (s.moveTo t place).m_queue = s.m_queue := rfl

@[simp] theorem moveTo_x_mutex (place : QueueAt α) : (s.moveTo t place).x_mutex = s.x_mutex := rfl

@[simp] theorem moveTo_threads (place : QueueAt α) :
    (s.moveTo t place).threads = Function.update s.threads t place := rfl

@[simp] theorem wake_m_queue (expired : Bool) : (s.wake t expired).m_queue = s.m_queue := by
  unfold wake
  cases s.threads t <;> rfl

/-- The lock excludes; who is about to take an element finds one, and who is about to return
with none has left none behind. -/
structure Invariant (s : ConcurrentQueue Thread α) : Prop where
  inside : Excludes QueueAt.Inside s.x_mutex s.threads
  front : ∀ t, s.threads t = .front → s.m_queue ≠ []
  missed : ∀ t, s.threads t = .unlockPop none → s.m_queue = []

/-- A step of the thread that has the lock, after which it may give it back. -/
theorem Invariant.within {s' : ConcurrentQueue Thread α} {place : QueueAt α} (h : Invariant s)
    (ht : (s.threads t).Inside) (hthreads : s'.threads = Function.update s.threads t place)
    (hlock : (place.Inside ∧ s'.x_mutex = s.x_mutex) ∨ (¬ place.Inside ∧ s'.x_mutex = none))
    (hfront : place = .front → s'.m_queue ≠ [])
    (hmissed : place = .unlockPop none → s'.m_queue = []) : Invariant s' := by
  have hother {t'} (hin : (s'.threads t').Inside) : t' = t := by
    by_contra hne
    rw [hthreads, Function.update_of_ne hne] at hin
    exact hne (h.inside.eq hin ht)
  have hself : s'.threads t = place := by rw [hthreads, Function.update_self]
  refine ⟨?_, fun t' ht' => ?_, fun t' ht' => ?_⟩
  · rw [hthreads]
    rcases hlock with ⟨hplace, hlock⟩ | ⟨hplace, hlock⟩
    · rw [hlock]
      exact h.inside.within ht hplace
    · rw [hlock]
      exact h.inside.leave ht hplace
  · obtain rfl := hother (by rw [ht']; trivial)
    exact hfront (hself.symm.trans ht')
  · obtain rfl := hother (by rw [ht']; trivial)
    exact hmissed (hself.symm.trans ht')

/-- A step of a thread outside that leaves the queue as it is, and may take the lock. -/
theorem Invariant.outside {s' : ConcurrentQueue Thread α} {place : QueueAt α} (h : Invariant s)
    (ht : ¬ (s.threads t).Inside) (hthreads : s'.threads = Function.update s.threads t place)
    (hqueue : s'.m_queue = s.m_queue)
    (hlock : (¬ place.Inside ∧ s'.x_mutex = s.x_mutex) ∨
      (place.Inside ∧ s.x_mutex = none ∧ s'.x_mutex = some t))
    (hfront : place ≠ .front) (hmissed : place ≠ .unlockPop none) : Invariant s' := by
  have hplace {t'} {p : QueueAt α} (ht' : s'.threads t' = p) (hne : place ≠ p) :
      s.threads t' = p := by
    have hother : t' ≠ t := by
      rintro rfl
      rw [hthreads, Function.update_self] at ht'
      exact hne ht'
    rwa [hthreads, Function.update_of_ne hother] at ht'
  refine ⟨?_, fun t' ht' => ?_, fun t' ht' => ?_⟩
  · have hinside := h.inside
    rw [hthreads]
    rcases hlock with ⟨hplace, hlock⟩ | ⟨hplace, hfree, hlock⟩
    · rw [hlock]
      exact hinside.outside ht hplace
    · rw [hlock]
      rw [hfree] at hinside
      exact hinside.enter hplace
  · rw [hqueue]
    exact h.front t' (hplace ht' hfront)
  · rw [hqueue]
    exact h.missed t' (hplace ht' hmissed)

theorem Invariant.runStep (h : Invariant s) (ha : Enabled s (.run t)) :
    Invariant (s.runStep t) := by
  replace ha : (s.threads t).Inside ∨ ((s.threads t).WantsLock ∧ s.x_mutex = none) := ha
  unfold ConcurrentQueue.runStep
  cases ht : s.threads t with
  | out | waiting | notifyOne => exact h
  | lockPush elem | lockPop timed | relock timed expired =>
    rw [ht] at ha
    have hfree : s.x_mutex = none := (ha.resolve_left id).2
    exact h.outside (by rw [ht]; exact id) rfl rfl (Or.inr ⟨trivial, hfree, rfl⟩) nofun nofun
  | push elem => exact h.within (by rw [ht]; trivial) rfl (Or.inl ⟨trivial, rfl⟩) nofun nofun
  | unlockPush | unlockPop item =>
    exact h.within (by rw [ht]; trivial) rfl (Or.inr ⟨id, rfl⟩) nofun nofun
  | testEmpty timed expired =>
    have hin : (s.threads t).Inside := by rw [ht]; trivial
    dsimp only
    split_ifs with hqueue hexpired
    · exact h.within hin rfl (Or.inl ⟨trivial, rfl⟩) (fun _ => hqueue) nofun
    · exact h.within hin rfl (Or.inl ⟨trivial, rfl⟩) nofun fun _ => not_not.mp hqueue
    · exact h.within hin rfl (Or.inr ⟨id, rfl⟩) nofun nofun
  | front =>
    refine h.within (by rw [ht]; trivial) rfl (Or.inl ⟨trivial, rfl⟩) nofun fun hmissed => ?_
    have hnil : s.m_queue = [] := List.head?_eq_none_iff.mp (QueueAt.unlockPop.inj hmissed)
    exact absurd hnil (h.front t ht)

theorem Invariant.wake (h : Invariant s) (expired : Bool) : Invariant (s.wake t expired) := by
  unfold ConcurrentQueue.wake
  cases ht : s.threads t with
  | waiting timed =>
    exact h.outside (by rw [ht]; exact id) rfl rfl (Or.inl ⟨id, rfl⟩) nofun nofun
  | _ => exact h

theorem Invariant.step (h : Invariant s) (ha : Enabled s a) : Invariant (s.step a) := by
  cases a with
  | call t call =>
    have ht : s.threads t = .out := ha
    exact h.outside (by rw [ht]; exact id) rfl rfl
      (Or.inl ⟨by cases call <;> exact id, rfl⟩) (by cases call <;> nofun) (by cases call <;> nofun)
  | run t => exact h.runStep ha
  | notify t woken =>
    have hout : Invariant (s.moveTo t .out) :=
      h.outside (by rw [ha.1]; exact id) rfl rfl (Or.inl ⟨id, rfl⟩) nofun nofun
    cases woken with
    | none => exact hout
    | some u => exact hout.wake false
  | wake t expired => exact h.wake expired

omit [DecidableEq Thread] in
theorem invariant_init : Invariant ({} : ConcurrentQueue Thread α) :=
  ⟨excludes_of_outside fun _ => id, nofun, nofun⟩

theorem Reachable.invariant (h : Reachable s) : Invariant s :=
  ReachableFrom.invariant h (fun _ _ hs ha => hs.step ha) invariant_init

/-! ### First in, first out -/

theorem Invariant.conserved (h : Invariant s) :
    s.m_queue ++ s.pushed a = s.taken a ++ (s.step a).m_queue := by
  cases a with
  | call => exact List.append_nil _
  | wake t expired => exact (List.append_nil _).trans (wake_m_queue expired).symm
  | notify t woken =>
    cases woken with
    | none => exact List.append_nil _
    | some u =>
      show s.m_queue ++ [] = ((s.moveTo t .out).wake u false).m_queue
      rw [wake_m_queue, List.append_nil]
      rfl
  | run t =>
    show s.m_queue ++ (s.threads t).pushes =
      (s.threads t).takes s.m_queue ++ (s.runStep t).m_queue
    unfold ConcurrentQueue.runStep
    cases ht : s.threads t with
    | push elem => rfl
    | front =>
      obtain ⟨e, q, hq⟩ := List.exists_cons_of_ne_nil (h.front t ht)
      dsimp only [QueueAt.pushes, QueueAt.takes]
      rw [hq, List.append_nil]
      rfl
    | testEmpty timed expired =>
      dsimp only
      split_ifs <;> exact List.append_nil _
    | _ => exact List.append_nil _

/-- What has been taken from the queue is what was pushed first, in this order, and the rest is
in the queue. A pop that gives up has found nothing there. -/
theorem pushed_eq_taken_append (hops : Guarded step Enabled ({} : ConcurrentQueue Thread α) ops) :
    outputs step pushed {} ops =
        outputs step taken {} ops ++ (runFrom step {} ops).m_queue ∧
      ∀ t, ((runFrom step {} ops).threads t = .front → (runFrom step {} ops).m_queue ≠ []) ∧
        ((runFrom step {} ops).threads t = .unlockPop none →
          outputs step pushed {} ops = outputs step taken {} ops) := by
  have hfifo : outputs step pushed {} ops =
      outputs step taken {} ops ++ (runFrom step {} ops).m_queue :=
    outputs_conserved (I := Invariant) (fun _ _ hs ha => hs.step ha) (fun _ _ hs _ => hs.conserved)
      invariant_init hops
  have hinv : Invariant (runFrom step {} ops) :=
    hops.invariant (fun _ _ hs ha => hs.step ha) invariant_init
  refine ⟨hfifo, fun t => ⟨hinv.front t, fun ht => ?_⟩⟩
  rw [hfifo, hinv.missed t ht, List.append_nil]

/-- One thread waits for an element, and another one pushes two. -/
def waitAndPush : List (Act Bool ℕ) :=
  [.call true .pop, .run true, .run true, .call false (.push 3), .run false, .run false,
    .run false, .notify false (some true), .call false (.push 5), .run false, .run false]

theorem pushed_eq_taken_append_waitAndPush :
    let ops := waitAndPush ++ [.run false, .run true, .run true, .run true]
    outputs step pushed {} ops = outputs step taken {} ops ++ (runFrom step {} ops).m_queue ∧
      ∀ t, ((runFrom step {} ops).threads t = .front → (runFrom step {} ops).m_queue ≠ []) ∧
        ((runFrom step {} ops).threads t = .unlockPop none →
          outputs step pushed {} ops = outputs step taken {} ops) :=
  pushed_eq_taken_append (by decide)

/-! ### No notice is lost -/

variable [Fintype Thread] {u : Thread} {place : QueueAt α}

/-- How many threads will tell of an element, or look for one before they wait. -/
def alert (s : ConcurrentQueue Thread α) : ℕ := ∑ u, (s.threads u).alert

/-- As long as a thread waits, there is one on its way for each element of the queue. -/
def Announced (s : ConcurrentQueue Thread α) : Prop :=
  (∃ u, (s.threads u).isWaiting = true) → s.m_queue.length ≤ s.alert

theorem Announced.moved {s' : ConcurrentQueue Thread α} (h : Announced s)
    (hthreads : s'.threads = Function.update s.threads t place) (hplace : place.isWaiting = false)
    (hlen : s'.m_queue.length + (s.threads t).alert ≤ s.m_queue.length + place.alert) :
    Announced s' := by
  rintro ⟨u, hu⟩
  have hsum : s'.alert + (s.threads t).alert = s.alert + place.alert := by
    unfold alert
    rw [hthreads]
    exact sum_update_add QueueAt.alert s.threads t place
  have hwaits : (s.threads u).isWaiting = true := by
    rw [hthreads] at hu
    by_cases heq : u = t
    · rw [heq, Function.update_self, hplace] at hu
      cases hu
    · rwa [Function.update_of_ne heq] at hu
  have hbefore := h ⟨u, hwaits⟩
  omega

omit [DecidableEq Thread] in
theorem announced_of_nil (h : s.m_queue = []) : Announced s := by
  intro _
  rw [h]
  exact Nat.zero_le _

theorem Announced.runStep (h : Announced s) (hinv : Invariant s) : Announced (s.runStep t) := by
  unfold ConcurrentQueue.runStep
  cases ht : s.threads t with
  | out | waiting | notifyOne => exact h
  | testEmpty timed expired =>
    dsimp only
    split_ifs with hqueue hexpired
    · exact h.moved rfl rfl (by rw [ht]; exact Nat.le_refl _)
    · exact announced_of_nil (not_not.mp hqueue)
    · exact announced_of_nil (not_not.mp hqueue)
  | push elem =>
    refine h.moved rfl rfl ?_
    rw [ht, List.length_append]
    exact Nat.le_refl _
  | front =>
    refine h.moved rfl rfl ?_
    have hpos := List.length_pos_iff.mpr (hinv.front t ht)
    rw [ht]
    simp only [List.length_tail, QueueAt.alert]
    omega
  | _ =>
    refine h.moved rfl rfl ?_
    rw [ht]
    simp [QueueAt.alert, lock, unlock]

theorem Announced.wake (h : Announced s) (expired : Bool) : Announced (s.wake t expired) := by
  unfold ConcurrentQueue.wake
  cases ht : s.threads t with
  | waiting timed =>
    refine h.moved rfl rfl ?_
    rw [ht]
    exact Nat.le_add_right _ _
  | _ => exact h

/-- Notifying takes one thread out and makes another one want the lock. -/
theorem sum_notify (weight : QueueAt α → ℕ) (ht : s.threads t = .notifyOne)
    (hu : (s.threads u).isWaiting = true) : ∃ timed,
    ∑ v, weight ((s.step (.notify t (some u))).threads v) + weight .notifyOne +
        weight (.waiting timed) =
      ∑ v, weight (s.threads v) + weight .out + weight (.relock timed false) := by
  have hne : u ≠ t := by
    rintro rfl
    rw [ht] at hu
    cases hu
  have hplace : (s.moveTo t .out).threads u = s.threads u := Function.update_of_ne hne ..
  obtain ⟨timed, hwaiting⟩ : ∃ timed, s.threads u = .waiting timed := by
    cases hs : s.threads u with
    | waiting timed => exact ⟨timed, rfl⟩
    | _ => rw [hs] at hu; cases hu
  have hstep : s.step (.notify t (some u)) = (s.moveTo t .out).moveTo u (.relock timed false) := by
    show (s.moveTo t .out).wake u false = _
    unfold ConcurrentQueue.wake
    rw [hplace, hwaiting]
  have hout := sum_update_add weight s.threads t .out
  have hrelock := sum_update_add weight (s.moveTo t .out).threads u (.relock timed false)
  rw [hplace, hwaiting] at hrelock
  rw [ht] at hout
  refine ⟨timed, ?_⟩
  rw [hstep]
  simp only [moveTo_threads] at hout hrelock ⊢
  omega

theorem Announced.step (h : Announced s) (hinv : Invariant s) (ha : Enabled s a) :
    Announced (s.step a) := by
  cases a with
  | call t call =>
    have hplace : (callAt call : QueueAt α).isWaiting = false := by cases call <;> rfl
    refine h.moved rfl hplace ?_
    rw [show s.threads t = .out from ha]
    exact Nat.le_add_right _ _
  | run t => exact h.runStep hinv
  | wake t expired => exact h.wake expired
  | notify t woken =>
    cases woken with
    | none =>
      rintro ⟨u, hu⟩
      by_cases heq : u = t
      · rw [heq] at hu
        rw [show (s.step (.notify t none)).threads t = .out from Function.update_self ..] at hu
        cases hu
      · rw [show (s.step (.notify t none)).threads u = s.threads u from
          Function.update_of_ne heq .., ha.2 u] at hu
        cases hu
    | some u =>
      intro _
      have hbefore := h ⟨u, ha.2⟩
      obtain ⟨timed, hsum⟩ := sum_notify QueueAt.alert ha.1 ha.2
      have hlen : (s.step (.notify t (some u))).m_queue = s.m_queue := wake_m_queue false
      rw [hlen]
      simp only [alert, QueueAt.alert] at hsum hbefore ⊢
      omega

theorem Reachable.announced (h : Reachable s) : Announced s := by
  have hboth : Invariant s ∧ Announced s :=
    ReachableFrom.invariant (I := fun s => Invariant s ∧ Announced s) h
      (fun _ _ hs ha => ⟨hs.1.step ha, hs.2.step hs.1 ha⟩) ⟨invariant_init, announced_of_nil rfl⟩
  exact hboth.2

/-! ### Coming to rest -/

/-- A step that finishes what a thread is at: no call, and no end of a wait by itself. -/
def Act.Inner : Act Thread α → Prop
  | .run _ | .notify .. => True
  | _ => False

instance (a : Act Thread α) : Decidable a.Inner :=
  match a with
  | .run _ | .notify .. => inferInstanceAs (Decidable True)
  | .call .. | .wake .. => inferInstanceAs (Decidable False)

/-- The steps to come until every thread is out or waits. -/
def toCome (s : ConcurrentQueue Thread α) : ℕ := ∑ u, (s.threads u).toCome

theorem toCome_runStep (ha : Enabled s (.run t)) : (s.runStep t).toCome + 1 ≤ s.toCome := by
  have hmoved {s' : ConcurrentQueue Thread α} {place : QueueAt α}
      (hthreads : s'.threads = Function.update s.threads t place)
      (hlt : place.toCome + 1 ≤ (s.threads t).toCome) : s'.toCome + 1 ≤ s.toCome := by
    have hsum := sum_update_add QueueAt.toCome s.threads t place
    unfold toCome
    rw [hthreads]
    omega
  replace ha : (s.threads t).Inside ∨ ((s.threads t).WantsLock ∧ s.x_mutex = none) := ha
  unfold runStep
  cases ht : s.threads t with
  | out | waiting | notifyOne =>
    rw [ht] at ha
    exact absurd ha (by simp [QueueAt.Inside, QueueAt.WantsLock])
  | testEmpty timed expired =>
    dsimp only
    split_ifs
    · exact hmoved rfl (by rw [ht]; exact Nat.le_refl 3)
    · exact hmoved rfl (by rw [ht]; exact Nat.le_succ 2)
    · exact hmoved rfl (by rw [ht]; exact Nat.le_add_left 1 2)
  | _ => exact hmoved rfl (by rw [ht]; simp [QueueAt.toCome])

theorem toCome_step (ha : Enabled s a) (hinner : a.Inner) : (s.step a).toCome + 1 ≤ s.toCome := by
  cases a with
  | call | wake => exact hinner.elim
  | run t => exact toCome_runStep ha
  | notify t woken =>
    cases woken with
    | none =>
      have hsum := sum_update_add QueueAt.toCome s.threads t .out
      rw [ha.1] at hsum
      show (s.moveTo t .out).toCome + 1 ≤ s.toCome
      simp only [toCome, moveTo_threads, QueueAt.toCome] at hsum ⊢
      omega
    | some u =>
      obtain ⟨timed, hsum⟩ := sum_notify QueueAt.toCome ha.1 ha.2
      simp only [toCome, QueueAt.toCome] at hsum ⊢
      omega

omit [DecidableEq Thread] in
theorem toCome_le : s.toCome ≤ 8 * Fintype.card Thread := by
  have hsum := Finset.sum_le_card_nsmul Finset.univ (fun u => (s.threads u).toCome) 8
    fun u _ => (s.threads u).toCome_le
  rw [Nat.mul_comm]
  exact hsum

omit [DecidableEq Thread] in
/-- Where no thread can go on by itself, each is out or waits. -/
theorem Invariant.at_rest (h : Invariant s) (hrest : ∀ a, a.Inner → ¬ Enabled s a) (t : Thread) :
    s.threads t = .out ∨ (s.threads t).isWaiting = true := by
  have hrun (u : Thread) : ¬ ((s.threads u).Inside ∨ ((s.threads u).WantsLock ∧ s.x_mutex = none)) :=
    hrest (.run u) trivial
  have hfree : s.x_mutex = none := by
    cases hlock : s.x_mutex with
    | none => rfl
    | some u => exact absurd (Or.inl ((h.inside u).mpr hlock)) (hrun u)
  cases ht : s.threads t with
  | out => exact Or.inl rfl
  | waiting timed => exact Or.inr rfl
  | notifyOne =>
    -- a notice finds one that waits, or there is none
    by_cases hwaits : ∃ u, (s.threads u).isWaiting = true
    · obtain ⟨u, hu⟩ := hwaits
      exact absurd ⟨ht, hu⟩ (hrest (.notify t (some u)) trivial)
    · refine absurd ⟨ht, fun u => ?_⟩ (hrest (.notify t none) trivial)
      exact Bool.eq_false_iff.mpr fun hu => hwaits ⟨u, hu⟩
  | _ =>
    have hplace := hrun t
    rw [ht] at hplace
    exact absurd hplace (by simp [QueueAt.Inside, QueueAt.WantsLock, hfree])

/-- Left alone, the threads come to rest after a few steps each. At rest each is out or waits,
and none waits unless the queue is empty. -/
theorem comes_to_rest (h : Reachable s)
    (hops : Guarded step (fun s a => Enabled s a ∧ a.Inner) s ops) :
    ops.length ≤ 8 * Fintype.card Thread ∧
      ((∀ a, a.Inner → ¬ Enabled (runFrom step s ops) a) →
        (∀ t, (runFrom step s ops).threads t = .out ∨
          ((runFrom step s ops).threads t).isWaiting = true) ∧
        ((∃ t, ((runFrom step s ops).threads t).isWaiting = true) →
          (runFrom step s ops).m_queue = [])) := by
  have hend : Reachable (runFrom step s ops) :=
    hops.invariant (I := Reachable) (fun _ _ hs ha => ReachableFrom.next hs ha.1) h
  constructor
  · have hserved : Served step (fun (s : ConcurrentQueue Thread α) a => Enabled s a ∧ a.Inner)
        (fun _ => True) (fun _ => True) (fun _ => true) toCome :=
      ⟨fun _ _ _ _ => trivial, fun _ _ _ _ ha _ => toCome_step ha.1 ha.2⟩
    have hcount := hserved.countP_add_rank_le trivial hops fun _ _ _ => trivial
    rw [List.countP_true] at hcount
    have hle := toCome_le (s := s)
    omega
  · intro hrest
    have hplaces := hend.invariant.at_rest hrest
    refine ⟨hplaces, fun hwaits => ?_⟩
    have halert : (runFrom step s ops).alert = 0 := by
      refine Finset.sum_eq_zero fun u _ => ?_
      rcases hplaces u with hu | hu
      · rw [hu]
        rfl
      · cases hs : (runFrom step s ops).threads u with
        | waiting timed => rfl
        | _ => rw [hs] at hu; cases hu
    have hlen := hend.announced hwaits
    exact List.length_eq_zero_iff.mp (by omega)

theorem comes_to_rest_waitAndPush :
    let s := runFrom step {} waitAndPush
    let ops : List (Act Bool ℕ) := [.run false, .run true, .notify false none, .run true, .run true,
      .run true]
    ops.length ≤ 8 * Fintype.card Bool ∧
      ((∀ a : Act Bool ℕ, a.Inner → ¬ Enabled (runFrom step s ops) a) →
        (∀ t, (runFrom step s ops).threads t = .out ∨
          ((runFrom step s ops).threads t).isWaiting = true) ∧
        ((∃ t, ((runFrom step s ops).threads t).isWaiting = true) →
          (runFrom step s ops).m_queue = [])) :=
  comes_to_rest ⟨waitAndPush, by decide, rfl⟩ (by decide)

end ConcurrentQueue

end XChain
