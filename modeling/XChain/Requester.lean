import Mathlib.Data.List.Induction
import XChain.GuardedRuns

/-!
# Answers to the latest request

A party asks for something and forgets about it when an answer comes. When it takes an answer
only if it still waits for one of that kind, every answer that it takes belongs to its latest
request, and it never takes more answers of a kind than it has asked for.
-/
namespace XChain

section Requester

variable {State Event Kind : Type*} (next : State → Event → State) (asks : Event → Option Kind)
  (processes : State → Event → Prop) (delivers : State → Event → List Kind)
  (pending : State → Option Kind)

/-- The party waits for what it asked for last, or for nothing, and takes what it waits for. -/
structure Requester : Prop where
  asked : ∀ s e k, asks e = some k → pending (next s e) = some k ∨ pending (next s e) = none
  kept : ∀ s e, asks e = none →
    pending (next s e) = none ∨ (pending (next s e) = pending s ∧ ¬ processes s e)
  taken : ∀ s e, delivers s e = [] ∨
    ∃ k, delivers s e = [k] ∧ asks e = none ∧ pending s = some k ∧ pending (next s e) = none

namespace Requester

/-- An event that neither asks nor has an answer processed. -/
def Idles (s : State) (e : Event) : Prop := asks e = none ∧ ¬ processes s e

/-- The latest request is for `k`, and no answer has been processed since. -/
def Awaits (s : State) (k : Kind) (events : List Event) : Prop :=
  ∃ before e between, events = before ++ e :: between ∧ asks e = some k ∧
    Guarded next (Idles asks processes) (runFrom next s (before ++ [e])) between

/-- How often `k` is delivered. -/
def deliveries [DecidableEq Kind] (k : Kind) : State → List Event → ℕ
  | _, [] => 0
  | s, e :: events => (delivers s e).count k + deliveries k (next s e) events

/-- How often `k` is asked for. -/
def requests [DecidableEq Kind] (k : Kind) (events : List Event) : ℕ :=
  events.countP fun e => asks e = some k

variable {next asks processes delivers pending} {s : State} {k : Kind} {events : List Event}

/-- What the party waits for is what it asked for last. -/
theorem awaits (h : Requester next asks processes delivers pending) (h0 : pending s = none)
    (hk : pending (runFrom next s events) = some k) : Awaits next asks processes s k events := by
  induction events using List.reverseRecOn with
  | nil =>
    rw [runFrom_nil, h0] at hk
    cases hk
  | append_singleton events e ih =>
    rw [runFrom_append, runFrom_singleton] at hk
    cases he : asks e with
    | some k' =>
      have hsame : some k' = some k := by
        rcases h.asked _ _ _ he with hp | hp
        · rw [← hp, hk]
        · rw [hp] at hk
          cases hk
      exact ⟨events, e, [], rfl, he.trans hsame, trivial⟩
    | none =>
      rcases h.kept _ _ he with hp | ⟨hp, hquiet⟩
      · rw [hp] at hk
        cases hk
      · -- The event is one more of those since the request.
        obtain ⟨before, x, between, rfl, hx, hbetween⟩ := ih (hp.symm.trans hk)
        have hidles : Idles asks processes
            (runFrom next (runFrom next s (before ++ [x])) between) e := by
          rw [← runFrom_append, List.append_assoc, List.singleton_append]
          exact ⟨he, hquiet⟩
        exact ⟨before, x, between ++ [e], by simp, hx,
          guarded_append.mpr ⟨hbetween, hidles, trivial⟩⟩

/-- Only what was asked for last is taken. -/
theorem awaits_of_mem (h : Requester next asks processes delivers pending)
    (h0 : pending s = none) {e : Event} (hk : k ∈ delivers (runFrom next s events) e) :
    Awaits next asks processes s k events := by
  rcases h.taken (runFrom next s events) e with hnone | ⟨k', hone, -, hp, -⟩
  · rw [hnone] at hk
    cases hk
  · rw [hone, List.mem_singleton] at hk
    exact h.awaits h0 (hk ▸ hp)

variable [DecidableEq Kind]

/-- Every delivery uses up a request. -/
theorem count_delivers (h : Requester next asks processes delivers pending) (s : State)
    (e : Event) (k : Kind) :
    (delivers s e).count k + (if pending (next s e) = some k then 1 else 0) ≤
      (if asks e = some k then 1 else 0) + if pending s = some k then 1 else 0 := by
  rcases h.taken s e with hnone | ⟨k', hone, -, hp, hidle⟩
  · rw [hnone, List.count_nil, Nat.zero_add]
    cases he : asks e with
    | some k' =>
      rcases h.asked s e k' he with hp | hp
      · rw [hp]
        exact Nat.le_add_right _ _
      · simp [hp]
    | none =>
      rcases h.kept s e he with hp | ⟨hp, -⟩
      · simp [hp]
      · simp [hp]
  · rw [hone, hidle, hp, List.count_singleton]
    by_cases hk : k' = k
    · simp [hk]
    · simp [hk]

theorem deliveries_add_le (h : Requester next asks processes delivers pending) (s : State)
    (events : List Event) (k : Kind) :
    deliveries next delivers k s events +
        (if pending (runFrom next s events) = some k then 1 else 0) ≤
      requests asks k events + if pending s = some k then 1 else 0 := by
  induction events generalizing s with
  | nil =>
    simp only [deliveries, requests, runFrom_nil, List.countP_nil]
    exact Nat.le_refl _
  | cons e events ih =>
    have hstep := h.count_delivers s e k
    have hrest := ih (next s e)
    have hrun : runFrom next s (e :: events) = runFrom next (next s e) events := rfl
    have hreq : requests asks k (e :: events) =
        requests asks k events + if asks e = some k then 1 else 0 := by
      simp [requests, List.countP_cons]
    rw [hrun, hreq, deliveries]
    omega

theorem deliveries_le (h : Requester next asks processes delivers pending)
    (h0 : pending s = none) : deliveries next delivers k s events ≤ requests asks k events := by
  have hle := h.deliveries_add_le s events k
  rw [h0, if_neg (Option.some_ne_none k).symm] at hle
  omega

end Requester

end Requester
end XChain
