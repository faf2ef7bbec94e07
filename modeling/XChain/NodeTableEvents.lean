import XChain.AdjacentDuplicates
import XChain.Assoc
import XChain.NodeTable

/-!
# Events of the node table

The table appends its events to a handler, and the handler is asked from time to time to pass them
on. It keeps the nodes in the order of their events and one event for each node, the last one.
-/
namespace XChain
namespace P2P

/-- The nodes that events were appended for, and the last event of each. -/
structure NodeTableEventHandler where
  m_nodeEventHandler : List Public
  m_events : AList fun _ : Public => NodeTableEventType

namespace NodeTableEventHandler

/-- What is passed on: a node and an event. -/
abbrev Event := Public × NodeTableEventType

def empty : NodeTableEventHandler := ⟨[], ∅⟩

variable (h : NodeTableEventHandler)

def appendEvent (n : Public) (e : NodeTableEventType) : NodeTableEventHandler :=
  ⟨h.m_nodeEventHandler ++ [n], h.m_events.insert n e⟩

/-- Passes the events on and forgets them. Of a node that follows itself only one is kept; for a
node without an event there would be the event of number zero. -/
def processEvents : List Event × NodeTableEventHandler :=
  if h.m_nodeEventHandler.isEmpty then ([], h)
  else
    ((h.m_nodeEventHandler.destutter (· ≠ ·)).map fun n =>
      (n, (h.m_events.lookup n).getD .NodeEntryAdded), empty)

/-- A call of the table or of its owner. -/
inductive Call where
  | appendEvent (n : Public) (e : NodeTableEventType)
  | processEvents

/-- What each `processEvents` passes on, and the handler behind it. -/
def run (h : NodeTableEventHandler) : List Call → List (List Event × NodeTableEventHandler)
  | [] => []
  | .appendEvent n e :: calls => run (h.appendEvent n e) calls
  | .processEvents :: calls => h.processEvents :: run h.processEvents.2 calls

section Specification

/-- The events that are appended before each `processEvents` and behind the one before. -/
def batches (pending : List Event) : List Call → List (List Event)
  | [] => []
  | .appendEvent n e :: calls => batches (pending ++ [(n, e)]) calls
  | .processEvents :: calls => pending :: batches [] calls

/-- What is passed on of some events: each of their nodes once, in the order in which the nodes
come first, with the last event of the node. Nothing stays behind. -/
structure Delivers (batch : List Event) (r : List Event × NodeTableEventHandler) : Prop where
  nodes : r.1.map Prod.fst = (batch.map Prod.fst).eraseDups
  latest : ∀ p ∈ r.1, lastOf p.1 batch = some p.2
  emptied : r.2 = empty

end Specification

/-- The handler after some events. -/
def ofEvents (events : List Event) : NodeTableEventHandler :=
  ⟨events.map Prod.fst, insertAll events ∅⟩

theorem appendEvent_ofEvents (events : List Event) (n : Public) (e : NodeTableEventType) :
    (ofEvents events).appendEvent n e = ofEvents (events ++ [(n, e)]) := by
  simp [ofEvents, appendEvent, insertAll_append]

@[simp] theorem processEvents_snd (events : List Event) :
    (ofEvents events).processEvents.2 = empty := by
  cases events with
  | nil => rfl
  | cons e events => rfl

theorem processEvents_nodes (events : List Event) :
    (ofEvents events).processEvents.1.map Prod.fst =
      (events.map Prod.fst).destutter (· ≠ ·) := by
  cases events with
  | nil => rfl
  | cons e events => simp [ofEvents, processEvents, Function.comp_def]

/-- The event that is passed on for a node is its last one. -/
theorem processEvents_latest {events : List Event} {p : Event}
    (hp : p ∈ (ofEvents events).processEvents.1) : lastOf p.1 events = some p.2 := by
  have hnode : p.1 ∈ events.map Prod.fst := by
    have hmem := List.mem_map_of_mem (f := Prod.fst) hp
    rw [processEvents_nodes] at hmem
    exact mem_destutter_ne.mp hmem
  obtain ⟨⟨n, e⟩, hev, heq⟩ := List.mem_map.mp hnode
  obtain ⟨v, hv⟩ := Option.isSome_iff_exists.mp (lastOf_isSome (k := p.1) (v := e)
    (by rw [← heq]; exact hev))
  cases events with
  | nil => cases hev
  | cons c events =>
    have hlist : (ofEvents (c :: events)).processEvents.1 =
        ((ofEvents (c :: events)).m_nodeEventHandler.destutter (· ≠ ·)).map fun n =>
          (n, ((ofEvents (c :: events)).m_events.lookup n).getD .NodeEntryAdded) := rfl
    rw [hlist, List.mem_map] at hp
    obtain ⟨m, -, rfl⟩ := hp
    have hlook : (ofEvents (c :: events)).m_events.lookup m = some v := by
      simp only [ofEvents, lookup_insertAll, hv, Option.some_or]
    rw [hlook, hv]
    rfl

theorem delivers_iff (events : List Event) :
    Delivers events (ofEvents events).processEvents ↔ Together (events.map Prod.fst) := by
  rw [← destutter_eq_eraseDups_iff, ← processEvents_nodes]
  constructor
  · intro h
    exact h.nodes
  · intro h
    exact ⟨h, fun p hp => processEvents_latest hp, processEvents_snd events⟩

theorem run_ofEvents (pending : List Event) (calls : List Call) :
    List.Forall₂ Delivers (batches pending calls) (run (ofEvents pending) calls) ↔
      ∀ batch ∈ batches pending calls, Together (batch.map Prod.fst) := by
  induction calls generalizing pending with
  | nil => simp [batches, run]
  | cons c calls ih =>
    cases c with
    | appendEvent n e =>
      rw [batches, run, appendEvent_ofEvents]
      exact ih _
    | processEvents =>
      have hrest : run (ofEvents pending).processEvents.2 calls = run (ofEvents []) calls := by
        rw [processEvents_snd]
        rfl
      rw [batches, run, List.forall₂_cons, List.forall_mem_cons, hrest, ih, delivers_iff]

/-- In a run from the empty handler, every `processEvents` passes on what it is to exactly where
the events for a node follow each other, without one for another node between them. -/
theorem run_delivers_iff (calls : List Call) :
    List.Forall₂ Delivers (batches [] calls) (run empty calls) ↔
      ∀ batch ∈ batches [] calls, Together (batch.map Prod.fst) :=
  run_ofEvents [] calls

/-- A node is added, and dropped after another one was added. -/
def addedTwiceDropped : List Call :=
  [.appendEvent (.zero 64) .NodeEntryAdded,
    .appendEvent (.ofRef 64 (List.replicate 64 1)) .NodeEntryAdded,
    .appendEvent (.zero 64) .NodeEntryDropped, .processEvents]

/-- The node is passed on as dropped, twice. -/
theorem not_delivers_between :
    ¬List.Forall₂ Delivers (batches [] addedTwiceDropped) (run empty addedTwiceDropped) := by
  intro h
  have hfirst := (List.forall₂_cons.mp h).1.nodes
  exact absurd hfirst (by decide)

end NodeTableEventHandler

/-- The events of a table, as its handler has them. -/
def NodeTable.handler (t : NodeTable) : NodeTableEventHandler := .ofEvents t.events

theorem NodeTable.handler_appendEvent (t : NodeTable) (n : Public) (e : NodeTableEventType) :
    (t.appendEvent n e).handler = t.handler.appendEvent n e :=
  (NodeTableEventHandler.appendEvent_ofEvents t.events n e).symm

end P2P
end XChain
