import Mathlib.Data.Finset.Basic
import XChain.NearestNodes
import XChain.Waits

/-!
# The search for nodes

From time to time the table searches for nodes near a random id. A search goes in rounds: the
three nearest nodes that it has not tried are asked, and a timer starts the next round. The
table changes meanwhile, by the answers too, which are taken only from nodes that were asked
a short time before.
-/
namespace XChain

namespace P2P

/-- Denoted by α in Kademlia: how many requests are sent in a round. -/
def s_alpha : ℕ := 3

/-- Rounds of a search, the logarithm of the bits of an id. -/
def s_maxSteps : ℕ := 8

/-- What the timer of the search starts: a new search, or a round with the nodes tried before. -/
inductive DiscoveryTimer where
  | ended
  | doDiscovery
  | doDiscover (node : Public) (round : ℕ) (tried : Finset ℕ)
  deriving DecidableEq

/-- A request for the nodes near a target, sent to an entry of the table. -/
structure FindNode where
  entry : ℕ
  id : Public
  endpoint : NodeIPEndpoint
  target : Public
  time : ℕ

/-- A table of nodes with its search, at the time of its last event. -/
structure NodeDiscovery where
  table : NodeTable
  timer : DiscoveryTimer := .doDiscovery
  m_findNodeTimeout : List (Public × ℕ) := []
  now : ℕ := 0

/-- A change of the table, the end of the wait of the timer, or a packet with neighbours. The
random id is that of a new search. -/
inductive DiscoveryAct where
  | table (op : NodeTable.Op)
  | timer (now : ℕ) (isStopped isOpen : Bool) (randNodeId : Public)
  | neighbours (now : ℕ) (sourceid : Public) (nodes : List (Public × NodeIPEndpoint))

def DiscoveryAct.isTimer : DiscoveryAct → Bool
  | .timer .. => true
  | _ => false

/-- The round that the timer starts. -/
def DiscoveryTimer.begins (randNodeId : Public) : DiscoveryTimer → Option (Public × ℕ × Finset ℕ)
  | .ended => none
  | .doDiscovery => some (randNodeId, 0, ∅)
  | .doDiscover node round tried => some (node, round, tried)

namespace NodeDiscovery

/-- The loop over the nearest nodes, with the room that is left. -/
def pick (tried : Finset ℕ) : ℕ → List ℕ → List ℕ
  | 0, _ | _, [] => []
  | room + 1, n :: nearest =>
    if n ∈ tried then pick tried (room + 1) nearest else n :: pick tried room nearest

variable (sha3 : Bytes → FixedHash 32) (test_allowLocal : Bool) (s : NodeDiscovery)

/-- The walk stays in bounds, so there are always nearest nodes. -/
def nearest (node : Public) : List ℕ :=
  (s.table.nearestNodeEntries sha3 node test_allowLocal).getD []

/-- What `doDiscover` sends, where it neither returns at once nor has come to its last round. -/
def requests (now : ℕ) (node : Public) (tried : Finset ℕ) : List FindNode :=
  (pick tried s_alpha (s.nearest sha3 test_allowLocal node)).map fun n =>
    ⟨n, (s.table.entries n).id, (s.table.entries n).endpoint, node, now⟩

/-- The requests are noted, and the timer of the next round is started. -/
def after (node : Public) (round : ℕ) (tried : Finset ℕ) (sent : List FindNode) : NodeDiscovery :=
  { s with
    timer := .doDiscover node (round + 1) (tried ∪ (sent.map FindNode.entry).toFinset)
    m_findNodeTimeout := s.m_findNodeTimeout ++ sent.map fun p => (p.id, p.time) }

def doDiscover (now : ℕ) (isOpen : Bool) (node : Public) (round : ℕ) (tried : Finset ℕ) :
    NodeDiscovery × List FindNode :=
  if !isOpen then ({ s with timer := .ended }, [])
  else if round = s_maxSteps then ({ s with timer := .doDiscovery }, [])
  else
    let sent := s.requests sha3 test_allowLocal now node tried
    if sent = [] then ({ s with timer := .doDiscovery }, [])
    else (s.after node round tried sent, sent)

/-- The timer is over. -/
def onTimer (now : ℕ) (isStopped isOpen : Bool) (randNodeId : Public) :
    NodeDiscovery × List FindNode :=
  match s.timer.begins randNodeId with
  | none => (s, [])
  | some (node, round, tried) =>
    if isStopped then ({ s with timer := .ended }, [])
    else s.doDiscover sha3 test_allowLocal now isOpen node round tried

/-- The sender was asked a short time ago. -/
def expected (now : ℕ) (sourceid : Public) : Bool :=
  s.m_findNodeTimeout.any fun t => t.1 = sourceid ∧ now < t.2 + c_reqTimeout

/-- The requests to the sender that are too old are forgotten, and what an expected packet
brings is added to the table. -/
def onNeighbours (now : ℕ) (sourceid : Public) (nodes : List (Public × NodeIPEndpoint)) :
    NodeDiscovery :=
  let kept := s.m_findNodeTimeout.filter fun t => t.1 = sourceid → now < t.2 + c_reqTimeout
  { s with
    m_findNodeTimeout := kept
    table := if s.expected now sourceid then nodes.foldl (fun t n => t.addNode n.1 n.2) s.table
      else s.table }

def step (a : DiscoveryAct) : NodeDiscovery :=
  match a with
  | .table op => { s with table := (s.table.step sha3 test_allowLocal op).getD s.table }
  | .timer now isStopped isOpen randNodeId =>
    { (s.onTimer sha3 test_allowLocal now isStopped isOpen randNodeId).1 with now := now }
  | .neighbours now sourceid nodes => { s.onNeighbours now sourceid nodes with now := now }

/-- What a step sends. -/
def sent : DiscoveryAct → List FindNode
  | .table _ | .neighbours .. => []
  | .timer now isStopped isOpen randNodeId =>
    (s.onTimer sha3 test_allowLocal now isStopped isOpen randNodeId).2

/-- The table stays in its bounds, and the clock does not go back. -/
def Enabled : DiscoveryAct → Prop
  | .table op => (s.table.step sha3 test_allowLocal op).isSome
  | .timer now .. | .neighbours now .. => s.now ≤ now

instance (s : NodeDiscovery) : ∀ a, Decidable (Enabled sha3 test_allowLocal s a)
  | .table _ => inferInstanceAs (Decidable (_ = true))
  | .timer .. | .neighbours .. => inferInstanceAs (Decidable (_ ≤ _))

section Steps

variable {sha3 : Bytes → FixedHash 32} {test_allowLocal : Bool} {s s' : NodeDiscovery}
  {a : DiscoveryAct} {ops : List DiscoveryAct} {node target : Public} {tried : Finset ℕ}
  {l : List ℕ} {now round : ℕ} {isOpen : Bool}

theorem pick_eq (room : ℕ) : pick tried room l = (l.filter (· ∉ tried)).take room := by
  induction l generalizing room with
  | nil => cases room <;> rfl
  | cons n l ih =>
    cases room with
    | zero => rfl
    | succ room =>
      by_cases hn : n ∈ tried
      · rw [pick, if_pos hn, ih, List.filter_cons_of_neg (by simpa using hn)]
      · rw [pick, if_neg hn, ih, List.filter_cons_of_pos (by simpa using hn), List.take_succ_cons]

theorem requests_entry : (s.requests sha3 test_allowLocal now node tried).map FindNode.entry =
    ((s.nearest sha3 test_allowLocal node).filter (· ∉ tried)).take s_alpha := by
  rw [requests, List.map_map, ← pick_eq]
  exact List.map_id _

theorem length_requests : (s.requests sha3 test_allowLocal now node tried).length ≤ s_alpha := by
  rw [← List.length_map (f := FindNode.entry), requests_entry]
  exact List.length_take_le _ _

/-- The buckets are as they should be, so a node is not among the nearest ones twice. -/
def Orderly (sha3 : Bytes → FixedHash 32) (t : NodeTable) : Prop := t.Held ∧ t.Buckets sha3

theorem Orderly.nodup_nearest (h : Orderly sha3 s.table) (node : Public) :
    (s.nearest sha3 test_allowLocal node).Nodup ∧
      (s.nearest sha3 test_allowLocal node).length ≤ s_bucketSize := by
  obtain ⟨order, horder, -, hret⟩ :=
    NodeTable.nearestNodeEntries_eq sha3 s.table node test_allowLocal
  have hperm : (byKey (s.table.distanceOf sha3 node) (s.table.servable test_allowLocal order)
      256).Perm (s.table.servable test_allowLocal order) := by
    apply byKey_perm
    intro n _
    have hle := NodeTable.distance_le sha3 node (s.table.entries n).id
    rw [NodeTable.distanceOf]
    omega
  have hnodup : (s.table.servable test_allowLocal order).Nodup := by
    obtain ⟨order', hperm', hsub⟩ : order.Subperm (List.finRange s_bins) :=
      horder.subperm fun i _ => List.mem_finRange i
    rw [← (NodeTable.servable_perm hperm').nodup_iff]
    exact h.2.liveAllowed_nodup.sublist ((hsub.flatMap _).filter _)
  rw [nearest, hret, Option.getD_some]
  exact ⟨(hperm.nodup_iff.mpr hnodup).sublist (List.take_sublist _ _), List.length_take_le _ _⟩

theorem Orderly.step {t t' : NodeTable} {op : NodeTable.Op} (h : Orderly sha3 t)
    (hstep : t.step sha3 test_allowLocal op = some t') : Orderly sha3 t' :=
  NodeTable.step_buckets h.1 h.2 hstep

theorem Orderly.addNodes {t : NodeTable} (h : Orderly sha3 t)
    (nodes : List (Public × NodeIPEndpoint)) :
    Orderly sha3 (nodes.foldl (fun t n => t.addNode n.1 n.2) t) := by
  induction nodes generalizing t with
  | nil => exact h
  | cons n nodes ih =>
    have hadd : t.step sha3 false (.addNode n.1 n.2) = some (t.addNode n.1 n.2) := rfl
    exact ih (h.step hadd)

/-! ### One round -/

/-- A round sends nothing and ends the search, or sends requests and starts the timer again. -/
theorem doDiscover_cases :
    (isOpen = false ∧
        s.doDiscover sha3 test_allowLocal now isOpen node round tried =
          ({ s with timer := .ended }, [])) ∨
      (isOpen = true ∧ (round = s_maxSteps ∨
          s.requests sha3 test_allowLocal now node tried = []) ∧
        s.doDiscover sha3 test_allowLocal now isOpen node round tried =
          ({ s with timer := .doDiscovery }, [])) ∨
      (isOpen = true ∧ round ≠ s_maxSteps ∧
        s.doDiscover sha3 test_allowLocal now isOpen node round tried =
          (s.after node round tried (s.requests sha3 test_allowLocal now node tried),
            s.requests sha3 test_allowLocal now node tried)) := by
  unfold doDiscover
  cases isOpen with
  | false => exact Or.inl ⟨rfl, rfl⟩
  | true =>
    right
    by_cases hround : round = s_maxSteps
    · exact Or.inl ⟨rfl, Or.inl hround, by simp [hround]⟩
    by_cases hsent : s.requests sha3 test_allowLocal now node tried = []
    · exact Or.inl ⟨rfl, Or.inr hsent, by simp [hsent]⟩
    · exact Or.inr ⟨rfl, hround, by simp [hround, hsent, after]⟩

/-- The timer stops the search, or one round follows. -/
theorem onTimer_cases {isStopped : Bool} {randNodeId : Public} :
    s.onTimer sha3 test_allowLocal now isStopped isOpen randNodeId =
        ({ s with timer := .ended }, []) ∨
      isStopped = false ∧ ∃ node round tried,
        s.timer.begins randNodeId = some (node, round, tried) ∧
        s.onTimer sha3 test_allowLocal now isStopped isOpen randNodeId =
          s.doDiscover sha3 test_allowLocal now isOpen node round tried := by
  obtain ⟨table, timer, timeouts, time⟩ := s
  cases timer with
  | ended => exact Or.inl rfl
  | doDiscovery =>
    cases isStopped with
    | true => exact Or.inl rfl
    | false => exact Or.inr ⟨rfl, _, _, _, rfl, rfl⟩
  | doDiscover node round tried =>
    cases isStopped with
    | true => exact Or.inl rfl
    | false => exact Or.inr ⟨rfl, _, _, _, rfl, rfl⟩

variable {isStopped : Bool} {randNodeId : Public}

theorem onTimer_table :
    (s.onTimer sha3 test_allowLocal now isStopped isOpen randNodeId).1.table = s.table := by
  rcases onTimer_cases with hend | ⟨-, node, round, tried, -, hround⟩
  · rw [hend]
  · rw [hround]
    rcases doDiscover_cases with ⟨-, hcase⟩ | ⟨-, -, hcase⟩ | ⟨-, -, hcase⟩ <;> rw [hcase]
    rfl

theorem nearest_step_timer : (s.step sha3 test_allowLocal (.timer now isStopped isOpen
    randNodeId)).nearest sha3 test_allowLocal node = s.nearest sha3 test_allowLocal node := by
  change ((s.onTimer sha3 test_allowLocal now isStopped isOpen
    randNodeId).1.table.nearestNodeEntries sha3 node test_allowLocal).getD [] = _
  rw [onTimer_table]
  rfl

/-- The requests are noted. -/
theorem onTimer_timeouts :
    (s.onTimer sha3 test_allowLocal now isStopped isOpen randNodeId).1.m_findNodeTimeout =
      s.m_findNodeTimeout ++ (s.onTimer sha3 test_allowLocal now isStopped isOpen
        randNodeId).2.map fun p => (p.id, p.time) := by
  rcases onTimer_cases with hend | ⟨-, node, round, tried, -, hround⟩
  · rw [hend, List.map_nil, List.append_nil]
  · rw [hround]
    rcases doDiscover_cases with ⟨-, hcase⟩ | ⟨-, -, hcase⟩ | ⟨-, -, hcase⟩ <;> rw [hcase]
    · rw [List.map_nil, List.append_nil]
    · rw [List.map_nil, List.append_nil]
    · rfl

theorem of_mem_requests {p : FindNode} (hp : p ∈ s.requests sha3 test_allowLocal now node tried) :
    p.target = node ∧ p.time = now ∧ p.entry ∉ tried := by
  have hentry := List.mem_map_of_mem (f := FindNode.entry) hp
  rw [requests_entry] at hentry
  obtain ⟨n, -, rfl⟩ := List.mem_map.mp hp
  exact ⟨rfl, rfl, by simpa using (List.mem_filter.mp (List.mem_of_mem_take hentry)).2⟩

/-- The nodes have their places in the table, and the rounds are counted. -/
structure Sound (sha3 : Bytes → FixedHash 32) (s : NodeDiscovery) : Prop where
  table : Orderly sha3 s.table
  rounds : ∀ node round tried, s.timer = .doDiscover node round tried → round ≤ s_maxSteps

theorem doDiscover_rounds (hround : round ≤ s_maxSteps) {node' : Public} {round' : ℕ}
    {tried' : Finset ℕ} (htimer : (s.doDiscover sha3 test_allowLocal now isOpen node round
      tried).1.timer = .doDiscover node' round' tried') : round' ≤ s_maxSteps := by
  rcases doDiscover_cases with ⟨-, hcase⟩ | ⟨-, -, hcase⟩ | ⟨-, hne, hcase⟩ <;>
    rw [hcase] at htimer
  · cases htimer
  · cases htimer
  · cases htimer
    omega

theorem begins_rounds (hs : Sound sha3 s) {randNodeId : Public}
    (hbegins : s.timer.begins randNodeId = some (node, round, tried)) : round ≤ s_maxSteps := by
  cases htimer : s.timer with
  | ended =>
    rw [htimer] at hbegins
    cases hbegins
  | doDiscovery =>
    rw [htimer] at hbegins
    cases hbegins
    exact Nat.zero_le _
  | doDiscover node' round' tried' =>
    rw [htimer] at hbegins
    cases hbegins
    exact hs.rounds _ _ _ htimer

theorem Sound.step (hs : Sound sha3 s) (ha : Enabled sha3 test_allowLocal s a) :
    Sound sha3 (s.step sha3 test_allowLocal a) := by
  cases a with
  | table op =>
    obtain ⟨t, ht⟩ := Option.isSome_iff_exists.mp ha
    have htable : (s.step sha3 test_allowLocal (.table op)).table = t := by
      rw [NodeDiscovery.step, ht, Option.getD_some]
    exact ⟨htable ▸ hs.table.step ht, hs.rounds⟩
  | timer now isStopped isOpen randNodeId =>
    refine ⟨?_, fun node round tried htimer => ?_⟩
    · change Orderly sha3 (s.onTimer sha3 test_allowLocal now isStopped isOpen randNodeId).1.table
      rw [onTimer_table]
      exact hs.table
    · change (s.onTimer sha3 test_allowLocal now isStopped isOpen randNodeId).1.timer = _ at htimer
      rcases onTimer_cases with hend | ⟨-, node', round', tried', hbegins, hround⟩
      · rw [hend] at htimer
        cases htimer
      · rw [hround] at htimer
        exact doDiscover_rounds (begins_rounds hs hbegins) htimer
  | neighbours now sourceid nodes =>
    refine ⟨?_, hs.rounds⟩
    change Orderly sha3 (if s.expected now sourceid then _ else _)
    split_ifs
    · exact hs.table.addNodes nodes
    · exact hs.table

/-! ### The requests of a search -/

/-- What a search may still send: nothing to the nodes that were tried, nothing twice, and no
more than the rounds that are left allow. -/
def Quota : DiscoveryTimer → List FindNode → Prop
  | .doDiscover node round tried, sent =>
    (sent.map FindNode.entry).Nodup ∧ (∀ p ∈ sent, p.entry ∉ tried ∧ p.target = node) ∧
      sent.length + s_alpha * round ≤ s_alpha * s_maxSteps
  | _, sent => sent = []

theorem quota_nil {t : DiscoveryTimer}
    (h : ∀ node round tried, t = .doDiscover node round tried → round ≤ s_maxSteps) :
    Quota t [] := by
  cases t with
  | ended => rfl
  | doDiscovery => rfl
  | doDiscover node round tried =>
    refine ⟨List.nodup_nil, nofun, ?_⟩
    have hround := h node round tried rfl
    rw [List.length_nil, Nat.zero_add]
    exact Nat.mul_le_mul_left _ hround

/-- A round takes its part of the quota. -/
theorem quota_doDiscover (hs : Orderly sha3 s.table) (hround : round ≤ s_maxSteps)
    {rest : List FindNode} (hrest : Quota (s.doDiscover sha3 test_allowLocal now isOpen node round
      tried).1.timer rest) :
    Quota (.doDiscover node round tried)
      ((s.doDiscover sha3 test_allowLocal now isOpen node round tried).2 ++ rest) := by
  have hnone : Quota (.doDiscover node round tried) [] := by
    apply quota_nil
    rintro _ _ _ ⟨⟩
    exact hround
  rcases doDiscover_cases with ⟨-, hcase⟩ | ⟨-, -, hcase⟩ | ⟨-, hne, hcase⟩ <;>
    rw [hcase] at hrest ⊢
  · rw [show rest = [] from hrest]
    exact hnone
  · rw [show rest = [] from hrest]
    exact hnone
  · obtain ⟨hnodup, hfresh, hlength⟩ := hrest
    have hsent : ((s.requests sha3 test_allowLocal now node tried).map FindNode.entry).Nodup := by
      rw [requests_entry]
      exact ((hs.nodup_nearest node).1.filter _).sublist (List.take_sublist _ _)
    refine ⟨?_, fun p hp => ?_, ?_⟩
    · rw [List.map_append]
      apply hsent.append hnodup
      intro n hn hn'
      obtain ⟨p, hp, rfl⟩ := List.mem_map.mp hn'
      exact (hfresh p hp).1 (Finset.mem_union_right _ (List.mem_toFinset.mpr hn))
    · rcases List.mem_append.mp hp with hp | hp
      · exact ⟨(of_mem_requests hp).2.2, (of_mem_requests hp).1⟩
      · exact ⟨fun htried => (hfresh p hp).1 (Finset.mem_union_left _ htried), (hfresh p hp).2⟩
    · have hfew : (s.requests sha3 test_allowLocal now node tried).length ≤ s_alpha :=
        length_requests
      rw [Nat.mul_add] at hlength
      simp only [List.length_append]
      omega

variable (sha3 test_allowLocal) in
/-- No other search is begun. -/
def Searching (s : NodeDiscovery) (a : DiscoveryAct) : Prop :=
  Enabled sha3 test_allowLocal s a ∧ (a.isTimer → s.timer ≠ .doDiscovery)

instance (s : NodeDiscovery) (a : DiscoveryAct) :
    Decidable (Searching sha3 test_allowLocal s a) := inferInstanceAs (Decidable (_ ∧ _))

theorem quota_step (hs : Sound sha3 s) (ha : Searching sha3 test_allowLocal s a)
    {rest : List FindNode} (hrest : Quota (s.step sha3 test_allowLocal a).timer rest) :
    Quota s.timer (s.sent sha3 test_allowLocal a ++ rest) := by
  cases a with
  | table op => exact hrest
  | neighbours now sourceid nodes => exact hrest
  | timer now isStopped isOpen randNodeId =>
    change Quota (s.onTimer sha3 test_allowLocal now isStopped isOpen randNodeId).1.timer rest
      at hrest
    change Quota s.timer
      ((s.onTimer sha3 test_allowLocal now isStopped isOpen randNodeId).2 ++ rest)
    rcases onTimer_cases with hend | ⟨-, node, round, tried, hbegins, hround⟩
    · rw [hend] at hrest ⊢
      rw [show rest = [] from hrest]
      exact quota_nil hs.rounds
    · rw [hround] at hrest ⊢
      cases htimer : s.timer with
      | ended =>
        rw [htimer] at hbegins
        cases hbegins
      | doDiscovery => exact absurd htimer (ha.2 rfl)
      | doDiscover node' round' tried' =>
        rw [htimer] at hbegins
        cases hbegins
        exact quota_doDiscover hs.table (hs.rounds _ _ _ htimer) hrest

theorem quota_outputs (hs : Sound sha3 s)
    (hops : Guarded (step sha3 test_allowLocal) (Searching sha3 test_allowLocal) s ops) :
    Quota s.timer (outputs (step sha3 test_allowLocal) (sent sha3 test_allowLocal) s ops) := by
  induction ops generalizing s with
  | nil => exact quota_nil hs.rounds
  | cons a ops ih =>
    obtain ⟨ha, hrest⟩ := hops
    exact quota_step hs ha (ih (hs.step ha.1) hrest)

/-- What a search still has to send while the nearest nodes stay the same. -/
def Ahead (node : Public) (l : List ℕ) : DiscoveryTimer → List ℕ → Prop
  | .ended, _ => False
  | .doDiscovery, left => left = []
  | .doDiscover node' round tried, left =>
    node' = node ∧ round ≤ s_maxSteps ∧ tried = (l.take (s_alpha * round)).toFinset ∧
      left = l.drop (s_alpha * round)

/-- The nodes that are not among the first ones. -/
theorem filter_take (hl : l.Nodup) (k : ℕ) : l.filter (· ∉ (l.take k).toFinset) = l.drop k := by
  have hsplit := List.take_append_drop k l
  have hdisjoint : (l.take k).Disjoint (l.drop k) := by
    rw [← hsplit] at hl
    exact List.disjoint_of_nodup_append hl
  conv_lhs => rw [← hsplit]
  rw [List.filter_append]
  have hfirst : (l.take k).filter (· ∉ (l.take k).toFinset) = [] := by
    rw [List.filter_eq_nil_iff]
    intro n hn
    simpa using hn
  have hrest : (l.drop k).filter (· ∉ (l.take k).toFinset) = l.drop k := by
    rw [List.filter_eq_self]
    intro n hn
    simpa using fun hn' => hdisjoint hn' hn
  rw [hsplit, hfirst, hrest, List.nil_append]

/-- A round asks the next three of them. -/
theorem ahead_doDiscover (hs : Orderly sha3 s.table) (hopen : isOpen = true)
    (hl : s.nearest sha3 test_allowLocal node = l) (hround : round ≤ s_maxSteps)
    (htried : tried = (l.take (s_alpha * round)).toFinset) :
    ∃ left, Ahead node l
        (s.doDiscover sha3 test_allowLocal now isOpen node round tried).1.timer left ∧
      l.drop (s_alpha * round) =
        (s.doDiscover sha3 test_allowLocal now isOpen node round tried).2.map FindNode.entry ++
          left := by
  obtain ⟨hnodup, hlength⟩ : l.Nodup ∧ l.length ≤ s_bucketSize := hl ▸ hs.nodup_nearest node
  have hrequests : (s.requests sha3 test_allowLocal now node tried).map FindNode.entry =
      (l.drop (s_alpha * round)).take s_alpha := by
    rw [requests_entry, hl, htried, filter_take hnodup]
  have hnext : (l.drop (s_alpha * round)).drop s_alpha = l.drop (s_alpha * (round + 1)) := by
    rw [List.drop_drop, Nat.mul_succ]
  rcases doDiscover_cases with ⟨hclosed, hcase⟩ | ⟨-, hend, hcase⟩ | ⟨-, hne, hcase⟩ <;> rw [hcase]
  · rw [hopen] at hclosed
    cases hclosed
  · refine ⟨[], rfl, ?_⟩
    rcases hend with hlast | hnone
    · -- All of the nearest nodes fit into the rounds.
      apply List.drop_eq_nil_of_le
      rw [hlast]
      exact hlength.trans (by decide)
    · rw [hnone] at hrequests
      rcases List.take_eq_nil_iff.mp hrequests.symm with hzero | hnil
      · cases hzero
      · exact hnil
  · refine ⟨l.drop (s_alpha * (round + 1)), ⟨rfl, by omega, ?_, rfl⟩, ?_⟩
    · rw [hrequests, htried, ← List.toFinset_append, Nat.mul_succ, List.take_add]
    · rw [hrequests, ← hnext, List.take_append_drop]

/-- The socket is open and the timers run. -/
def Runs : DiscoveryAct → Prop
  | .timer _ isStopped isOpen _ => isStopped = false ∧ isOpen = true
  | _ => True

instance : ∀ a, Decidable (Runs a)
  | .timer .. => inferInstanceAs (Decidable (_ ∧ _))
  | .table _ | .neighbours .. => inferInstanceAs (Decidable True)

theorem ahead_step (hs : Sound sha3 s) (ha : Searching sha3 test_allowLocal s a) (hruns : Runs a)
    (hl : s.nearest sha3 test_allowLocal node = l) {left : List ℕ}
    (hleft : Ahead node l s.timer left) :
    ∃ left', Ahead node l (s.step sha3 test_allowLocal a).timer left' ∧
      left = (s.sent sha3 test_allowLocal a).map FindNode.entry ++ left' := by
  cases a with
  | table op => exact ⟨left, hleft, rfl⟩
  | neighbours now sourceid nodes => exact ⟨left, hleft, rfl⟩
  | timer now isStopped isOpen randNodeId =>
    obtain ⟨hgo, hopen⟩ := hruns
    cases htimer : s.timer with
    | ended =>
      rw [htimer] at hleft
      exact hleft.elim
    | doDiscovery => exact absurd htimer (ha.2 rfl)
    | doDiscover node' round tried =>
      rw [htimer] at hleft
      obtain ⟨rfl, hround, htried, rfl⟩ := hleft
      have hstep : s.onTimer sha3 test_allowLocal now isStopped isOpen randNodeId =
          s.doDiscover sha3 test_allowLocal now isOpen node' round tried := by
        unfold onTimer
        rw [htimer, hgo]
        rfl
      change ∃ left', Ahead node' l
          (s.onTimer sha3 test_allowLocal now isStopped isOpen randNodeId).1.timer left' ∧
        _ = (s.onTimer sha3 test_allowLocal now isStopped isOpen randNodeId).2.map _ ++ left'
      rw [hstep]
      exact ahead_doDiscover hs.table hopen hl hround htried

theorem ahead_run (hs : Sound sha3 s) {left : List ℕ}
    (hops : Guarded (step sha3 test_allowLocal)
      (fun s a => Searching sha3 test_allowLocal s a ∧ Runs a) s ops)
    (hstill : Throughout (step sha3 test_allowLocal)
      (fun s => s.nearest sha3 test_allowLocal node = l) s ops)
    (hleft : Ahead node l s.timer left) :
    ∃ left', Ahead node l (runFrom (step sha3 test_allowLocal) s ops).timer left' ∧
      left = (outputs (step sha3 test_allowLocal) (sent sha3 test_allowLocal) s ops).map
        FindNode.entry ++ left' := by
  induction ops generalizing s left with
  | nil => exact ⟨left, hleft, rfl⟩
  | cons a ops ih =>
    obtain ⟨⟨ha, hruns⟩, hrest⟩ := hops
    obtain ⟨hl, hlater⟩ := throughout_cons.mp hstill
    obtain ⟨left₁, hleft₁, rfl⟩ := ahead_step hs ha hruns hl hleft
    obtain ⟨left₂, hleft₂, rfl⟩ := ih (hs.step ha.1) hrest hlater hleft₁
    refine ⟨left₂, hleft₂, ?_⟩
    rw [outputs, List.map_append, List.append_assoc]

/-! ### The requests that are remembered -/

/-- The remembered requests are among those that were sent, and no recent one is missing. -/
structure Remembered (history : List FindNode) (s : NodeDiscovery) : Prop where
  sent : ∀ t ∈ s.m_findNodeTimeout, ∃ p ∈ history, (p.id, p.time) = t
  recent : ∀ p ∈ history, s.now < p.time + c_reqTimeout → (p.id, p.time) ∈ s.m_findNodeTimeout

variable {history : List FindNode} {sourceid : Public}

theorem Remembered.step (h : Remembered history s) (ha : Enabled sha3 test_allowLocal s a) :
    Remembered (history ++ s.sent sha3 test_allowLocal a) (s.step sha3 test_allowLocal a) := by
  cases a with
  | table op =>
    rw [NodeDiscovery.sent, List.append_nil]
    exact ⟨h.sent, h.recent⟩
  | timer now isStopped isOpen randNodeId =>
    have hnow : s.now ≤ now := ha
    constructor
    · intro t ht
      change t ∈ (s.onTimer sha3 test_allowLocal now isStopped isOpen
        randNodeId).1.m_findNodeTimeout at ht
      rw [onTimer_timeouts] at ht
      rcases List.mem_append.mp ht with hold | hnew
      · obtain ⟨p, hp, hpt⟩ := h.sent t hold
        exact ⟨p, List.mem_append_left _ hp, hpt⟩
      · obtain ⟨p, hp, hpt⟩ := List.mem_map.mp hnew
        exact ⟨p, List.mem_append_right _ hp, hpt⟩
    · intro p hp hlate
      change (p.id, p.time) ∈
        (s.onTimer sha3 test_allowLocal now isStopped isOpen randNodeId).1.m_findNodeTimeout
      have hlate' : now < p.time + c_reqTimeout := hlate
      rw [onTimer_timeouts]
      rcases List.mem_append.mp hp with hold | hnew
      · exact List.mem_append_left _ (h.recent p hold (by omega))
      · exact List.mem_append_right _ (List.mem_map.mpr ⟨p, hnew, rfl⟩)
  | neighbours now sourceid nodes =>
    have hnow : s.now ≤ now := ha
    rw [NodeDiscovery.sent, List.append_nil]
    constructor
    · intro t ht
      exact h.sent t (List.mem_of_mem_filter ht)
    · intro p hp hlate
      have hlate' : now < p.time + c_reqTimeout := hlate
      exact List.mem_filter.mpr ⟨h.recent p hp (by omega), decide_eq_true fun _ => hlate'⟩

theorem Remembered.run (h : Remembered history s)
    (hops : Guarded (NodeDiscovery.step sha3 test_allowLocal) (Enabled sha3 test_allowLocal)
      s ops) :
    Remembered (history ++ outputs (NodeDiscovery.step sha3 test_allowLocal)
        (NodeDiscovery.sent sha3 test_allowLocal) s ops)
      (runFrom (NodeDiscovery.step sha3 test_allowLocal) s ops) := by
  induction ops generalizing s history with
  | nil =>
    rw [outputs, List.append_nil]
    exact h
  | cons a ops ih =>
    rw [outputs, ← List.append_assoc]
    exact ih (h.step hops.1) hops.2

theorem Remembered.expected_iff (h : Remembered history s) (hnow : s.now ≤ now) :
    s.expected now sourceid = true ↔
      ∃ p ∈ history, p.id = sourceid ∧ now < p.time + c_reqTimeout := by
  rw [expected, List.any_eq_true]
  constructor
  · rintro ⟨t, ht, hrecent⟩
    obtain ⟨p, hp, rfl⟩ := h.sent t ht
    exact ⟨p, hp, of_decide_eq_true hrecent⟩
  · rintro ⟨p, hp, hid, hrecent⟩
    exact ⟨_, h.recent p hp (by omega), decide_eq_true ⟨hid, hrecent⟩⟩

/-! ### Runs of the table -/

variable {own : Public} {nodes : List (Public × NodeIPEndpoint)}

/-- The table has no nodes yet, and the timer of the first search is on. -/
def start (own : Public) : NodeDiscovery := { table := .init own }

variable (sha3 test_allowLocal) in
def Reachable (own : Public) : NodeDiscovery → Prop :=
  ReachableFrom (step sha3 test_allowLocal) (Enabled sha3 test_allowLocal) (start own)

theorem Reachable.sound (hs : Reachable sha3 test_allowLocal own s) : Sound sha3 s :=
  ReachableFrom.invariant hs (fun _ _ hs ha => hs.step ha)
    ⟨⟨NodeTable.held_init own, NodeTable.buckets_init own⟩, nofun⟩

theorem onTimer_begins (hstart : s.timer = .doDiscovery) :
    s.onTimer sha3 test_allowLocal now false isOpen node =
      s.doDiscover sha3 test_allowLocal now isOpen node 0 ∅ := by
  unfold onTimer
  rw [hstart]
  rfl

/-- A table with one node. -/
def oneNode : NodeDiscovery :=
  runFrom (step NodeTable.firstHalf false) (start (.zero 64)) [.table NodeTable.addNear]

theorem reachable_oneNode : Reachable NodeTable.firstHalf false (.zero 64) oneNode :=
  ⟨[.table NodeTable.addNear], by decide +kernel, rfl⟩

/-- What comes while the node has the request. -/
def answered : List DiscoveryAct :=
  [.neighbours 1 NodeTable.nearId [(NodeTable.awayId, NodeTable.publicEndpoint)],
    .table (NodeTable.addFar 1)]

/-- While the nearest nodes stay the same, a search asks them in their order, and when it is over
it has asked all of them. -/
theorem sent_of_still (hs : Reachable sha3 test_allowLocal own s)
    (hstart : s.timer = .doDiscovery) (hnow : s.now ≤ now)
    (hops : Guarded (step sha3 test_allowLocal)
      (fun s a => Searching sha3 test_allowLocal s a ∧ Runs a)
      (s.step sha3 test_allowLocal (.timer now false true node)) ops)
    (hstill : Throughout (step sha3 test_allowLocal)
      (fun s => s.nearest sha3 test_allowLocal node = l) s (.timer now false true node :: ops)) :
    let requests := outputs (step sha3 test_allowLocal) (sent sha3 test_allowLocal) s
      (.timer now false true node :: ops)
    requests.map FindNode.entry <+: l ∧
      ((runFrom (step sha3 test_allowLocal) s (.timer now false true node :: ops)).timer =
        .doDiscovery → requests.map FindNode.entry = l) := by
  obtain ⟨hl, hlater⟩ := throughout_cons.mp hstill
  obtain ⟨left, hleft, hsplit⟩ : ∃ left, Ahead node l
      (s.onTimer sha3 test_allowLocal now false true node).1.timer left ∧ l.drop (s_alpha * 0) =
        (s.onTimer sha3 test_allowLocal now false true node).2.map FindNode.entry ++ left := by
    rw [onTimer_begins hstart]
    exact ahead_doDiscover hs.sound.table rfl hl (Nat.zero_le _) rfl
  obtain ⟨left', hleft', rfl⟩ :=
    ahead_run (hs.sound.step (a := .timer now false true node) hnow) hops hlater hleft
  have hall : l = (outputs (step sha3 test_allowLocal) (sent sha3 test_allowLocal) s
      (.timer now false true node :: ops)).map FindNode.entry ++ left' := by
    rw [outputs, List.map_append, List.append_assoc]
    exact hsplit
  refine ⟨⟨left', hall.symm⟩, fun hend => ?_⟩
  have hnone : left' = [] := by
    change (runFrom (step sha3 test_allowLocal)
      (s.step sha3 test_allowLocal (.timer now false true node)) ops).timer = _ at hend
    rw [hend] at hleft'
    exact hleft'
  rw [hnone, List.append_nil] at hall
  exact hall.symm

theorem nearest_oneNode : oneNode.nearest NodeTable.firstHalf false (.zero 64) = [0] := by
  decide +kernel

/-- The search of a table with one node, which ends in its second round. -/
theorem sent_of_still_oneNode :
    let acts : List DiscoveryAct :=
      [.timer 0 false true (.zero 64), .timer (2 * c_reqTimeout) false true (.zero 64)]
    let requests := outputs (step NodeTable.firstHalf false) (sent NodeTable.firstHalf false)
      oneNode acts
    requests.map FindNode.entry <+: [0] ∧
      ((runFrom (step NodeTable.firstHalf false) oneNode acts).timer = .doDiscovery →
        requests.map FindNode.entry = [0]) := by
  apply sent_of_still reachable_oneNode rfl (Nat.zero_le _) (by decide +kernel)
  simp only [throughout_cons, throughout_nil, nearest_step_timer, nearest_oneNode, and_self]

end Steps

end NodeDiscovery

end P2P

end XChain
