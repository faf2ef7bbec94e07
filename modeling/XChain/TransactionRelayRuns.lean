import XChain.TransactionRelay

/-!
# Who gets a transaction

A transaction goes to a peer once, and once more only after the host has forgotten what it sent
or the peer has required transactions. A peer that keeps its session during the round in which a
transaction is new, and that has not sent it to the host itself, gets it in that round.
-/
namespace XChain

namespace Round

variable {Peer Tx : Type} (sha3 : Tx → H256) {plan : Peer → List Tx} {old : Bool} {p q : Peer}
  {sessions : List Peer} {h : H256}

/-- The transaction has been gone through, and the set of those sent before is still locked. -/
def Picked (h : H256) : Round Peer Tx → Prop
  | .select done _ _ => h ∈ done.map sha3
  | _ => False

/-- The round has still to come to a peer. -/
def Awaits (p : Peer) (old' : Bool) : Round Peer Tx → Prop
  | .idle => False
  | .select _ _ _ => True
  | .collect _ old => old = false ∨ old' = true
  | .serve _ old sessions => p ∈ sessions ∨ (old = false ∧ old' = true)
  | .settle _ old _ sessions => p ∈ sessions ∨ (old = false ∧ old' = true)

/-- What a peer requires is met in this round, as far as the transaction goes. -/
def Meets (p : Peer) (old' : Bool) (h : H256) : Round Peer Tx → Prop
  | .select done _ _ => h ∈ done.map sha3
  | .settle _ old q sessions => p = q ∨ p ∈ sessions ∨ (old = false ∧ old' = true)
  | r => r.Awaits p old'

/-- The transactions that the round has still to go through. -/
def upcoming : Round Peer Tx → List Tx
  | .select _ rest _ => rest
  | _ => []

/-- The protocol of the sessions that the round is going through. -/
def turn : Round Peer Tx → Option Bool
  | .serve _ old _ => some old
  | .settle _ old _ _ => some old
  | _ => none

instance (r : Round Peer Tx) : Decidable (r.Picked sha3 h) :=
  match r with
  | .select done _ _ => inferInstanceAs (Decidable (h ∈ done.map sha3))
  | .idle | .collect _ _ | .serve _ _ _ | .settle _ _ _ _ => inferInstanceAs (Decidable False)

instance [DecidableEq Peer] (old' : Bool) (r : Round Peer Tx) : Decidable (r.Awaits p old') :=
  match r with
  | .idle => inferInstanceAs (Decidable False)
  | .select _ _ _ => inferInstanceAs (Decidable True)
  | .collect _ old => inferInstanceAs (Decidable (old = false ∨ old' = true))
  | .serve _ old sessions | .settle _ old _ sessions =>
    inferInstanceAs (Decidable (p ∈ sessions ∨ (old = false ∧ old' = true)))

instance [DecidableEq Peer] (old' : Bool) (r : Round Peer Tx) : Decidable (r.Meets sha3 p old' h) :=
  match r with
  | .select done _ _ => inferInstanceAs (Decidable (h ∈ done.map sha3))
  | .settle _ old q sessions =>
    inferInstanceAs (Decidable (p = q ∨ p ∈ sessions ∨ (old = false ∧ old' = true)))
  | .idle => inferInstanceAs (Decidable False)
  | .collect _ old => inferInstanceAs (Decidable (old = false ∨ old' = true))
  | .serve _ old sessions =>
    inferInstanceAs (Decidable (p ∈ sessions ∨ (old = false ∧ old' = true)))

@[simp] theorem picked_select {done rest : List Tx} :
    (select done rest plan).Picked sha3 h ↔ h ∈ done.map sha3 := Iff.rfl

@[simp] theorem awaits_select {done rest : List Tx} {old' : Bool} :
    (select done rest plan).Awaits p old' := trivial

@[simp] theorem meets_select {done rest : List Tx} {old' : Bool} :
    (select done rest plan).Meets sha3 p old' h ↔ h ∈ done.map sha3 := Iff.rfl

theorem peerTransactions_served_of_awaits {old' : Bool}
    (h : (served plan old sessions : Round Peer Tx).Awaits p old') :
    (served plan old sessions : Round Peer Tx).peerTransactions = plan := by
  unfold served at *
  cases sessions <;> cases old <;> first | rfl | exact absurd h id

theorem awaits_served {old' : Bool} : (served plan old sessions : Round Peer Tx).Awaits p old' ↔
    p ∈ sessions ∨ (old = false ∧ old' = true) := by
  cases sessions <;> cases old <;> simp [served, Awaits]

theorem meets_served {old' : Bool} : (served plan old sessions : Round Peer Tx).Meets sha3 p old' h ↔
    p ∈ sessions ∨ (old = false ∧ old' = true) := by
  cases sessions <;> cases old <;> simp [served, Awaits, Meets]

theorem not_picked_served : ¬ (served plan old sessions : Round Peer Tx).Picked sha3 h := by
  cases sessions <;> cases old <;> exact id

theorem sessions_served : (served plan old sessions : Round Peer Tx).sessions = sessions := by
  cases sessions <;> cases old <;> rfl

theorem turn_served (hp : p ∈ sessions) : (served plan old sessions : Round Peer Tx).turn = some old := by
  cases sessions with
  | nil => cases hp
  | cons q sessions => rfl

theorem served_ne_select {done rest : List Tx} {plan' : Peer → List Tx} :
    (served plan old sessions : Round Peer Tx) ≠ .select done rest plan' := by
  cases sessions <;> cases old <;> exact fun h => nomatch h

end Round

namespace TransactionRelay

variable {Peer Tx : Type} [DecidableEq Peer] {sha3 : Tx → H256} {s : TransactionRelay Peer Tx}
  {a : RelayAct Peer Tx} {p q : Peer} {h : H256} {t : Tx}

section Step

variable {done rest : List Tx} {plan : Peer → List Tx} {old : Bool} {sessions : List Peer}

theorem step_select {rand : ℕ → ℕ} {peers : List Peer} (hround : s.round = .select done (t :: rest) plan) :
    s.step sha3 (.select rand peers) =
      { s with
        round :=
          .select (done ++ [t]) rest (pushBack t (peers.filter (s.allow sha3 t)) plan) } := by
  rw [step, hround]
  dsimp only
  rw [EthereumHost.randomSelection_zero]

theorem step_mark (hround : s.round = .select done [] plan) : s.step sha3 .mark =
    { s with
      m_transactionsSent := s.m_transactionsSent ∪ (done.map sha3).toFinset
      round := .collect plan false } := by
  rw [step, hround]

theorem step_collect (hround : s.round = .collect plan old) : s.step sha3 (.collect sessions) =
    { s with round := .served plan old sessions } := by
  rw [step, hround]

theorem step_send (hround : s.round = .serve plan old (q :: sessions)) : s.step sha3 .send =
    { s with
      peers := s.changed q .clearKnownTransactions
      round := .settle plan old q sessions } := by
  rw [step, hround]

omit [DecidableEq Peer] in
theorem packets_send (hround : s.round = .serve plan old (q :: sessions)) :
    packets s .send = s.packetFor q (plan q) := by
  rw [packets, hround]

theorem step_settle (hround : s.round = .settle plan old q sessions) : s.step sha3 .settle =
    { s with
      peers := s.changed q .settle
      round := .served plan old sessions } := by
  rw [step, hround]

end Step

section Invariant

/-- Sessions are gone through once and in their turn, and the transactions of a round differ. -/
structure Invariant (sha3 : Tx → H256) (s : TransactionRelay Peer Tx) : Prop where
  nodup : s.round.sessions.Nodup
  turn : ∀ p ∈ s.round.sessions, ∀ peer, s.peers p = some peer → s.round.turn = some peer.old
  distinct : ∀ done rest plan, s.round = .select done rest plan →
    ((done ++ rest).map sha3).Nodup

omit [DecidableEq Peer] in
theorem invariant_init : Invariant sha3 ({} : TransactionRelay Peer Tx) where
  nodup := List.nodup_nil
  turn _ hp := nomatch hp
  distinct _ _ _ h := nomatch h

omit [DecidableEq Peer] in
/-- A step that leaves the round as it is, and the protocols of its sessions. -/
theorem Invariant.of_round {s' : TransactionRelay Peer Tx} (hs : Invariant sha3 s)
    (hround : s'.round = s.round) (hold : ∀ p ∈ s.round.sessions, ∀ peer', s'.peers p = some peer' →
      ∃ peer, s.peers p = some peer ∧ peer.old = peer'.old) : Invariant sha3 s' where
  nodup := hround ▸ hs.nodup
  turn p hp peer' hpeer' := by
    rw [hround] at hp ⊢
    obtain ⟨peer, hpeer, hsame⟩ := hold p hp peer' hpeer'
    rw [hs.turn p hp peer hpeer, hsame]
  distinct := hround ▸ hs.distinct

theorem old_of_changed (f : RelayPeer → RelayPeer) (hf : ∀ peer, (f peer).old = peer.old)
    {peer' : RelayPeer} (hp : s.changed q f p = some peer') :
    ∃ peer, s.peers p = some peer ∧ peer.old = peer'.old := by
  unfold changed at hp
  by_cases heq : p = q
  · subst heq
    rw [Function.update_self, Option.map_eq_some_iff] at hp
    obtain ⟨peer, hpeer, rfl⟩ := hp
    exact ⟨peer, hpeer, (hf peer).symm⟩
  · rw [Function.update_of_ne heq] at hp
    exact ⟨peer', hp, rfl⟩

omit [DecidableEq Peer] in
theorem Invariant.of_served {s' : TransactionRelay Peer Tx} {plan : Peer → List Tx} {old : Bool}
    {sessions : List Peer} (hround : s'.round = .served plan old sessions) (hnodup : sessions.Nodup)
    (hold : ∀ p ∈ sessions, ∀ peer, s'.peers p = some peer → peer.old = old) :
    Invariant sha3 s' where
  nodup := by
    rw [hround, Round.sessions_served]
    exact hnodup
  turn p hp peer hpeer := by
    rw [hround, Round.sessions_served] at hp
    rw [hround, Round.turn_served hp, hold p hp peer hpeer]
  distinct _ _ _ h := absurd (hround ▸ h) Round.served_ne_select

theorem Invariant.step (hs : Invariant sha3 s) (ha : Enabled sha3 s a) :
    Invariant sha3 (s.step sha3 a) := by
  cases a with
  | connect q old =>
    refine hs.of_round rfl fun p hp peer' hpeer' => ⟨peer', ?_, rfl⟩
    have hne : p ≠ q := fun heq => ha.2.2 (heq ▸ hp)
    exact (Function.update_of_ne hne ..).symm.trans hpeer'
  | disconnect q =>
    refine hs.of_round rfl fun p _ peer' hpeer' => ⟨peer', ?_, rfl⟩
    by_cases heq : p = q
    · subst heq
      exact absurd (hpeer'.symm.trans (Function.update_self ..)) (Option.some_ne_none _)
    · exact (Function.update_of_ne heq ..).symm.trans hpeer'
  | require q => exact hs.of_round rfl fun p _ peer' => old_of_changed .require fun _ => rfl
  | onTransactionImported ir h q =>
    exact hs.of_round rfl fun p _ peer' => old_of_changed (.know h) fun _ => rfl
  | alreadyKnown h => exact hs.of_round rfl fun p _ peer hpeer => ⟨peer, hpeer, rfl⟩
  | reset => exact hs.of_round rfl fun p _ peer hpeer => ⟨peer, hpeer, rfl⟩
  | ensureInitialised known => exact hs.of_round rfl fun p _ peer hpeer => ⟨peer, hpeer, rfl⟩
  | maintainTransactions ts =>
    refine ⟨List.nodup_nil, fun _ hp => (nomatch hp), fun done rest plan h => ?_⟩
    cases h
    exact ha.2.1
  | select rand peers =>
    obtain ⟨⟨done, t, rest, plan, hround⟩, -, -⟩ := ha
    rw [step_select hround]
    refine ⟨List.nodup_nil, fun _ hp => (nomatch hp), fun done' rest' plan' h => ?_⟩
    cases h
    rw [List.append_assoc]
    exact hs.distinct _ _ _ hround
  | mark =>
    obtain ⟨done, plan, hround⟩ := ha
    rw [step_mark hround]
    exact ⟨List.nodup_nil, fun _ hp => (nomatch hp), fun _ _ _ h => nomatch h⟩
  | collect sessions =>
    obtain ⟨plan, old, hround, hnodup, hmem⟩ := ha
    rw [step_collect hround]
    refine .of_served rfl hnodup fun p hp peer hpeer => ?_
    obtain ⟨peer', hpeer', hold⟩ := (hmem p).mp hp
    cases hpeer.symm.trans hpeer'
    exact hold
  | send =>
    obtain ⟨plan, old, q, sessions, hround⟩ := ha
    have hnodup := hs.nodup
    have hturn := hs.turn
    rw [hround] at hnodup hturn
    rw [step_send hround]
    refine ⟨hnodup, fun p hp peer' hpeer' => ?_, fun _ _ _ h => nomatch h⟩
    obtain ⟨peer, hpeer, hsame⟩ := old_of_changed .clearKnownTransactions (fun _ => rfl) hpeer'
    rw [← hsame]
    exact hturn p hp peer hpeer
  | settle =>
    obtain ⟨plan, old, q, sessions, hround⟩ := ha
    have hnodup := hs.nodup
    have hturn := hs.turn
    rw [hround] at hnodup hturn
    rw [step_settle hround]
    refine .of_served rfl (List.nodup_cons.mp hnodup).2 fun p hp peer' hpeer' => ?_
    obtain ⟨peer, hpeer, hsame⟩ := old_of_changed .settle (fun _ => rfl) hpeer'
    rw [← hsame]
    exact (Option.some.inj (hturn p (List.mem_cons_of_mem q hp) peer hpeer)).symm

theorem Reachable.invariant (hs : Reachable sha3 s) : Invariant sha3 s :=
  ReachableFrom.invariant hs (fun _ _ hs ha => hs.step ha) invariant_init

end Invariant

section Credit

/-- Whether what a peer requires will bring it the transaction once more. -/
def owed (sha3 : Tx → H256) (r : Round Peer Tx) (p : Peer) (h : H256)
    (peer : RelayPeer) : ℕ :=
  if peer.m_requireTransactions = true ∧ ¬ r.Meets sha3 p peer.old h then 1 else 0

/-- How often the transaction is noted for a peer that the round has still to come to. -/
def planned (sha3 : Tx → H256) (r : Round Peer Tx) (p : Peer) (h : H256)
    (peer : RelayPeer) : ℕ :=
  if r.Awaits p peer.old then (r.peerTransactions p).countP fun t => sha3 t = h else 0

def share (sha3 : Tx → H256) (r : Round Peer Tx) (p : Peer) (h : H256)
    (peer : RelayPeer) : ℕ :=
  owed sha3 r p h peer + planned sha3 r p h peer

def fresh (sha3 : Tx → H256) (h : H256) (s : TransactionRelay Peer Tx) : ℕ :=
  if h ∈ s.m_transactionsSent ∨ s.round.Picked sha3 h then 0 else 1

def part (sha3 : Tx → H256) (p : Peer) (h : H256) (s : TransactionRelay Peer Tx) : ℕ :=
  (s.peers p).elim 0 (share sha3 s.round p h)

/-- How often the transaction can go to the peer from here on if nothing renews it. -/
def credit (sha3 : Tx → H256) (p : Peer) (h : H256) (s : TransactionRelay Peer Tx) : ℕ :=
  fresh sha3 h s + part sha3 p h s

variable {s' : TransactionRelay Peer Tx} {peer : RelayPeer} {r : Round Peer Tx}
  {plan : Peer → List Tx} {old : Bool} {sessions done rest : List _}

theorem part_of_some (hp : s.peers p = some peer) : part sha3 p h s = share sha3 s.round p h peer := by
  rw [part, hp]
  rfl

theorem part_of_none (hp : s.peers p = none) : part sha3 p h s = 0 := by
  rw [part, hp]
  rfl

omit [DecidableEq Peer] in
theorem fresh_le_one : fresh sha3 h s ≤ 1 := by
  unfold fresh
  split_ifs <;> omega

omit [DecidableEq Peer] in
theorem fresh_le (himp : h ∈ s.m_transactionsSent ∨ s.round.Picked sha3 h →
    h ∈ s'.m_transactionsSent ∨ s'.round.Picked sha3 h) : fresh sha3 h s' ≤ fresh sha3 h s := by
  unfold fresh
  split_ifs with h1 h2 h2
  · exact Nat.le_refl _
  · exact Nat.zero_le _
  · exact absurd (himp h2) h1
  · exact Nat.le_refl _

theorem share_new (hplan : r.peerTransactions p = []) : share sha3 r p h { old := old } = 0 := by
  have howed : owed sha3 r p h { old := old } = 0 := if_neg fun h => Bool.noConfusion h.1
  have hplanned : planned sha3 r p h { old := old } = 0 := by
    rw [planned, hplan, List.countP_nil, ite_self]
  rw [share, howed, hplanned]

theorem share_require_le : share sha3 r p h peer.require ≤ share sha3 r p h peer + 1 := by
  have howed : owed sha3 r p h peer.require ≤ 1 := by
    unfold owed
    split_ifs <;> omega
  have hplanned : planned sha3 r p h peer.require = planned sha3 r p h peer := rfl
  unfold share
  omega

theorem changed_of_ne {f : RelayPeer → RelayPeer} (hne : p ≠ q) : s.changed q f p = s.peers p :=
  Function.update_of_ne hne ..

theorem changed_self {f : RelayPeer → RelayPeer} : s.changed q f q = (s.peers q).map f :=
  Function.update_self ..

theorem planned_of_awaits (hawaits : r.Awaits p peer.old) :
    planned sha3 r p h peer = (r.peerTransactions p).countP fun t => sha3 t = h := if_pos hawaits

/-- A round that goes on owes a peer no more than before. -/
theorem share_le {r' : Round Peer Tx} (hawaits : r'.Awaits p peer.old →
      r.Awaits p peer.old ∧ r'.peerTransactions p = r.peerTransactions p)
    (hmeets : r.Meets sha3 p peer.old h → r'.Meets sha3 p peer.old h) :
    share sha3 r' p h peer ≤ share sha3 r p h peer := by
  have howed : owed sha3 r' p h peer ≤ owed sha3 r p h peer := by
    unfold owed
    split_ifs with h1 h2 h2
    · exact Nat.le_refl _
    · exact absurd ⟨h1.1, fun h => h1.2 (hmeets h)⟩ h2
    · exact Nat.zero_le _
    · exact Nat.le_refl _
  have hplanned : planned sha3 r' p h peer ≤ planned sha3 r p h peer := by
    by_cases h1 : r'.Awaits p peer.old
    · obtain ⟨h2, hplan⟩ := hawaits h1
      rw [planned_of_awaits h1, planned_of_awaits h2, hplan]
    · rw [planned, if_neg h1]
      exact Nat.zero_le _
  exact Nat.add_le_add howed hplanned

theorem part_le_of_changed {f : RelayPeer → RelayPeer} {k : ℕ}
    (hpeers : s'.peers = s.changed q f)
    (hother : ∀ peer, p ≠ q → share sha3 s'.round p h peer ≤ share sha3 s.round p h peer)
    (hshare : ∀ peer, p = q → share sha3 s'.round p h (f peer) ≤ share sha3 s.round p h peer + k) :
    part sha3 p h s' ≤ part sha3 p h s + if p = q then k else 0 := by
  by_cases heq : p = q
  · subst heq
    rw [if_pos rfl]
    cases hp : s.peers p with
    | none =>
      have hp' : s'.peers p = none := by rw [hpeers, changed_self, hp, Option.map_none]
      rw [part_of_none hp']
      exact Nat.zero_le _
    | some peer =>
      have hp' : s'.peers p = some (f peer) := by rw [hpeers, changed_self, hp, Option.map_some]
      rw [part_of_some hp', part_of_some hp]
      exact hshare peer rfl
  · rw [if_neg heq, Nat.add_zero]
    cases hp : s.peers p with
    | none =>
      have hp' : s'.peers p = none := by rw [hpeers, changed_of_ne heq, hp]
      rw [part_of_none hp']
      exact Nat.zero_le _
    | some peer =>
      have hp' : s'.peers p = some peer := by rw [hpeers, changed_of_ne heq, hp]
      rw [part_of_some hp', part_of_some hp]
      exact hother peer heq

theorem part_le_of_round (hpeers : s'.peers = s.peers)
    (hshare : ∀ peer, s.peers p = some peer →
      share sha3 s'.round p h peer ≤ share sha3 s.round p h peer) :
    part sha3 p h s' ≤ part sha3 p h s := by
  cases hp : s.peers p with
  | none =>
    rw [part_of_none (hpeers ▸ hp)]
    exact Nat.zero_le _
  | some peer =>
    rw [part_of_some (hpeers ▸ hp), part_of_some hp]
    exact hshare peer hp

theorem pushBack_apply {peers : List Peer} (hnodup : peers.Nodup) (plan : Peer → List Tx) (p : Peer) :
    pushBack t peers plan p = plan p ++ if p ∈ peers then [t] else [] := by
  induction peers generalizing plan with
  | nil => rw [if_neg List.not_mem_nil, List.append_nil]; rfl
  | cons q peers ih =>
    obtain ⟨hq, hnodup⟩ := List.nodup_cons.mp hnodup
    change pushBack t peers (Function.update plan q (plan q ++ [t])) p = _
    rw [ih hnodup]
    by_cases heq : p = q
    · subst heq
      rw [Function.update_self, if_neg hq, if_pos List.mem_cons_self, List.append_nil]
    · simp only [Function.update_of_ne heq, List.mem_cons, heq, false_or]

omit [DecidableEq Peer] in
theorem fresh_of_select (hround : s.round = .select done rest plan) : fresh sha3 h s =
    if h ∈ s.m_transactionsSent ∨ h ∈ done.map sha3 then 0 else 1 := by
  rw [fresh, hround]
  rfl

theorem owed_select : owed sha3 (.select done rest plan) p h peer =
    if peer.m_requireTransactions = true ∧ h ∉ done.map sha3 then 1 else 0 := rfl

theorem planned_select : planned sha3 (.select done rest plan) p h peer =
    (plan p).countP fun t => sha3 t = h := if_pos trivial

theorem planned_pushBack {peers : List Peer} (hnodup : peers.Nodup) :
    planned sha3 (.select done rest (pushBack t peers plan)) p h peer =
      planned sha3 (.select done rest plan) p h peer +
        if p ∈ peers ∧ sha3 t = h then 1 else 0 := by
  rw [planned_select, planned_select, pushBack_apply hnodup, List.countP_append]
  by_cases hp : p ∈ peers <;> simp [hp, List.countP_singleton]

/-- A peer is to get a transaction that is fresh, or that it requires. -/
theorem one_le_of_allow (hround : s.round = .select done rest plan) (hp : s.peers p = some peer)
    (hnot : sha3 t ∉ done.map sha3) (hallow : s.allow sha3 t p = true) :
    1 ≤ fresh sha3 (sha3 t) s + owed sha3 s.round p (sha3 t) peer := by
  rw [allow, hp] at hallow
  rcases Bool.or_eq_true_iff.mp hallow with hrequire | hunsent
  · rw [hround, owed_select, if_pos ⟨hrequire, hnot⟩]
    exact Nat.le_add_left _ _
  · have hnew : sha3 t ∉ s.m_transactionsSent := by
      simpa using (Bool.and_eq_true_iff.mp hunsent).1
    rw [fresh_of_select hround, if_neg (not_or.mpr ⟨hnew, hnot⟩)]
    exact Nat.le_add_right _ _

theorem select_le {peers : List Peer} (hs : Invariant sha3 s)
    (hround : s.round = .select done (t :: rest) plan) (hnodup : peers.Nodup) :
    credit sha3 p h
      { s with
        round :=
          .select (done ++ [t]) rest (pushBack t (peers.filter (s.allow sha3 t)) plan) } ≤
      credit sha3 p h s := by
  generalize hs' : (TransactionRelay.mk _ _ _ _ : TransactionRelay Peer Tx) = s'
  have hround' : s'.round =
      .select (done ++ [t]) rest (pushBack t (peers.filter (s.allow sha3 t)) plan) := by rw [← hs']
  have hsent : s'.m_transactionsSent = s.m_transactionsSent := by rw [← hs']
  have hpeers : s'.peers = s.peers := by rw [← hs']
  have hmap : (done ++ [t]).map sha3 = done.map sha3 ++ [sha3 t] := List.map_append
  by_cases hth : sha3 t = h
  · -- It is none of those that the round has gone through.
    subst hth
    have hnot : sha3 t ∉ done.map sha3 := by
      have hdistinct := hs.distinct _ _ _ hround
      rw [List.map_append, List.map_cons] at hdistinct
      exact fun hmem => (List.nodup_middle.mp hdistinct |> List.nodup_cons.mp).1
        (List.mem_append_left _ hmem)
    have hin : sha3 t ∈ (done ++ [t]).map sha3 := by
      rw [hmap]
      exact List.mem_append_right _ (List.mem_singleton.mpr rfl)
    have hfresh' : fresh sha3 (sha3 t) s' = 0 := by
      rw [fresh_of_select hround', if_pos (Or.inr hin)]
    cases hp : s.peers p with
    | none =>
      rw [credit, hfresh', part_of_none (hpeers ▸ hp)]
      exact Nat.zero_le _
    | some peer =>
      have howed' : owed sha3 s'.round p (sha3 t) peer = 0 := by
        rw [hround', owed_select, if_neg fun h => h.2 hin]
      have hplanned : planned sha3 s'.round p (sha3 t) peer ≤
          planned sha3 s.round p (sha3 t) peer + if s.allow sha3 t p then 1 else 0 := by
        rw [hround, hround', planned_pushBack (hnodup.filter _), planned_select, planned_select]
        split_ifs with hmem hallow hallow
        · exact Nat.le_refl _
        · exact absurd (List.mem_filter.mp hmem.1).2 hallow
        · exact Nat.le_succ _
        · exact Nat.le_refl _
      rw [credit, credit, hfresh', part_of_some (hpeers ▸ hp), part_of_some hp, share, share, howed']
      split_ifs at hplanned with hallow
      · have hone := one_le_of_allow hround hp hnot hallow
        omega
      · omega
  · have hsame : h ∈ (done ++ [t]).map sha3 ↔ h ∈ done.map sha3 := by
      rw [hmap, List.mem_append, List.mem_singleton]
      exact or_iff_left fun heq => hth heq.symm
    have hfresh : fresh sha3 h s' = fresh sha3 h s := by
      rw [fresh_of_select hround, fresh_of_select hround', hsent]
      simp only [hsame]
    refine Nat.add_le_add hfresh.le (part_le_of_round hpeers fun peer _ => ?_)
    have hplanned : planned sha3 s'.round p h peer = planned sha3 s.round p h peer := by
      rw [hround, hround', planned_pushBack (hnodup.filter _), if_neg fun h => hth h.2]
      exact Nat.add_zero _
    have howed : owed sha3 s'.round p h peer = owed sha3 s.round p h peer := by
      rw [hround, hround', owed_select, owed_select]
      simp only [hsame]
    rw [share, share, howed, hplanned]

omit [DecidableEq Peer] in
theorem fresh_le_of_not_picked {r : Round Peer Tx} {peers : Peer → Option RelayPeer}
    (hpicked : ¬ s.round.Picked sha3 h) :
    fresh sha3 h { s with peers := peers, round := r } ≤ fresh sha3 h s :=
  fresh_le fun hh => Or.inl (hh.resolve_right hpicked)

theorem mark_le (hround : s.round = .select done [] plan) :
    credit sha3 p h (s.step sha3 .mark) ≤ credit sha3 p h s := by
  rw [step_mark hround]
  refine Nat.add_le_add (fresh_le fun hh => Or.inl ?_) (part_le_of_round rfl fun peer _ => ?_)
  · rw [hround, Round.picked_select] at hh
    rw [Finset.mem_union, List.mem_toFinset]
    exact hh
  · rw [hround]
    exact share_le (fun _ => ⟨trivial, rfl⟩) fun _ => Or.inl rfl

theorem collect_le (hround : s.round = .collect plan old) {sessions : List Peer}
    (hmem : ∀ p, p ∈ sessions ↔ ∃ peer, s.peers p = some peer ∧ peer.old = old) :
    credit sha3 p h (s.step sha3 (.collect sessions)) ≤ credit sha3 p h s := by
  rw [step_collect hround]
  refine Nat.add_le_add (fresh_le_of_not_picked ?_) (part_le_of_round rfl fun peer hp => ?_)
  · rw [hround]
    exact id
  · rw [hround]
    have hcome : p ∈ sessions ↔ peer.old = old := by
      refine (hmem p).trans ⟨fun ⟨peer', hp', hold⟩ => ?_, fun hold => ⟨peer, hp, hold⟩⟩
      cases hp.symm.trans hp'
      exact hold
    have hawaits : (p ∈ sessions ∨ (old = false ∧ peer.old = true)) ↔
        (old = false ∨ peer.old = true) := by
      rw [hcome]
      cases old <;> cases peer.old <;> decide
    refine share_le (fun hserved => ⟨?_, ?_⟩) fun hmeets => ?_
    · exact hawaits.mp (Round.awaits_served.mp hserved)
    · rw [Round.peerTransactions_served_of_awaits hserved]
      rfl
    · exact (Round.meets_served sha3).mpr (hawaits.mpr hmeets)

omit [DecidableEq Peer] in
theorem packetFor_of_none {ts : List Tx} (hq : s.peers q = none) : s.packetFor q ts = [] := by
  rw [packetFor, hq]

theorem sum_copies_packetFor {ts : List Tx} : ((s.packetFor q ts).map (copies sha3 p h)).sum ≤
    if q = p then ts.countP fun t => sha3 t = h else 0 := by
  cases hq : s.peers q with
  | none =>
    rw [packetFor_of_none hq]
    exact Nat.zero_le _
  | some peer =>
    simp only [packetFor, hq]
    by_cases hpacket : ts ≠ [] ∨ peer.m_requireTransactions = true
    · rw [if_pos hpacket, List.map_singleton, List.sum_singleton]
      exact Nat.le_refl _
    · rw [if_neg hpacket]
      exact Nat.zero_le _

/-- A packet takes what was planned for its peer. -/
theorem send_le (hs : Invariant sha3 s) {sessions : List Peer}
    (hround : s.round = .serve plan old (q :: sessions)) :
    ((packets s .send).map (copies sha3 p h)).sum + credit sha3 p h (s.step sha3 .send) ≤
      credit sha3 p h s := by
  have hnodup := hs.nodup
  have hturn := hs.turn
  rw [hround] at hnodup hturn
  have hfresh : fresh sha3 h (s.step sha3 .send) ≤ fresh sha3 h s := by
    rw [step_send hround]
    exact fresh_le_of_not_picked (by rw [hround]; exact id)
  have hpart : ((packets s .send).map (copies sha3 p h)).sum + part sha3 p h (s.step sha3 .send) ≤
      part sha3 p h s := by
    have hcopies : ((s.packetFor q (plan q)).map (copies sha3 p h)).sum ≤
        if q = p then (plan q).countP fun t => sha3 t = h else 0 := sum_copies_packetFor
    rw [packets_send hround]
    by_cases heq : q = p
    · subst heq
      have hpeers : (s.step sha3 .send).peers q = (s.peers q).map .clearKnownTransactions := by
        rw [step_send hround]
        exact changed_self
      cases hq : s.peers q with
      | none =>
        rw [packetFor_of_none hq, part_of_none (by rw [hpeers, hq]; rfl)]
        exact Nat.zero_le _
      | some peer =>
        -- Its turn is over with this packet.
        have hgone : ¬ (Round.settle plan old q sessions).Awaits q peer.old := by
          rintro (hmem | ⟨hold, hold'⟩)
          · exact (List.nodup_cons.mp hnodup).1 hmem
          · have hsame := Option.some.inj (hturn q List.mem_cons_self peer hq)
            rw [hold, hold'] at hsame
            cases hsame
        have hnone : share sha3 (.settle plan old q sessions) q h peer.clearKnownTransactions = 0 := by
          have howed : owed sha3 (.settle plan old q sessions) q h peer.clearKnownTransactions = 0 :=
            if_neg fun h => h.2 (Or.inl rfl)
          have hplanned :
              planned sha3 (.settle plan old q sessions) q h peer.clearKnownTransactions = 0 :=
            if_neg hgone
          rw [share, howed, hplanned]
        have hawaits : (Round.serve plan old (q :: sessions)).Awaits q peer.old :=
          Or.inl List.mem_cons_self
        have hall : (plan q).countP (fun t => sha3 t = h) ≤
            share sha3 (.serve plan old (q :: sessions)) q h peer := by
          rw [share, planned_of_awaits hawaits]
          exact Nat.le_add_left _ _
        have hround' : (s.step sha3 .send).round = .settle plan old q sessions := by
          rw [step_send hround]
        rw [part_of_some (by rw [hpeers, hq]; rfl), part_of_some hq, hround, hround', hnone]
        rw [if_pos rfl] at hcopies
        exact hcopies.trans hall
    · rw [if_neg heq] at hcopies
      rw [Nat.le_zero.mp hcopies, Nat.zero_add, step_send hround]
      refine (part_le_of_changed (k := 0) rfl (fun peer hne => ?_) fun _ h => ?_).trans_eq ?_
      · rw [hround]
        refine share_le (fun hawaits => ⟨hawaits.imp_left (List.mem_cons_of_mem q), rfl⟩) ?_
        exact fun hmeets => Or.inr (hmeets.imp_left fun hmem => (List.mem_cons.mp hmem).resolve_left hne)
      · exact absurd h.symm heq
      · rw [ite_self, Nat.add_zero]
  have hle := Nat.add_le_add hfresh hpart
  unfold credit
  omega

theorem settle_le {sessions : List Peer} (hround : s.round = .settle plan old q sessions) :
    credit sha3 p h (s.step sha3 .settle) ≤ credit sha3 p h s := by
  rw [step_settle hround]
  refine Nat.add_le_add (fresh_le_of_not_picked ?_) ?_
  · rw [hround]
    exact id
  · have hserved (peer : RelayPeer) : planned sha3 (.served plan old sessions) p h peer.settle ≤
        planned sha3 s.round p h peer := by
      by_cases hawaits : (Round.served plan old sessions : Round Peer Tx).Awaits p peer.settle.old
      · have hbefore : (Round.settle plan old q sessions).Awaits p peer.old :=
          Round.awaits_served.mp hawaits
        have hplan := Round.peerTransactions_served_of_awaits hawaits
        rw [hround, planned_of_awaits hawaits, planned_of_awaits hbefore, hplan]
        rfl
      · rw [planned, if_neg hawaits]
        exact Nat.zero_le _
    refine (part_le_of_changed (k := 0) rfl (fun peer hne => ?_) fun peer _ => ?_).trans_eq ?_
    · rw [hround]
      refine share_le (fun hawaits => ⟨Round.awaits_served.mp hawaits, ?_⟩) fun hmeets => ?_
      · rw [Round.peerTransactions_served_of_awaits hawaits]
        rfl
      · exact (Round.meets_served sha3).mpr (hmeets.resolve_left hne)
    · have howed : owed sha3 (.served plan old sessions) p h peer.settle = 0 :=
        if_neg fun h => Bool.noConfusion h.1
      rw [share, howed, Nat.zero_add]
      exact (hserved peer).trans (Nat.le_add_left _ _)
    · rw [ite_self, Nat.add_zero]

theorem credit_le (hfresh : fresh sha3 h s' ≤ fresh sha3 h s)
    (hpart : part sha3 p h s' ≤ part sha3 p h s) : 0 + credit sha3 p h s' ≤ credit sha3 p h s :=
  (Nat.zero_add _).le.trans (Nat.add_le_add hfresh hpart)

/-- Every step pays for the copies that it sends. -/
theorem pays (hs : Invariant sha3 s) (ha : Enabled sha3 s a) :
    ((packets s a).map (copies sha3 p h)).sum + credit sha3 p h (s.step sha3 a) ≤
      credit sha3 p h s + renews p a := by
  cases a with
  | connect q old =>
    have hpart : part sha3 p h (s.step sha3 (.connect q old)) ≤ part sha3 p h s := by
      by_cases heq : p = q
      · subst heq
        have hp : (s.step sha3 (.connect p old)).peers p = some { old := old } :=
          Function.update_self ..
        have hnone : share sha3 s.round p h { old := old } = 0 := share_new ha.2.1
        rw [part_of_some hp]
        exact hnone.le.trans (Nat.zero_le _)
      · have hp : (s.step sha3 (.connect q old)).peers p = s.peers p := Function.update_of_ne heq ..
        rw [part, hp]
        rfl
    exact credit_le (Nat.le_refl _) hpart
  | disconnect q =>
    have hpart : part sha3 p h (s.step sha3 (.disconnect q)) ≤ part sha3 p h s := by
      by_cases heq : p = q
      · subst heq
        have hp : (s.step sha3 (.disconnect p)).peers p = none := Function.update_self ..
        rw [part_of_none hp]
        exact Nat.zero_le _
      · have hp : (s.step sha3 (.disconnect q)).peers p = s.peers p := Function.update_of_ne heq ..
        rw [part, hp]
        rfl
    exact credit_le (Nat.le_refl _) hpart
  | require q =>
    have hpart : part sha3 p h (s.step sha3 (.require q)) ≤
        part sha3 p h s + if p = q then 1 else 0 :=
      part_le_of_changed rfl (fun _ _ => Nat.le_refl _) fun _ _ => share_require_le
    have hrenews : renews p (.require q : RelayAct Peer Tx) = if p = q then 1 else 0 :=
      if_congr eq_comm rfl rfl
    rw [hrenews]
    exact (Nat.zero_add _).le.trans ((Nat.add_le_add_left hpart _).trans_eq (Nat.add_assoc ..).symm)
  | onTransactionImported ir h' q =>
    have hpart : part sha3 p h (s.step sha3 (.onTransactionImported ir h' q)) ≤
        part sha3 p h s + if p = q then 0 else 0 :=
      part_le_of_changed rfl (fun _ _ => Nat.le_refl _) fun _ _ => Nat.le_refl _
    rw [ite_self, Nat.add_zero] at hpart
    exact credit_le (Nat.le_refl _) hpart
  | alreadyKnown h' =>
    have hfresh : fresh sha3 h (s.step sha3 (.alreadyKnown h')) ≤ fresh sha3 h s :=
      fresh_le fun hh => hh.imp_left (Finset.mem_insert_of_mem ·)
    exact credit_le hfresh (Nat.le_refl _)
  | reset =>
    have hone : fresh sha3 h (s.step sha3 .reset) ≤ 1 := fresh_le_one
    change 0 + (fresh sha3 h (s.step sha3 .reset) + part sha3 p h s) ≤ fresh sha3 h s + part sha3 p h s + 1
    omega
  | ensureInitialised known =>
    have hone : fresh sha3 h (s.step sha3 (.ensureInitialised known)) ≤ 1 := fresh_le_one
    change 0 + (fresh sha3 h (s.step sha3 (.ensureInitialised known)) + part sha3 p h s) ≤
      fresh sha3 h s + part sha3 p h s + 1
    omega
  | maintainTransactions ts =>
    have hround : s.round = .idle := ha.1
    have hfresh : fresh sha3 h (s.step sha3 (.maintainTransactions ts)) ≤ fresh sha3 h s :=
      fresh_le_of_not_picked (by rw [hround]; exact id)
    have hpart : part sha3 p h (s.step sha3 (.maintainTransactions ts)) ≤ part sha3 p h s := by
      refine part_le_of_round rfl fun peer _ => ?_
      have hnone : share sha3 (.select [] ts fun _ => []) p h peer ≤ share sha3 .idle p h peer := by
        have howed : owed sha3 (.select [] ts fun _ => []) p h peer = owed sha3 .idle p h peer :=
          if_congr (and_congr_right' (not_congr (iff_of_false List.not_mem_nil id))) rfl rfl
        have hplanned : planned sha3 (.select [] ts fun _ => []) p h peer = 0 := rfl
        rw [share, share, howed, hplanned]
        exact Nat.le_add_right _ _
      rw [hround]
      exact hnone
    exact credit_le hfresh hpart
  | select rand peers =>
    obtain ⟨⟨done, t, rest, plan, hround⟩, hnodup, -⟩ := ha
    rw [step_select hround]
    exact (Nat.zero_add _).le.trans (select_le hs hround hnodup)
  | mark =>
    obtain ⟨done, plan, hround⟩ := ha
    exact (Nat.zero_add _).le.trans (mark_le hround)
  | collect sessions =>
    obtain ⟨plan, old, hround, -, hmem⟩ := ha
    exact (Nat.zero_add _).le.trans (collect_le hround hmem)
  | send =>
    obtain ⟨plan, old, q, sessions, hround⟩ := ha
    exact send_le hs hround
  | settle =>
    obtain ⟨plan, old, q, sessions, hround⟩ := ha
    exact (Nat.zero_add _).le.trans (settle_le hround)

end Credit

section Due

/-- The round that is on is going to bring a transaction to a peer. -/
def Due (sha3 : Tx → H256) (p : Peer) (t : Tx) (s : TransactionRelay Peer Tx) : Prop :=
  ∃ peer, s.peers p = some peer ∧ s.round.Awaits p peer.old ∧
    (t ∈ s.round.peerTransactions p ∨
      (t ∈ s.round.upcoming ∧ sha3 t ∉ s.m_transactionsSent ∧ sha3 t ∉ peer.m_knownTransactions))

/-- The peer keeps its session and does not send the transaction itself. -/
def Keeps (sha3 : Tx → H256) (p : Peer) (t : Tx) (s : TransactionRelay Peer Tx)
    (a : RelayAct Peer Tx) : Prop :=
  Enabled sha3 s a ∧ a ≠ .disconnect p ∧ ∀ ir, a ≠ .onTransactionImported ir (sha3 t) p

variable {s' : TransactionRelay Peer Tx}

/-- Where a change of one peer and of the sent transactions does not concern what is due. -/
theorem Due.of_peers {f : RelayPeer → RelayPeer} (h : Due sha3 p t s) (hround : s'.round = s.round)
    (hpeers : s'.peers = s.changed q f) (hsent : s'.m_transactionsSent = s.m_transactionsSent)
    (hold : ∀ peer, (f peer).old = peer.old)
    (hknown : p = q → ∀ peer, sha3 t ∉ peer.m_knownTransactions →
      sha3 t ∉ (f peer).m_knownTransactions) : Due sha3 p t s' := by
  obtain ⟨peer, hp, hawaits, hdue⟩ := h
  by_cases heq : p = q
  · subst heq
    refine ⟨f peer, by rw [hpeers, changed_self, hp, Option.map_some], ?_, ?_⟩
    · rw [hround, hold]
      exact hawaits
    · rw [hround, hsent]
      exact hdue.imp_right fun ⟨hup, hnew, hno⟩ => ⟨hup, hnew, hknown rfl peer hno⟩
  · refine ⟨peer, by rw [hpeers, changed_of_ne heq, hp], ?_, ?_⟩
    · rw [hround]
      exact hawaits
    · rw [hround, hsent]
      exact hdue

omit [DecidableEq Peer] in
/-- Nothing is upcoming any more. -/
theorem Due.of_unlocked (h : Due sha3 p t s) (hlocked : ¬ s.round.Locked)
    (hround : s'.round = s.round) (hpeers : s'.peers = s.peers) : Due sha3 p t s' := by
  obtain ⟨peer, hp, hawaits, hdue⟩ := h
  have hnone : s.round.upcoming = [] := by
    cases hr : s.round with
    | select done rest plan => exact absurd (hr ▸ trivial) hlocked
    | _ => rfl
  refine ⟨peer, hpeers ▸ hp, hround ▸ hawaits, Or.inl ?_⟩
  rw [hround]
  exact hdue.resolve_right fun h => List.not_mem_nil (hnone ▸ h.1)

theorem Due.select {done rest : List Tx} {t' : Tx} {plan : Peer → List Tx} {rand : ℕ → ℕ}
    {peers : List Peer} (h : Due sha3 p t s) (hround : s.round = .select done (t' :: rest) plan)
    (hnodup : peers.Nodup) (hmem : ∀ p, p ∈ peers ↔ s.peers p ≠ none) :
    Due sha3 p t (s.step sha3 (.select rand peers)) := by
  obtain ⟨peer, hp, hawaits, hdue⟩ := h
  rw [step_select hround]
  refine ⟨peer, hp, trivial, ?_⟩
  rw [hround] at hdue
  have hplan := pushBack_apply (t := t') (hnodup.filter (s.allow sha3 t')) plan p
  rcases hdue with hplanned | ⟨hup, hnew, hno⟩
  · refine Or.inl ?_
    change t ∈ pushBack t' _ plan p
    rw [hplan]
    exact List.mem_append_left _ hplanned
  · rcases List.mem_cons.mp hup with rfl | hrest
    · -- Its turn has come, and the peer is one of those that get it.
      have hallow : s.allow sha3 t p = true := by
        rw [allow, hp]
        simp [hnew, hno]
      have hin : p ∈ peers.filter (s.allow sha3 t) :=
        List.mem_filter.mpr ⟨(hmem p).mpr (by rw [hp]; exact Option.some_ne_none _), hallow⟩
      refine Or.inl ?_
      change t ∈ pushBack t _ plan p
      rw [hplan, if_pos hin]
      exact List.mem_append_right _ (List.mem_singleton.mpr rfl)
    · exact Or.inr ⟨hrest, hnew, hno⟩

theorem Due.step (h : Due sha3 p t s) (ha : Keeps sha3 p t s a) : Due sha3 p t (s.step sha3 a) ∨
    ∃ packet ∈ packets s a, packet.1 = p ∧ t ∈ packet.2 := by
  obtain ⟨ha, hstay, hquiet⟩ := ha
  cases a with
  | connect q old =>
    obtain ⟨peer, hp, hdue⟩ := h
    have hne : p ≠ q := by
      rintro rfl
      exact Option.some_ne_none peer (hp.symm.trans ha.1)
    exact Or.inl ⟨peer, (Function.update_of_ne hne ..).trans hp, hdue⟩
  | disconnect q =>
    obtain ⟨peer, hp, hdue⟩ := h
    have hne : p ≠ q := by
      rintro rfl
      exact hstay rfl
    exact Or.inl ⟨peer, (Function.update_of_ne hne ..).trans hp, hdue⟩
  | require q => exact Or.inl (h.of_peers rfl rfl rfl (fun _ => rfl) fun _ _ => id)
  | onTransactionImported ir h' q =>
    refine Or.inl (h.of_peers rfl rfl rfl (fun _ => rfl) fun heq peer hno hin => ?_)
    rcases Finset.mem_insert.mp hin with hsame | hin
    · exact hquiet ir (by rw [hsame, heq])
    · exact hno hin
  | alreadyKnown h' => exact Or.inl (h.of_unlocked ha.2 rfl rfl)
  | reset => exact Or.inl (h.of_unlocked ha rfl rfl)
  | ensureInitialised known =>
    obtain ⟨peer, hp, hawaits, -⟩ := h
    rw [show s.round = .idle from ha] at hawaits
    exact hawaits.elim
  | maintainTransactions ts =>
    obtain ⟨peer, hp, hawaits, -⟩ := h
    rw [show s.round = .idle from ha.1] at hawaits
    exact hawaits.elim
  | select rand peers =>
    obtain ⟨⟨done, t', rest, plan, hround⟩, hnodup, hmem⟩ := ha
    exact Or.inl (h.select hround hnodup hmem)
  | mark =>
    obtain ⟨done, plan, hround⟩ := ha
    obtain ⟨peer, hp, -, hdue⟩ := h
    rw [hround] at hdue
    rw [step_mark hround]
    exact Or.inl ⟨peer, hp, Or.inl rfl, Or.inl (hdue.resolve_right fun h => List.not_mem_nil h.1)⟩
  | collect sessions =>
    obtain ⟨plan, old, hround, -, hmem⟩ := ha
    obtain ⟨peer, hp, hawaits, hdue⟩ := h
    rw [hround] at hawaits hdue
    rw [step_collect hround]
    have hserved : (Round.served plan old sessions : Round Peer Tx).Awaits p peer.old := by
      rw [Round.awaits_served]
      by_cases hsame : peer.old = old
      · exact Or.inl ((hmem p).mpr ⟨peer, hp, hsame⟩)
      · rcases hawaits with hold | hold
        · exact Or.inr ⟨hold, by rw [hold] at hsame; exact Bool.eq_true_of_not_eq_false hsame⟩
        · refine Or.inr ⟨?_, hold⟩
          rw [hold] at hsame
          exact Bool.eq_false_of_not_eq_true (Ne.symm hsame)
    refine Or.inl ⟨peer, hp, hserved, Or.inl ?_⟩
    rw [Round.peerTransactions_served_of_awaits hserved]
    exact hdue.resolve_right fun h => List.not_mem_nil h.1
  | send =>
    obtain ⟨plan, old, q, sessions, hround⟩ := ha
    obtain ⟨peer, hp, hawaits, hdue⟩ := h
    rw [hround] at hawaits hdue
    have hplan : t ∈ plan p := hdue.resolve_right fun h => List.not_mem_nil h.1
    by_cases heq : p = q
    · subst heq
      have hpacket : s.packetFor p (plan p) = [(p, plan p)] := by
        rw [packetFor, hp]
        exact if_pos (Or.inl (List.ne_nil_of_mem hplan))
      rw [packets_send hround, hpacket]
      exact Or.inr ⟨_, List.mem_singleton.mpr rfl, rfl, hplan⟩
    · rw [step_send hround]
      refine Or.inl ⟨peer, (changed_of_ne heq).trans hp, ?_, Or.inl hplan⟩
      exact hawaits.imp_left fun hmem => (List.mem_cons.mp hmem).resolve_left heq
  | settle =>
    obtain ⟨plan, old, q, sessions, hround⟩ := ha
    obtain ⟨peer, hp, hawaits, hdue⟩ := h
    rw [hround] at hawaits hdue
    rw [step_settle hround]
    have hserved : (Round.served plan old sessions : Round Peer Tx).Awaits p peer.old :=
      Round.awaits_served.mpr hawaits
    have hplan : t ∈ (Round.served plan old sessions : Round Peer Tx).peerTransactions p := by
      rw [Round.peerTransactions_served_of_awaits hserved]
      exact hdue.resolve_right fun h => List.not_mem_nil h.1
    by_cases heq : p = q
    · subst heq
      have hp' : s.changed p .settle p = some peer.settle := by
        rw [changed_self, hp, Option.map_some]
      exact Or.inl ⟨peer.settle, hp', hserved, Or.inl hplan⟩
    · exact Or.inl ⟨peer, (changed_of_ne heq).trans hp, hserved, Or.inl hplan⟩

end Due

section Runs

variable {ops : List (RelayAct Peer Tx)}

/-- The host after a peer has connected. -/
def connected : TransactionRelay Bool ℕ := step H256.ofNat {} (.connect true false)

/-- A round with one transaction. -/
def oneRound : List (RelayAct Bool ℕ) :=
  [.maintainTransactions [7], .select (fun _ => 0) [true], .mark, .collect [true], .send, .settle,
    .collect []]

theorem guarded_oneRound :
    Guarded (step H256.ofNat) (Keeps H256.ofNat true 7) connected oneRound := by
  have hyounger : ∀ p, p ∈ [true] ↔ ∃ peer, connected.peers p = some peer ∧ peer.old = false :=
    Bool.forall_bool.mpr ⟨iff_of_false (by decide) fun ⟨_, h, _⟩ => (nomatch h),
      iff_of_true (by decide) ⟨_, rfl, rfl⟩⟩
  refine ⟨⟨⟨rfl, by decide, by decide⟩, nofun, nofun⟩,
    ⟨⟨⟨_, _, _, _, rfl⟩, by decide, by decide⟩, nofun, nofun⟩,
    ⟨⟨_, _, rfl⟩, nofun, nofun⟩,
    ⟨⟨_, _, rfl, by decide, hyounger⟩, nofun, nofun⟩,
    ⟨⟨_, _, _, _, rfl⟩, nofun, nofun⟩,
    ⟨⟨_, _, _, _, rfl⟩, nofun, nofun⟩,
    ⟨⟨_, _, rfl, by decide, Bool.forall_bool.mpr ⟨?_, ?_⟩⟩, nofun, nofun⟩, trivial⟩
  · exact iff_of_false (by decide) fun ⟨_, h, _⟩ => (nomatch h)
  · refine iff_of_false (by decide) fun ⟨_, h, hold⟩ => ?_
    cases h
    cases hold

theorem enabled_oneRound :
    Guarded (step H256.ofNat) (Enabled H256.ofNat) {} (.connect true false :: oneRound) := by
  obtain ⟨h1, h2, h3, h4, h5, h6, h7, -⟩ := guarded_oneRound
  exact ⟨⟨rfl, rfl, by decide⟩, h1.1, h2.1, h3.1, h4.1, h5.1, h6.1, h7.1, trivial⟩

/-- How often the packets of a run bring a peer a transaction. -/
def copiesSent (sha3 : Tx → H256) (p : Peer) (h : H256) (s : TransactionRelay Peer Tx)
    (ops : List (RelayAct Peer Tx)) : ℕ :=
  ((outputs (step sha3) packets s ops).map (copies sha3 p h)).sum

theorem copiesSent_le_credit (hs : Reachable sha3 s) (hops : Guarded (step sha3) (Enabled sha3) s ops) :
    copiesSent sha3 p h s ops ≤ credit sha3 p h s + (ops.map (renews p)).sum := by
  have hkeeps : ∀ (s : TransactionRelay Peer Tx) a, Invariant sha3 s → Enabled sha3 s a →
      Invariant sha3 (step sha3 s a) :=
    fun _ _ hs ha => hs.step ha
  have hpays : ∀ (s : TransactionRelay Peer Tx) a, Invariant sha3 s → Enabled sha3 s a →
      ((packets s a).map (copies sha3 p h)).sum + credit sha3 p h (step sha3 s a) ≤
        credit sha3 p h s + renews p a := fun _ _ hs ha => pays hs ha
  exact (Nat.le_add_right _ _).trans (outputs_sum_le hkeeps hpays hs.invariant hops)

/-- A transaction goes to a peer once, and once more for each time that the host forgets what it
has sent or that the peer requires transactions. -/
theorem copiesSent_le (hops : Guarded (step sha3) (Enabled sha3) {} ops) :
    copiesSent sha3 p h {} ops ≤ 1 + (ops.map (renews p)).sum := by
  have hcredit : credit sha3 p h ({} : TransactionRelay Peer Tx) = 1 := rfl
  exact hcredit ▸ copiesSent_le_credit .refl hops

theorem copiesSent_le_oneRound : copiesSent H256.ofNat true (H256.ofNat 7)
    ({} : TransactionRelay Bool ℕ) (.connect true false :: oneRound) ≤
      1 + ((.connect true false :: oneRound).map (renews true)).sum :=
  copiesSent_le enabled_oneRound

/-- What was sent, or was reported as known, before the host came to it in a round is not sent on
from then on. -/
theorem copiesSent_le_of_sent (hs : Reachable sha3 s) (hsent : h ∈ s.m_transactionsSent)
    (hround : s.round = .idle) (hrequire : ∀ peer, s.peers p = some peer → ¬ peer.m_requireTransactions)
    (hops : Guarded (step sha3) (Enabled sha3) s ops) :
    copiesSent sha3 p h s ops ≤ (ops.map (renews p)).sum := by
  have hfresh : fresh sha3 h s = 0 := if_pos (Or.inl hsent)
  have hpart : part sha3 p h s = 0 := by
    cases hp : s.peers p with
    | none => exact part_of_none hp
    | some peer =>
      have howed : owed sha3 s.round p h peer = 0 := if_neg fun h => hrequire peer hp h.1
      have hplanned : planned sha3 s.round p h peer = 0 := by
        rw [hround]
        rfl
      rw [part_of_some hp, share, howed, hplanned]
  have hle := copiesSent_le_credit (p := p) (h := h) hs hops
  rw [credit, hfresh, hpart, Nat.zero_add] at hle
  exact hle

/-- In the round in which a transaction is new a peer gets it, if the peer keeps its session and
neither has sent it to the host before nor does so during the round. -/
theorem delivered {ts : List Tx} {peer : RelayPeer} (ht : t ∈ ts)
    (hnew : sha3 t ∉ s.m_transactionsSent) (hp : s.peers p = some peer)
    (hknown : sha3 t ∉ peer.m_knownTransactions)
    (hops : Guarded (step sha3) (Keeps sha3 p t) s (.maintainTransactions ts :: ops))
    (hend : (runFrom (step sha3) s (.maintainTransactions ts :: ops)).round = .idle) :
    ∃ packet ∈ outputs (step sha3) packets s (.maintainTransactions ts :: ops),
      packet.1 = p ∧ t ∈ packet.2 := by
  have hdue : Due sha3 p t (s.step sha3 (.maintainTransactions ts)) :=
    ⟨peer, hp, trivial, Or.inr ⟨ht, hnew, hknown⟩⟩
  have hstep : ∀ (s : TransactionRelay Peer Tx) a, True → Keeps sha3 p t s a → Due sha3 p t s →
      Due sha3 p t (step sha3 s a) ∨ ∃ packet ∈ packets s a, packet.1 = p ∧ t ∈ packet.2 :=
    fun _ _ _ ha h => h.step ha
  rcases due_or_mem_outputs (fun _ _ _ _ => trivial) hstep trivial hops.2 hdue with hrest | hsent
  · obtain ⟨_, -, hawaits, -⟩ := hrest
    change (runFrom (step sha3) (s.step sha3 (.maintainTransactions ts)) ops).round = .idle at hend
    rw [hend] at hawaits
    exact hawaits.elim
  · exact hsent

theorem delivered_oneRound : ∃ packet ∈ outputs (step H256.ofNat) packets connected oneRound,
    packet.1 = true ∧ 7 ∈ packet.2 :=
  delivered (by decide) (by decide) rfl (by decide) guarded_oneRound rfl

end Runs

end TransactionRelay

end XChain
