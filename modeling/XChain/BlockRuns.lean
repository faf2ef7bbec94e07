import XChain.Block
import XChain.TransactionRlp

/-!
# Executing transactions on a block

What one execution does to a block, and what executing a list of them does. The pending
transactions of a block are executed while each of them is appended to the array they
are read from, so the first one that succeeds either moves the array away or leaves the
list longer than it was.
-/
namespace XChain
namespace Block

open Machine

variable {S : Type} {n : Node S} {b : Block S} {lh : List H256}

/-- The state that a block executes on: the one before the rewards, if they were given. -/
def live (b : Block S) : S := if b.committedToSeal then b.precommit else b.state

/-- A block whose rewards are taken back. -/
def uncommitted (b : Block S) : Block S := { b with state := b.live, committedToSeal := false }

/-- A block that has taken up a transaction. -/
def taken (n : Node S) (b : Block S) (t : Transaction) (s : S) (r : TransactionReceipt) : Block S :=
  { b with
    state := s
    committedToSeal := false
    transactions := b.transactions.push n.grow t
    receipts := b.receipts ++ [r]
    transactionSet := insert (txHash n t) b.transactionSet }

/-- The result of executing transactions one after the other. -/
def replay (n : Node S) (lh : List H256) (h : BlockHeader) :
    S → Word → List Transaction → Except StateError (S × List TransactionReceipt)
  | s, _, [] => .ok (s, [])
  | s, gas, t :: ts =>
    match n.ops.execute s ⟨h, lh, gas⟩ t with
    | .error e => .error e
    | .ok (s', r) =>
      match replay n lh h s' r.gasUsed ts with
      | .error e => .error e
      | .ok (s'', rs) => .ok (s'', r :: rs)

@[simp] theorem taken_live (t : Transaction) (s : S) (r : TransactionReceipt) :
    (taken n b t s r).live = s := rfl

@[simp] theorem taken_gasUsed (t : Transaction) (s : S) (r : TransactionReceipt) :
    (taken n b t s r).gasUsed = r.gasUsed := by
  show (((b.receipts ++ [r]).getLast?.map TransactionReceipt.gasUsed).getD 0) = r.gasUsed
  rw [List.getLast?_concat]
  rfl

theorem runs_uncommitToSeal {Q : PUnit → Block S → Prop} {E : BlockError → Block S → Prop}
    (hQ : Q ⟨⟩ b.uncommitted) : Runs uncommitToSeal b Q E := by
  refine runs_modify ?_
  by_cases hc : b.committedToSeal = true
  · rw [if_pos hc]
    unfold uncommitted live at hQ
    rw [if_pos hc] at hQ
    exact hQ
  · have hb : b.uncommitted = b := by
      have hf : b.committedToSeal = false := by simpa using hc
      unfold uncommitted live
      rw [if_neg hc, ← hf]
    rw [if_neg hc, ← hb]
    exact hQ

/-- One execution: the transaction is taken up, or the block keeps everything but the rewards. -/
theorem execute_spec (i : ℕ) (t : Transaction) :
    Runs (execute n lh i t) b
      (fun _ b' => b.isSealed = false ∧ ∃ s r,
        n.ops.execute b.live ⟨b.currentBlock, lh, b.gasUsed⟩ t = .ok (s, r) ∧ b' = taken n b t s r)
      (fun e b' => (b.isSealed = true ∧ e = .InvalidOperationOnSealedBlock ∧ b' = b) ∨
        (b.isSealed = false ∧ ∃ err,
          n.ops.execute b.live ⟨b.currentBlock, lh, b.gasUsed⟩ t = .error err ∧
            e = .transaction i err ∧ b' = b.uncommitted)) := by
  refine runs_bind (runs_get (runs_bind (runs_ite ?_ ?_)))
  · intro hs
    exact runs_throw (Or.inl ⟨hs, rfl, rfl⟩)
  · intro hs
    have hs : b.isSealed = false := by simpa using hs
    refine runs_pure (runs_bind (runs_uncommitToSeal (runs_bind (runs_get ?_))))
    cases hx : n.ops.execute b.live ⟨b.currentBlock, lh, b.gasUsed⟩ t with
    | error err =>
      rw [show n.ops.execute b.uncommitted.state
        ⟨b.uncommitted.currentBlock, lh, b.uncommitted.gasUsed⟩ t = .error err from hx]
      exact runs_throw (Or.inr ⟨hs, err, rfl, rfl, rfl⟩)
    | ok p =>
      rw [show n.ops.execute b.uncommitted.state
        ⟨b.uncommitted.currentBlock, lh, b.uncommitted.gasUsed⟩ t = .ok p from hx]
      exact runs_set ⟨hs, p.1, p.2, rfl, rfl⟩

/-- A block after transactions were executed on it: the rest of the block is as it was. -/
structure After (n : Node S) (b : Block S) (ts : List Transaction) (rs : List TransactionReceipt)
    (s : S) (b' : Block S) : Prop where
  live_eq : b'.live = s
  items : b'.transactions.items = b.transactions.items ++ ts
  receipts : b'.receipts = b.receipts ++ rs
  hashes : b'.transactionSet = b.transactionSet ∪ (ts.map (txHash n)).toFinset
  committed : b'.committedToSeal = true → b.committedToSeal = true
  rest : { b' with
    state := b.state
    transactions := b.transactions
    receipts := b.receipts
    transactionSet := b.transactionSet
    committedToSeal := b.committedToSeal } = b

namespace After

variable {ts ts' : List Transaction} {rs rs' : List TransactionReceipt} {s s' : S}
  {b' b'' : Block S}

theorem refl : After n b [] [] b.live b where
  live_eq := rfl
  items := (List.append_nil _).symm
  receipts := (List.append_nil _).symm
  hashes := (Finset.union_empty _).symm
  committed := id
  rest := rfl

theorem uncommitted (h : After n b ts rs s b') : After n b ts rs s b'.uncommitted where
  live_eq := h.live_eq
  items := h.items
  receipts := h.receipts
  hashes := h.hashes
  committed := Bool.false_ne_true.elim
  rest := h.rest

theorem of_taken {t : Transaction} {r : TransactionReceipt}
    (h : After n (taken n b t s r) ts rs s' b') : After n b (t :: ts) (r :: rs) s' b' where
  live_eq := h.live_eq
  items := by
    rw [h.items, show (taken n b t s r).transactions = b.transactions.push n.grow t from rfl,
      Buffer.push_items, List.append_assoc, List.singleton_append]
  receipts := by
    rw [h.receipts, show (taken n b t s r).receipts = b.receipts ++ [r] from rfl,
      List.append_assoc, List.singleton_append]
  hashes := by
    rw [h.hashes, show (taken n b t s r).transactionSet = insert (txHash n t) b.transactionSet
      from rfl, List.map_cons, List.toFinset_cons, Finset.union_insert, Finset.insert_union]
  committed := fun hc => (Bool.false_ne_true (h.committed hc)).elim
  rest := by
    have h := h.rest
    cases b
    cases b'
    simp only [taken, Block.mk.injEq] at h ⊢
    simp [h]

theorem currentBlock (h : After n b ts rs s b') : b'.currentBlock = b.currentBlock := by
  have h := congrArg Block.currentBlock h.rest
  exact h

theorem previousBlock (h : After n b ts rs s b') : b'.previousBlock = b.previousBlock := by
  have h := congrArg Block.previousBlock h.rest
  exact h

theorem state_eq (h : After n b ts rs s b') (hc : b.committedToSeal = false) : b'.state = s := by
  have hc' : b'.committedToSeal ≠ true := fun hc' => by
    rw [h.committed hc'] at hc
    cases hc
  have hl := h.live_eq
  unfold live at hl
  rwa [if_neg hc'] at hl

end After

/-- The receipt that was added last is there after an execution. -/
theorem runs_lastReceipt {t : Transaction} {s : S} {r : TransactionReceipt}
    {Q : TransactionReceipt → Block S → Prop} {E : BlockError → Block S → Prop}
    (hQ : Q r (taken n b t s r)) : Runs lastReceipt (taken n b t s r) Q E := by
  refine runs_bind (runs_get ?_)
  rw [show (taken n b t s r).receipts = b.receipts ++ [r] from rfl, List.getLast?_concat]
  exact runs_pure hQ

theorem replay_cons {h : BlockHeader} {s s' s'' : S} {gas : Word} {t : Transaction}
    {ts : List Transaction} {r : TransactionReceipt} {rs : List TransactionReceipt}
    (hx : n.ops.execute s ⟨h, lh, gas⟩ t = .ok (s', r))
    (hrest : replay n lh h s' r.gasUsed ts = .ok (s'', rs)) :
    replay n lh h s gas (t :: ts) = .ok (s'', r :: rs) := by
  simp only [replay, hx, hrest]

section Exec

variable {Q : Type} {q : QueueOps Q}

theorem runs_onBlock {α : Type} {m : Exec S α} {queue : Q} {P : α → Block S × Q → Prop}
    {E : BlockError → Block S × Q → Prop}
    (h : Runs m b (fun a b' => P a (b', queue)) fun e b' => E e (b', queue)) :
    Runs (onBlock m) (b, queue) P E := by
  unfold Runs at h ⊢
  cases hm : m.run b with
  | ok a b' =>
    have hon : (onBlock m).run (b, queue) = .ok a (b', queue) := by
      show onBlock m (b, queue) = _
      simp only [onBlock, show m b = .ok a b' from hm]
    rw [hm] at h
    rw [hon]
    exact h
  | error e b' =>
    have hon : (onBlock m).run (b, queue) = .error e (b', queue) := by
      show onBlock m (b, queue) = _
      simp only [onBlock, show m b = .error e b' from hm]
    rw [hm] at h
    rw [hon]
    exact h

theorem runs_readTransaction {c : Cursor} {P : Transaction → Block S → Prop}
    {E : BlockError → Block S → Prop}
    (hP : ∀ t, b.transactions.read c = some t → P t b)
    (hE : b.transactions.read c = none → E .dangling b) : Runs (readTransaction c) b P E := by
  refine runs_bind (runs_get ?_)
  cases hr : b.transactions.read c with
  | some t => exact runs_pure (hP t hr)
  | none => exact runs_throw (hE hr)

/-- The walk over the pending transactions. Every round appends one transaction, whether or not
the walk comes to its end. -/
theorem execLoop_spec (remaining i : ℕ) (c : Cursor) (queue : Q) :
    Runs (execLoop n q lh remaining i c) (b, queue)
      (fun rs s' => ∃ ts s, ts.length = remaining ∧
        replay n lh b.currentBlock b.live b.gasUsed ts = .ok (s, rs) ∧ After n b ts rs s s'.1)
      (fun _ s' => ∃ ts rs s,
        replay n lh b.currentBlock b.live b.gasUsed ts = .ok (s, rs) ∧ After n b ts rs s s'.1) := by
  induction remaining generalizing b queue i c with
  | zero => exact runs_pure ⟨[], b.live, rfl, rfl, After.refl⟩
  | succ remaining ih =>
    have hnone : ∃ ts rs s, replay n lh b.currentBlock b.live b.gasUsed ts = .ok (s, rs) ∧
        After n b ts rs s b := ⟨[], [], b.live, rfl, After.refl⟩
    refine runs_bind (runs_onBlock (runs_readTransaction (fun t ht => ?_) fun _ => hnone))
    refine runs_bind (runs_tryCatch (runs_onBlock ((execute_spec i t).mono ?_ ?_)))
    · rintro - b' ⟨-, s, r, hx, rfl⟩
      have hone : ∃ ts rs s, replay n lh b.currentBlock b.live b.gasUsed ts = .ok (s, rs) ∧
          After n b ts rs s (taken n b t s r) :=
        ⟨[t], [r], s, replay_cons hx rfl, After.of_taken After.refl⟩
      refine runs_bind (runs_onBlock (runs_readTransaction (fun _ _ => ?_) fun _ =>
        ⟨[t], [r], s, replay_cons hx rfl, After.of_taken After.refl⟩))
      refine runs_bind (runs_onBlock (runs_lastReceipt (runs_bind ((ih _ _ _).mono ?_ ?_))))
      · rintro rs s' ⟨ts, s'', hlen, hr, ha⟩
        rw [taken_live, taken_gasUsed] at hr
        exact runs_pure ⟨t :: ts, s'', by rw [List.length_cons, hlen], replay_cons hx hr,
          ha.of_taken⟩
      · rintro - s' ⟨ts, rs, s'', hr, ha⟩
        rw [taken_live, taken_gasUsed] at hr
        exact ⟨t :: ts, r :: rs, s'', replay_cons hx hr, ha.of_taken⟩
    · rintro e b' (⟨-, -, rfl⟩ | ⟨-, -, -, -, rfl⟩)
      · exact runs_bind (runs_modify (runs_throw hnone))
      · exact runs_bind (runs_modify (runs_throw
          ⟨[], [], b.live, rfl, After.refl.uncommitted⟩))

/-- The gas that is used after receipts. -/
def gasAfter (gas : Word) (rs : List TransactionReceipt) : Word :=
  (rs.getLast?.map TransactionReceipt.gasUsed).getD gas

/-- The list of transactions and the set of their hashes are as they were. -/
def KeepsPending (b b' : Block S) : Prop :=
  b'.transactions.items = b.transactions.items ∧ b'.transactionSet = b.transactionSet

/-- The pending transactions are executed once and in order, with a receipt for each and with
cumulative gas that does not fall. One that throws ends the walk, and the ones before it
were executed. The transactions stay pending. -/
def ExecutesPending (n : Node S) (q : QueueOps Q) (b : Block S) (queue : Q) : Prop :=
  let lh := n.chain.lastHashes n.chain.currentHash
  match exec n q (b, queue) with
  | .ok rs s' =>
    replay n lh b.currentBlock b.live b.gasUsed b.transactions.items = .ok (s'.1.live, rs) ∧
      s'.1.receipts = b.receipts ++ rs ∧ (rs.map TransactionReceipt.gasUsed).Pairwise (· ≤ ·) ∧
      KeepsPending b s'.1
  | .error e s' =>
    KeepsPending b s'.1 ∧ ((b.isSealed = true ∧ e = .InvalidOperationOnSealedBlock) ∨
      ∃ i t err rs, b.transactions.items[i]? = some t ∧
        replay n lh b.currentBlock b.live b.gasUsed (b.transactions.items.take i) =
          .ok (s'.1.live, rs) ∧
        s'.1.receipts = b.receipts ++ rs ∧ (rs.map TransactionReceipt.gasUsed).Pairwise (· ≤ ·) ∧
        n.ops.execute s'.1.live ⟨b.currentBlock, lh, gasAfter b.gasUsed rs⟩ t = .error err ∧
        e = .transaction i err)

/-- The first pending transaction throws. -/
def FirstThrows (n : Node S) (b : Block S) : Prop :=
  ∃ t err, b.transactions.items.head? = some t ∧ n.ops.execute b.live
    ⟨b.currentBlock, n.chain.lastHashes n.chain.currentHash, b.gasUsed⟩ t = .error err

theorem exec_sealed {queue : Q} (hs : b.isSealed = true) :
    exec n q (b, queue) = .error .InvalidOperationOnSealedBlock (b, queue) := by
  show (if b.isSealed = true then throw BlockError.InvalidOperationOnSealedBlock
    else pure () : EStateM BlockError (Block S × Q) Unit).bind _ (b, queue) = _
  rw [if_pos hs]
  rfl

theorem exec_open {queue : Q} (hs : b.isSealed = false) : exec n q (b, queue) =
    execLoop n q (n.chain.lastHashes n.chain.currentHash) b.transactions.items.length 0
      b.transactions.begin (b, queue) := by
  show (if b.isSealed = true then throw BlockError.InvalidOperationOnSealedBlock
    else pure () : EStateM BlockError (Block S × Q) Unit).bind _ (b, queue) = _
  rw [if_neg (by rw [hs]; exact Bool.false_ne_true)]
  rfl

theorem not_executesPending_of_runs {queue : Q} {P : List TransactionReceipt → Block S × Q → Prop}
    {E : BlockError → Block S × Q → Prop} (h : Runs (exec n q) (b, queue) P E)
    (hP : ∀ rs s', P rs s' → ¬ KeepsPending b s'.1) (hE : ∀ e s', E e s' → ¬ KeepsPending b s'.1) :
    ¬ ExecutesPending n q b queue := by
  intro hx
  unfold ExecutesPending at hx
  cases hm : exec n q (b, queue) with
  | ok rs s' =>
    rw [hm] at hx
    exact hP rs s' (h.ok hm) hx.2.2.2
  | error e s' =>
    rw [hm] at hx
    exact hE e s' (h.error hm) hx.1

theorem read_begin {t : Transaction} {rest : List Transaction}
    (hitems : b.transactions.items = t :: rest) :
    b.transactions.read b.transactions.begin = some t := by
  unfold Buffer.read Buffer.begin
  rw [if_pos rfl, hitems]
  rfl

/-- The walk on an open block comes to the first transaction, and behind it if it succeeds. -/
theorem runs_exec_cons {queue : Q} {P : List TransactionReceipt → Block S × Q → Prop}
    {E : BlockError → Block S × Q → Prop} (hs : b.isSealed = false) {t : Transaction}
    {rest : List Transaction} (hitems : b.transactions.items = t :: rest)
    (hok : ∀ s r, n.ops.execute b.live
        ⟨b.currentBlock, n.chain.lastHashes n.chain.currentHash, b.gasUsed⟩ t = .ok (s, r) →
      Runs (do
        let _ ← onBlock (readTransaction b.transactions.begin)
        let r ← onBlock lastReceipt
        let rs ← execLoop n q (n.chain.lastHashes n.chain.currentHash) rest.length 1
          { b.transactions.begin with index := b.transactions.begin.index + 1 }
        pure (r :: rs)) (taken n b t s r, queue) P E)
    (herr : ∀ err, n.ops.execute b.live
        ⟨b.currentBlock, n.chain.lastHashes n.chain.currentHash, b.gasUsed⟩ t = .error err →
      E (.transaction 0 err) (b.uncommitted, q.drop queue (txHash n t))) :
    Runs (exec n q) (b, queue) P E := by
  unfold Runs
  rw [show (exec n q).run (b, queue) = _ from exec_open hs, hitems, List.length_cons]
  refine runs_bind (runs_onBlock (runs_readTransaction (fun t' ht' => ?_) fun hnone => ?_))
  · obtain rfl : t = t' := Option.some.inj ((read_begin hitems).symm.trans ht')
    refine runs_bind (runs_tryCatch (runs_onBlock ((execute_spec 0 t).mono ?_ ?_)))
    · rintro - b' ⟨-, s, r, hx, rfl⟩
      exact hok s r hx
    · rintro e b' (⟨hs', -, -⟩ | ⟨-, err, hx, rfl, rfl⟩)
      · rw [hs] at hs'
        cases hs'
      · exact runs_bind (runs_modify (runs_throw (herr err hx)))
  · rw [read_begin hitems] at hnone
    cases hnone

/-- A first transaction that succeeds is appended, and the list is never what it was. -/
theorem not_executesPending {queue : Q} (hs : b.isSealed = false) {t : Transaction}
    {rest : List Transaction} (hitems : b.transactions.items = t :: rest) {s : S}
    {r : TransactionReceipt} (hx : n.ops.execute b.live
      ⟨b.currentBlock, n.chain.lastHashes n.chain.currentHash, b.gasUsed⟩ t = .ok (s, r)) :
    ¬ ExecutesPending n q b queue := by
  have hgrown : ∀ ts rs s' b', After n (taken n b t s r) ts rs s' b' → ¬ KeepsPending b b' := by
    rintro ts rs s' b' ha ⟨hkeep, -⟩
    have hlen := congrArg List.length (ha.of_taken.items.symm.trans hkeep)
    rw [List.length_append, List.length_cons] at hlen
    omega
  refine not_executesPending_of_runs (P := fun _ s' => ¬ KeepsPending b s'.1)
    (E := fun _ s' => ¬ KeepsPending b s'.1) ?_ (fun _ _ h => h) fun _ _ h => h
  refine runs_exec_cons hs hitems (fun s' r' hx' => ?_) fun err hx' => ?_
  · obtain ⟨rfl, rfl⟩ := Prod.mk.inj (Except.ok.inj (hx.symm.trans hx'))
    have hhere := hgrown [] [] _ _ After.refl
    refine runs_bind (runs_onBlock (runs_readTransaction (fun _ _ => ?_) fun _ => hhere))
    refine runs_bind (runs_onBlock (runs_lastReceipt (runs_bind
      ((execLoop_spec rest.length 1 _ queue).mono ?_ ?_))))
    · rintro rs' s' ⟨ts, s'', -, -, ha⟩
      exact runs_pure (hgrown _ _ _ _ ha)
    · rintro - s' ⟨ts, rs', s'', -, ha⟩
      exact hgrown _ _ _ _ ha
  · rw [hx] at hx'
    cases hx'

theorem executesPending_of_throws {queue : Q} (hs : b.isSealed = false) (h : FirstThrows n b) :
    ExecutesPending n q b queue := by
  obtain ⟨t, err, hhead, hx⟩ := h
  obtain ⟨rest, hitems⟩ : ∃ rest, b.transactions.items = t :: rest := by
    cases hl : b.transactions.items with
    | nil =>
      rw [hl] at hhead
      cases hhead
    | cons t' rest =>
      rw [hl] at hhead
      obtain rfl : t' = t := Option.some.inj hhead
      exact ⟨rest, rfl⟩
  have hruns : Runs (exec n q) (b, queue) (fun _ _ => False) fun e s' =>
      e = .transaction 0 err ∧ s'.1 = b.uncommitted := by
    refine runs_exec_cons hs hitems (fun s' r' hx' => ?_) fun err' hx' => ?_
    · rw [hx] at hx'
      cases hx'
    · rw [hx] at hx'
      obtain rfl := Except.error.inj hx'
      exact ⟨rfl, rfl⟩
  unfold ExecutesPending
  cases hm : exec n q (b, queue) with
  | ok rs s' => exact (hruns.ok hm).elim
  | error e s' =>
    obtain ⟨rfl, hb⟩ := hruns.error hm
    show KeepsPending b s'.1 ∧ _
    rw [hb]
    refine ⟨⟨rfl, rfl⟩, Or.inr ⟨0, t, err, [], ?_, rfl, (List.append_nil _).symm,
      List.Pairwise.nil, hx, rfl⟩⟩
    rw [hitems]
    rfl

/-- The pending transactions are executed as they should be exactly where none of them is: on a
sealed block, on a block without any, and where the first one throws. -/
theorem exec_pending_exact (n : Node S) (q : QueueOps Q) (b : Block S) (queue : Q) :
    ExecutesPending n q b queue ↔
      b.isSealed = true ∨ b.transactions.items = [] ∨ FirstThrows n b := by
  constructor
  · intro h
    by_contra hcon
    obtain ⟨hs, hne, hfirst⟩ : b.isSealed ≠ true ∧ b.transactions.items ≠ [] ∧ ¬ FirstThrows n b :=
      ⟨fun hs => hcon (Or.inl hs), fun hl => hcon (Or.inr (Or.inl hl)),
        fun hf => hcon (Or.inr (Or.inr hf))⟩
    obtain ⟨t, rest, hitems⟩ := List.exists_cons_of_ne_nil hne
    cases hx : n.ops.execute b.live
        ⟨b.currentBlock, n.chain.lastHashes n.chain.currentHash, b.gasUsed⟩ t with
    | error err => exact hfirst ⟨t, err, by rw [hitems]; rfl, hx⟩
    | ok p => exact not_executesPending (by simpa using hs) hitems hx h
  · intro h
    by_cases hs : b.isSealed = true
    · unfold ExecutesPending
      rw [exec_sealed hs]
      exact ⟨⟨rfl, rfl⟩, Or.inl ⟨hs, rfl⟩⟩
    · have hs : b.isSealed = false := by simpa using hs
      obtain hs' | hl | hf := h
      · rw [hs] at hs'
        cases hs'
      · unfold ExecutesPending
        rw [exec_open hs, hl]
        exact ⟨rfl, (List.append_nil _).symm, List.Pairwise.nil, rfl, rfl⟩
      · exact executesPending_of_throws hs hf

end Exec

/-- A node whose states are their roots, and where transactions lead to one root. -/
def countingNode : Node H256 where
  sha3 := fun b => .ofNat (b.length + 1)
  hash256 := fun l => .ofNat (l.length + 1)
  receiptRlp := fun _ => [0x80]
  ops := {
    rootHash := id
    hasRoot := fun _ _ => true
    setRoot := fun _ r => r
    execute := fun _ env _ => .ok (.ofNat 7, ⟨.ofNat 7, env.gasUsed + 21000, 0, []⟩)
    addBalance := fun s _ _ => s
    commit := fun s _ => s
    moveDaos := id
    rollback := id }
  chain := {
    headerData := fun _ => none
    isKnown := fun _ => false
    parent := id
    children := fun _ => []
    allKinFrom := fun _ _ => []
    genesisHash := .zero
    currentHash := .zero
    lastHashes := fun _ => []
    blockReward := 0
    EIP158ForkBlock := 0
    daoHardforkBlock := 0 }
  grow := fun c => 2 * c

def noQueue : QueueOps Unit := ⟨fun _ _ _ => [], fun q _ => q, fun q _ => q, fun _ _ => 0⟩

def onePending : Block H256 where
  state := .zero
  transactions := Buffer.empty.push countingNode.grow .payment
  receipts := []
  transactionSet := {txHash countingNode .payment}
  precommit := .zero
  previousBlock := .empty
  currentBlock := .empty
  currentBytes := []
  committedToSeal := false
  currentTxs := []
  currentUncles := []
  author := 0

/-- One transaction that succeeds. -/
theorem onePending_not_kept : ¬ ExecutesPending countingNode noQueue onePending () :=
  not_executesPending rfl rfl rfl

end Block
end XChain
