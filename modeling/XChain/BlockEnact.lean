import XChain.BlockRuns

/-!
# Following a received block

A block that is accepted was executed transaction by transaction on the state of its
parent, and its header names the root of the receipts, the bloom and the gas of that
execution. The root of the state is only compared where the header does not name the
root of the parent.
-/
namespace XChain
namespace Block

open Machine Rlp

variable {S : Type} {n : Node S} {b : Block S} {lh : List H256}

/-- A block as it is before it follows another one. -/
structure Reset (b : Block S) : Prop where
  receipts : b.receipts = []
  committed : b.committedToSeal = false

/-- A state after the rewards of a block. -/
def rewarded (n : Node S) (h : BlockHeader) (uncles : List BlockHeader) (s : S) : S :=
  let s := uncles.foldl (fun s u => n.ops.addBalance s u.author
    (n.chain.blockReward * (8 + u.number - h.number) / 8)) s
  n.ops.addBalance s h.author
    (uncles.foldl (fun r _ => r + n.chain.blockReward / 32) n.chain.blockReward)

/-- The uncles that a block names. -/
def unclesOf (n : Node S) (blk : VerifiedBlock) : Option (List BlockHeader) := do
  let root ← decodeStrict blk.block
  (rawItems (get? root 2)).mapM fun raw =>
    (BlockHeader.ofBytes n.sha3 raw .HeaderData (n.sha3 raw)).toOption

/-- The state and the receipts that a block leads to: its transactions one after the other, then
the rewards. -/
def outcome (n : Node S) (s : S) (blk : VerifiedBlock) : Option (S × List TransactionReceipt) :=
  match replay n (n.chain.lastHashes blk.info.parentHash) blk.info s 0 blk.transactions with
  | .error _ => none
  | .ok (s, rs) => (unclesOf n blk).map fun us => (n.ops.commit (rewarded n blk.info us s)
      (decide (n.chain.EIP158ForkBlock ≤ blk.info.number)), rs)

/-- What a header says about the receipts of its block. -/
structure NamesReceipts (n : Node S) (h : BlockHeader) (rs : List TransactionReceipt) : Prop where
  receiptsRoot : h.receiptsRoot = orderedTrieRoot n (rs.map n.receiptRlp)
  logBloom : h.logBloom = LogBloom.join (rs.map TransactionReceipt.bloom)
  gasUsed : h.gasUsed = gasAfter 0 rs

/-- The header names what the execution of its block leads to. -/
def HeaderMatches (n : Node S) (s : S) (blk : VerifiedBlock) : Prop :=
  ∃ s' rs, outcome n s blk = some (s', rs) ∧ NamesReceipts n blk.info rs ∧
    blk.info.stateRoot = n.ops.rootHash s'

/-- The header of a block that the chain has. -/
def headerOf (n : Node S) (h : H256) : Option BlockHeader := do
  let data ← n.chain.headerData h
  (BlockHeader.ofBytes n.sha3 data .HeaderData .zero).toOption

/-- Any exception, in any state. -/
def Anyhow : BlockError → Block S → Prop := fun _ _ => True

section Specs

theorem runs_liftExcept {α ε : Type} {f : ε → BlockError} {x : Except ε α}
    {Q : α → Block S → Prop} (h : ∀ a, x = .ok a → Q a b) : Runs (liftExcept f x) b Q Anyhow := by
  cases x with
  | ok a => exact runs_pure (h a rfl)
  | error e => exact runs_throw trivial

theorem runs_info {h : H256} {Q : BlockHeader → Block S → Prop}
    (hQ : ∀ bi, headerOf n h = some bi → Q bi b) : Runs (info n h) b Q Anyhow := by
  unfold info
  cases hd : n.chain.headerData h with
  | none => exact runs_throw trivial
  | some data =>
    refine runs_liftExcept fun bi hbi => hQ bi ?_
    unfold headerOf
    rw [hd]
    show (BlockHeader.ofBytes n.sha3 data .HeaderData .zero).toOption = some bi
    rw [hbi]
    rfl

/-- A check that throws where it does not hold. -/
theorem runs_guard {p : Prop} [Decidable p] {e : BlockError} {Q : PUnit → Block S → Prop}
    (h : ¬ p → Q ⟨⟩ b) : Runs (if p then throw e else pure () : Exec S PUnit) b Q Anyhow :=
  runs_ite (fun _ => runs_throw trivial) fun hp => runs_pure (h hp)

theorem runs_rollback {p : Prop} [Decidable p] {f : Block S → Block S} {e : BlockError}
    {Q : PUnit → Block S → Prop} (h : ¬ p → Q ⟨⟩ b) :
    Runs (if p then do
      modify f
      throw e
    else pure () : Exec S PUnit) b Q Anyhow :=
  runs_ite (fun _ => runs_bind (runs_modify (runs_throw trivial))) fun hp => runs_pure (h hp)

theorem enactTransactions_spec (ts : List Transaction) (i : ℕ) :
    Runs (enactTransactions n lh ts i) b (fun l b' => ∃ rs s,
      replay n lh b.currentBlock b.live b.gasUsed ts = .ok (s, rs) ∧ l = rs.map n.receiptRlp ∧
        After n b ts rs s b') Anyhow := by
  induction ts generalizing b i with
  | nil => exact runs_pure ⟨[], b.live, rfl, rfl, After.refl⟩
  | cons t ts ih =>
    refine runs_bind ((execute_spec i t).mono ?_ fun _ _ _ => trivial)
    rintro - b' ⟨-, s, r, hx, rfl⟩
    refine runs_bind (runs_lastReceipt (runs_bind ((ih (i + 1)).imp ?_)))
    rintro l b' ⟨rs, s', hr, rfl, ha⟩
    rw [taken_live, taken_gasUsed] at hr
    exact runs_pure ⟨r :: rs, s', replay_cons hx hr, rfl, ha.of_taken⟩

theorem enactUncle_spec (excluded : List H256) (raw : Bytes) :
    Runs (enactUncle n excluded raw) b (fun u b' => b' = b ∧
      BlockHeader.ofBytes n.sha3 raw .HeaderData (n.sha3 raw) = .ok u) Anyhow := by
  refine runs_bind (runs_get (runs_bind (runs_guard fun _ => runs_bind (runs_liftExcept ?_))))
  intro u hu
  refine runs_bind (runs_ite (fun _ => runs_pure ?_) fun _ => runs_throw trivial)
  refine runs_bind (runs_info fun p _ => runs_bind ?_)
  refine runs_ite (fun _ => runs_throw trivial) fun _ => runs_ite (fun _ => runs_throw trivial) fun _ =>
    runs_pure (runs_bind (runs_guard fun _ => runs_bind (runs_liftExcept fun _ _ => ?_)))
  exact runs_pure ⟨rfl, hu⟩

theorem enactUncles_spec (excluded : List H256) (raw : List Bytes) (i : ℕ) :
    Runs (enactUncles n excluded raw i) b (fun us b' => b' = b ∧ raw.mapM (fun raw =>
      (BlockHeader.ofBytes n.sha3 raw .HeaderData (n.sha3 raw)).toOption) = some us) Anyhow := by
  induction raw generalizing excluded i with
  | nil => exact runs_pure ⟨rfl, rfl⟩
  | cons r raw ih =>
    refine runs_bind (runs_tryCatch ((enactUncle_spec excluded r).mono ?_ fun _ _ _ =>
      runs_throw trivial))
    rintro u b' ⟨rfl, hu⟩
    refine runs_bind ((ih _ _).imp ?_)
    rintro us b'' ⟨rfl, hus⟩
    refine runs_pure ⟨rfl, ?_⟩
    rw [List.mapM_cons, hu, hus]
    rfl

/-- An accepted block: everything was compared but the root of the state, where the header names
the root of its parent. -/
theorem enact_spec (hr : Reset b) (blk : VerifiedBlock) :
    Runs (enact n blk) b (fun _ _ => ∃ s rs, outcome n b.state blk = some (s, rs) ∧
      NamesReceipts n blk.info rs ∧ (blk.info.stateRoot ≠ b.previousBlock.stateRoot →
        blk.info.stateRoot = n.ops.rootHash s)) Anyhow := by
  refine runs_bind (runs_get (runs_bind (runs_guard fun _ => runs_bind (runs_modify ?_))))
  refine runs_bind ?_
  cases hroot : decodeStrict blk.block with
  | none => exact runs_throw trivial
  | some root =>
    refine runs_pure (runs_bind ((enactTransactions_spec blk.transactions 0).imp ?_))
    rintro l b' ⟨rs, s, hreplay, rfl, ha⟩
    have hlive : ({ b with currentBlock := blk.info } : Block S).live = b.state := by
      unfold live
      rw [if_neg (by rw [hr.committed]; exact Bool.false_ne_true)]
    have hgas : ({ b with currentBlock := blk.info } : Block S).gasUsed = 0 := by
      unfold gasUsed
      rw [hr.receipts]
      rfl
    rw [hlive, hgas] at hreplay
    have hcurrent : b'.currentBlock = blk.info := ha.currentBlock
    have hprevious : b'.previousBlock = b.previousBlock := ha.previousBlock
    have hstate : b'.state = s := ha.state_eq hr.committed
    have hreceipts : b'.receipts = rs := by
      rw [ha.receipts, hr.receipts, List.nil_append]
    refine runs_bind (runs_guard fun hroots => runs_bind (runs_get (runs_bind (runs_guard fun hbloom =>
      runs_bind (runs_guard fun _ => runs_bind ((enactUncles_spec _ _ 0).imp ?_))))))
    rintro us b'' ⟨rfl, hus⟩
    refine runs_bind (runs_modify (runs_bind (runs_modify (runs_bind (runs_get (runs_bind
      (runs_rollback fun hst => runs_bind (runs_rollback fun hg => runs_pure ?_))))))))
    have houtcome : outcome n b.state blk = some (n.ops.commit (rewarded n blk.info us s)
        (decide (n.chain.EIP158ForkBlock ≤ blk.info.number)), rs) := by
      unfold outcome unclesOf
      rw [hreplay, hroot]
      simp only [Option.bind_eq_bind, Option.bind_some, hus, Option.map_some]
    refine ⟨_, rs, houtcome, ⟨(not_not.mp hroots).symm, ?_, ?_⟩, ?_⟩
    · rw [← hcurrent, not_not.mp hbloom]
      unfold logBloom
      rw [hreceipts]
    · have hg : b''.currentBlock.gasUsed = b''.gasUsed := not_not.mp hg
      rw [← hcurrent, hg]
      unfold gasUsed gasAfter
      rw [hreceipts]
    · intro hne
      have hst : ¬ (b''.currentBlock.stateRoot ≠ b''.previousBlock.stateRoot ∧
        b''.currentBlock.stateRoot ≠ n.ops.rootHash (n.ops.commit
          (rewarded n b''.currentBlock us b''.state)
          (decide (n.chain.EIP158ForkBlock ≤ b''.currentBlock.number)))) := hst
      rw [hcurrent, hprevious, hstate] at hst
      by_contra hcon
      exact hst ⟨hne, hcon⟩

/-- The changes of the fork, on a state. -/
def irregular (n : Node S) (number : Word) (s : S) : S :=
  if n.chain.daoHardforkBlock ≠ 0 ∧ number = n.chain.daoHardforkBlock then
    n.ops.commit (n.ops.moveDaos s) false
  else s

/-- A clean child of the previous block. -/
structure Child (n : Node S) (b b' : Block S) : Prop where
  reset : Reset b'
  previousBlock : b'.previousBlock = b.previousBlock
  opened : b'.isSealed = false
  pending : b'.transactions = b.transactions.clear
  hashes : b'.transactionSet = ∅
  number : b'.currentBlock.number = b.previousBlock.number + 1
  parentHash : b'.currentBlock.parentHash = b.previousBlock.memo
  state : b'.state = irregular n (b.previousBlock.number + 1)
    (n.ops.setRoot b.state b.previousBlock.stateRoot)

theorem runs_resetCurrent {timestamp : Word} {Q : PUnit → Block S → Prop}
    {E : BlockError → Block S → Prop} (hQ : ∀ b', Child n b b' → Q ⟨⟩ b') :
    Runs (resetCurrent n timestamp) b Q E := by
  refine runs_bind (runs_modify (runs_modify ?_))
  split_ifs with hf
  · exact hQ _ ⟨⟨rfl, rfl⟩, rfl, rfl, rfl, rfl, rfl, rfl, (if_pos hf).symm⟩
  · exact hQ _ ⟨⟨rfl, rfl⟩, rfl, rfl, rfl, rfl, rfl, rfl, (if_neg hf).symm⟩

theorem sync_spec (timestamp : Word) (h : H256) :
    Runs (sync n timestamp h) b (fun _ b' => ∃ bi, headerOf n h = some bi ∧
      b'.previousBlock.stateRoot = bi.stateRoot) Anyhow := by
  refine runs_bind (runs_info fun bi hbi => runs_bind (runs_get (runs_ite ?_ fun _ => runs_ite ?_ ?_)))
  · intro hsame
    refine runs_bind (runs_modify (runs_bind (runs_resetCurrent fun b' hb' => runs_pure ⟨bi, hbi, ?_⟩)))
    rw [hb'.previousBlock]
    simp only [BlockHeader.sameFields, decide_eq_true_eq] at hsame
    exact hsame.2.2.2.1.symm
  · intro hsame
    refine runs_pure ⟨bi, hbi, ?_⟩
    simp only [BlockHeader.sameFields, decide_eq_true_eq] at hsame
    exact hsame.2.2.2.1.symm
  · intro _
    refine runs_ite (fun _ => ?_) fun _ => runs_throw trivial
    refine runs_bind (runs_modify (runs_bind (runs_resetCurrent fun b' hb' => runs_pure ⟨bi, hbi, ?_⟩)))
    rw [hb'.previousBlock]

/-- A received block is followed from the state of its parent. -/
theorem enactOn_spec (timestamp : Word) (blk : VerifiedBlock) :
    Runs (enactOn n timestamp blk) b (fun w b' => ∃ parent b₀ s,
      headerOf n blk.info.parentHash = some parent ∧
        blk.info.verify n.sha3 .CheckNothingNew parent = .ok () ∧ Reset b₀ ∧
        b₀.previousBlock = parent ∧
        b₀.state = irregular n (b₀.currentBlock.number) (n.ops.setRoot s parent.stateRoot) ∧
        enact n blk b₀ = .ok w b') Anyhow := by
  refine runs_bind (runs_info fun parent hparent => runs_bind (runs_liftExcept fun _ hverify =>
    runs_bind ?_))
  have hrest : Runs (do
      let _ ← sync n timestamp blk.info.parentHash
      resetCurrent n timestamp
      modify fun b => { b with previousBlock := parent }
      enact n blk) b (fun w b' => ∃ parent b₀ s,
      headerOf n blk.info.parentHash = some parent ∧
        blk.info.verify n.sha3 .CheckNothingNew parent = .ok () ∧ Reset b₀ ∧
        b₀.previousBlock = parent ∧
        b₀.state = irregular n (b₀.currentBlock.number) (n.ops.setRoot s parent.stateRoot) ∧
        enact n blk b₀ = .ok w b') Anyhow := by
    refine runs_bind ((sync_spec timestamp blk.info.parentHash).imp ?_)
    rintro - b₁ ⟨bi, hbi, hroot⟩
    obtain rfl : parent = bi := Option.some.inj (hparent.symm.trans hbi)
    refine runs_bind (runs_resetCurrent fun b₂ hb₂ => runs_bind (runs_modify ?_))
    unfold Runs
    cases he : (enact n blk).run { b₂ with previousBlock := parent } with
    | ok w b' =>
      refine ⟨parent, { b₂ with previousBlock := parent }, b₁.state, hparent, hverify,
        ⟨hb₂.reset.receipts, hb₂.reset.committed⟩, rfl, ?_, he⟩
      show b₂.state = irregular n b₂.currentBlock.number (n.ops.setRoot b₁.state parent.stateRoot)
      rw [hb₂.state, hb₂.number, hroot]
    | error e b' => trivial
  refine runs_ite (fun _ => runs_bind (runs_info fun _ _ => runs_pure hrest)) fun _ => runs_pure hrest

end Specs

section Accepting

/-- No exception. -/
def Never : BlockError → Block S → Prop := fun _ _ => False

theorem replay_cons_ok {h : BlockHeader} {s s' : S} {gas : Word} {t : Transaction}
    {ts : List Transaction} {rs : List TransactionReceipt}
    (hr : replay n lh h s gas (t :: ts) = .ok (s', rs)) : ∃ s₁ r rs', rs = r :: rs' ∧
      n.ops.execute s ⟨h, lh, gas⟩ t = .ok (s₁, r) ∧ replay n lh h s₁ r.gasUsed ts = .ok (s', rs') := by
  unfold replay at hr
  cases hx : n.ops.execute s ⟨h, lh, gas⟩ t with
  | error e =>
    rw [hx] at hr
    cases hr
  | ok p =>
    rw [hx] at hr
    cases hrest : replay n lh h p.1 p.2.gasUsed ts with
    | error e =>
      simp only [hrest] at hr
      cases hr
    | ok q =>
      simp only [hrest] at hr
      obtain ⟨rfl, rfl⟩ := Prod.mk.inj (Except.ok.inj hr)
      exact ⟨p.1, p.2, q.2, rfl, rfl, hrest⟩

theorem enactTransactions_accepts {ts : List Transaction} (i : ℕ) {s : S}
    {rs : List TransactionReceipt} (hopen : b.isSealed = false)
    (hr : replay n lh b.currentBlock b.live b.gasUsed ts = .ok (s, rs)) :
    Runs (enactTransactions n lh ts i) b
      (fun l b' => l = rs.map n.receiptRlp ∧ After n b ts rs s b') Never := by
  induction ts generalizing b i s rs with
  | nil =>
    obtain ⟨rfl, rfl⟩ := Prod.mk.inj (Except.ok.inj hr)
    exact runs_pure ⟨rfl, After.refl⟩
  | cons t ts ih =>
    obtain ⟨s₁, r, rs', rfl, hx, hrest⟩ := replay_cons_ok hr
    refine runs_bind ((execute_spec i t).mono ?_ ?_)
    · rintro - b' ⟨-, s₁', r', hx', rfl⟩
      obtain ⟨rfl, rfl⟩ := Prod.mk.inj (Except.ok.inj (hx.symm.trans hx'))
      rw [← taken_gasUsed (n := n) (b := b) t s₁ r] at hrest
      refine runs_bind (runs_lastReceipt (runs_bind
        ((ih (b := taken n b t s₁ r) (i + 1) hopen hrest).imp ?_)))
      rintro l b' ⟨rfl, ha⟩
      exact runs_pure ⟨rfl, ha.of_taken⟩
    · rintro e b' (⟨hs, -, -⟩ | ⟨-, err, hx', -, -⟩)
      · rw [hopen] at hs
        cases hs
      · rw [hx] at hx'
        cases hx'

/-- What makes a block accepted: a header that names what the execution leads to, and uncles
that pass. -/
structure Acceptable (n : Node S) (b : Block S) (blk : VerifiedBlock) (s : S)
    (rs : List TransactionReceipt) (root : Item) (uncles : List BlockHeader) : Prop where
  parent : b.currentBlock.parentHash = (b.previousBlock.hash n.sha3 .WithSeal).1
  opened : b.isSealed = false
  wellFormed : decodeStrict blk.block = some root
  replays : replay n (n.chain.lastHashes blk.info.parentHash) blk.info b.state 0 blk.transactions =
    .ok (s, rs)
  receipts : NamesReceipts n blk.info rs
  few : (rawItems (get? root 2)).length ≤ 2
  uncles_ok : ∀ b' : Block S, b'.currentBlock = blk.info →
    enactUncles n ((blk.info.hash n.sha3 .WithSeal).1 :: n.chain.allKinFrom blk.info.parentHash 6)
      (rawItems (get? root 2)) 0 b' = .ok uncles b'
  stateRoot : blk.info.stateRoot ≠ b.previousBlock.stateRoot → blk.info.stateRoot =
    n.ops.rootHash (n.ops.commit (rewarded n blk.info uncles s)
      (decide (n.chain.EIP158ForkBlock ≤ blk.info.number)))

/-- A block after it has followed another one. -/
structure Accepted (n : Node S) (b : Block S) (blk : VerifiedBlock) (s : S)
    (rs : List TransactionReceipt) (uncles : List BlockHeader) (b' : Block S) : Prop where
  state : b'.state = n.ops.commit (rewarded n blk.info uncles s)
    (decide (n.chain.EIP158ForkBlock ≤ blk.info.number))
  receipts : b'.receipts = rs
  items : b'.transactions.items = b.transactions.items ++ blk.transactions

theorem enact_accepts (hr : Reset b) {blk : VerifiedBlock} {s : S} {rs : List TransactionReceipt}
    {root : Item} {uncles : List BlockHeader} (h : Acceptable n b blk s rs root uncles) :
    ∃ b', enact n blk b = .ok blk.info.difficulty b' ∧ Accepted n b blk s rs uncles b' := by
  have hruns : Runs (enact n blk) b (fun w b' => w = blk.info.difficulty ∧
      Accepted n b blk s rs uncles b') Never := by
    refine runs_bind (runs_get (runs_bind (runs_ite (fun hp => (hp h.parent).elim) fun _ =>
      runs_pure (runs_bind (runs_modify (runs_bind ?_))))))
    rw [h.wellFormed]
    have hlive : ({ b with currentBlock := blk.info } : Block S).live = b.state := by
      unfold live
      rw [if_neg (by rw [hr.committed]; exact Bool.false_ne_true)]
    have hgas : ({ b with currentBlock := blk.info } : Block S).gasUsed = 0 := by
      unfold gasUsed
      rw [hr.receipts]
      rfl
    have hreplays := h.replays
    rw [← hlive, ← hgas] at hreplays
    refine runs_pure (runs_bind ((enactTransactions_accepts
      (b := { b with currentBlock := blk.info }) 0 h.opened hreplays).imp ?_))
    rintro l b' ⟨rfl, ha⟩
    have hcurrent : b'.currentBlock = blk.info := ha.currentBlock
    have hprevious : b'.previousBlock = b.previousBlock := ha.previousBlock
    have hstate : b'.state = s := ha.state_eq hr.committed
    have hreceipts : b'.receipts = rs := by
      rw [ha.receipts, hr.receipts, List.nil_append]
    have hbloom : b'.currentBlock.logBloom = logBloom b' := by
      rw [hcurrent, h.receipts.logBloom]
      unfold logBloom
      rw [hreceipts]
    have hused : b'.currentBlock.gasUsed = gasUsed b' := by
      rw [hcurrent, h.receipts.gasUsed]
      unfold gasUsed gasAfter
      rw [hreceipts]
    refine runs_bind (runs_ite (fun hp => (hp h.receipts.receiptsRoot.symm).elim) fun _ => ?_)
    refine runs_pure (runs_bind (runs_get (runs_bind (runs_ite (fun hp => (hp hbloom).elim) fun _ => ?_))))
    refine runs_pure (runs_bind (runs_ite (fun hp => ((not_lt.mpr h.few) hp).elim) fun _ => ?_))
    refine runs_pure (runs_bind (runs_of_ok (h.uncles_ok b' hcurrent) ?_))
    refine runs_bind (runs_modify (runs_bind (runs_modify (runs_bind (runs_get (runs_bind ?_))))))
    refine runs_ite (fun hp => ?_) fun _ => runs_pure (runs_bind (runs_ite (fun hp => (hp hused).elim)
      fun _ => runs_pure (runs_pure ?_)))
    · have hp : b'.currentBlock.stateRoot ≠ b'.previousBlock.stateRoot ∧
        b'.currentBlock.stateRoot ≠ n.ops.rootHash (n.ops.commit
          (rewarded n b'.currentBlock uncles b'.state)
          (decide (n.chain.EIP158ForkBlock ≤ b'.currentBlock.number))) := hp
      rw [hcurrent, hprevious, hstate] at hp
      exact (hp.2 (h.stateRoot hp.1)).elim
    · refine ⟨congrArg BlockHeader.difficulty hcurrent, ?_, hreceipts, ha.items⟩
      rw [hcurrent, hstate]
      rfl
  cases he : enact n blk b with
  | ok w b' =>
    obtain ⟨rfl, haccepted⟩ := hruns.ok he
    exact ⟨b', rfl, haccepted⟩
  | error e b' => exact (hruns.error he).elim

end Accepting

/-- A root that differs from the given one. -/
def otherRoot (r : H256) : H256 := if r = .zero then .ofNat 1 else .zero

theorem otherRoot_ne (r : H256) : otherRoot r ≠ r := by
  unfold otherRoot
  split_ifs with h
  · rw [h]
    decide
  · exact fun h' => h h'.symm

/-- A node with two states, before and after the rewards. -/
def rewardingNode (r : H256) : Node Bool where
  sha3 := fun _ => .ofNat 1
  hash256 := fun _ => .ofNat 2
  receiptRlp := fun _ => [0x80]
  ops := {
    rootHash := fun s => if s then otherRoot r else r
    hasRoot := fun _ _ => true
    setRoot := fun _ _ => false
    execute := fun s _ _ => .ok (s, ⟨r, 21000, 0, []⟩)
    addBalance := fun _ _ _ => true
    commit := fun s _ => s
    moveDaos := id
    rollback := id }
  chain := countingNode.chain
  grow := fun c => 2 * c

/-- A block without transactions whose header names the given root of the state. -/
def bareBlock (r : H256) : VerifiedBlock where
  block := encode (.list [.list [], .list [], .list []])
  info := { BlockHeader.empty with stateRoot := r, receiptsRoot := .ofNat 2 }
  transactions := []

/-- The child of a header with the given root of the state. -/
def childOf (r : H256) : Block Bool where
  state := false
  transactions := .empty
  receipts := []
  transactionSet := ∅
  precommit := false
  previousBlock := { BlockHeader.empty with stateRoot := r }
  currentBlock := { BlockHeader.empty with parentHash := .ofNat 1 }
  currentBytes := []
  committedToSeal := false
  currentTxs := []
  currentUncles := []
  author := 0

theorem childOf_reset (r : H256) : Reset (childOf r) := ⟨rfl, rfl⟩

theorem rewardingNode_outcome (r r' : H256) :
    outcome (rewardingNode r) false (bareBlock r') = some (true, []) := by
  unfold outcome unclesOf bareBlock
  rw [decodeStrict_encode]
  rfl

/-- A header that names the root of its parent is accepted, and one that names the root after
the rewards. -/
theorem enact_bareBlock (r : H256) {r' : H256} (hr' : r' = r ∨ r' = otherRoot r) :
    ∃ b', enact (rewardingNode r) (bareBlock r') (childOf r) = .ok 0 b' := by
  have hacceptable : Acceptable (rewardingNode r) (childOf r) (bareBlock r') false []
      (.list [.list [], .list [], .list []]) [] := {
    parent := by
      unfold BlockHeader.hash
      rw [show (childOf r).previousBlock.memo = .zero from rfl, if_pos rfl]
      rfl
    opened := rfl
    wellFormed := decodeStrict_encode _
    replays := rfl
    receipts := ⟨rfl, by rw [List.map_nil, LogBloom.join, List.foldl_nil]; rfl, rfl⟩
    few := Nat.zero_le _
    uncles_ok := fun _ _ => rfl
    stateRoot := fun hne => hr'.resolve_left hne }
  obtain ⟨b', he, -⟩ := enact_accepts (childOf_reset r) hacceptable
  exact ⟨b', he⟩

theorem not_headerMatches_bareBlock (r : H256) :
    ¬ HeaderMatches (rewardingNode r) (childOf r).state (bareBlock r) := by
  rintro ⟨s, rs, ho, -, hroot⟩
  rw [show (childOf r).state = false from rfl, rewardingNode_outcome] at ho
  obtain ⟨rfl, -⟩ := Prod.mk.inj (Option.some.inj ho)
  exact otherRoot_ne r hroot.symm

/-- Whatever a header says about the receipts of an accepted block is right. The root of the
state is right exactly where the header names another root than its parent does, or where
the block leads back to that root; so no header that repeats its parent's root is safe. -/
theorem enact_accepted_exact (root parentRoot : H256) :
    (∀ (S : Type) (n : Node S) (b : Block S) (blk : VerifiedBlock) (w : Word) (b' : Block S),
      Reset b → enact n blk b = .ok w b' →
        (∃ s rs, outcome n b.state blk = some (s, rs) ∧ NamesReceipts n blk.info rs) ∧
        (HeaderMatches n b.state blk ↔ blk.info.stateRoot ≠ b.previousBlock.stateRoot ∨
          ∃ s rs, outcome n b.state blk = some (s, rs) ∧
            n.ops.rootHash s = b.previousBlock.stateRoot)) ∧
    ((∀ (S : Type) (n : Node S) (b : Block S) (blk : VerifiedBlock) (w : Word) (b' : Block S),
      Reset b → blk.info.stateRoot = root → b.previousBlock.stateRoot = parentRoot →
        enact n blk b = .ok w b' → HeaderMatches n b.state blk) ↔ root ≠ parentRoot) := by
  have hmatches : ∀ (S : Type) (n : Node S) (b : Block S) (blk : VerifiedBlock) (w : Word)
      (b' : Block S), Reset b → enact n blk b = .ok w b' →
        blk.info.stateRoot ≠ b.previousBlock.stateRoot → HeaderMatches n b.state blk := by
    intro S n b blk w b' hr he hne
    obtain ⟨s, rs, ho, hnames, hroot⟩ := (enact_spec hr blk).ok he
    exact ⟨s, rs, ho, hnames, hroot hne⟩
  constructor
  · intro S n b blk w b' hr he
    obtain ⟨s, rs, ho, hnames, hroot⟩ := (enact_spec hr blk).ok he
    refine ⟨⟨s, rs, ho, hnames⟩, ?_, ?_⟩
    · rintro ⟨s', rs', ho', -, hroot'⟩
      by_cases hne : blk.info.stateRoot = b.previousBlock.stateRoot
      · exact Or.inr ⟨s', rs', ho', by rw [← hroot', hne]⟩
      · exact Or.inl hne
    · rintro (hne | ⟨s', rs', ho', hback⟩)
      · exact hmatches S n b blk w b' hr he hne
      · by_cases hne : blk.info.stateRoot = b.previousBlock.stateRoot
        · obtain ⟨rfl, rfl⟩ := Prod.mk.inj (Option.some.inj (ho.symm.trans ho'))
          exact ⟨s, rs, ho, hnames, by rw [hne, hback]⟩
        · exact hmatches S n b blk w b' hr he hne
  · constructor
    · rintro h rfl
      obtain ⟨b', he⟩ := enact_bareBlock root (Or.inl rfl)
      exact not_headerMatches_bareBlock root
        (h Bool (rewardingNode root) (childOf root) (bareBlock root) 0 b' (childOf_reset root)
          rfl rfl he)
    · rintro hne S n b blk w b' hr rfl rfl he
      exact hmatches S n b blk w b' hr he hne

/-- A header that names the root after the rewards. -/
theorem enact_accepted_rewarded :
    HeaderMatches (rewardingNode .zero) (childOf .zero).state (bareBlock (otherRoot .zero)) := by
  obtain ⟨b', he⟩ := enact_bareBlock .zero (Or.inr rfl)
  exact ((enact_accepted_exact (otherRoot .zero) .zero).1 Bool (rewardingNode .zero) (childOf .zero)
    (bareBlock (otherRoot .zero)) 0 b' (childOf_reset .zero) he).2.mpr
      (Or.inl (otherRoot_ne .zero))

/-- A block that repeats the root of its parent is accepted, and the rewards lead to another. -/
theorem enact_repeated_root : ∃ b', enact (rewardingNode .zero) (bareBlock .zero) (childOf .zero) =
    .ok 0 b' ∧ ¬ HeaderMatches (rewardingNode .zero) (childOf .zero).state (bareBlock .zero) := by
  obtain ⟨b', he⟩ := enact_bareBlock .zero (Or.inl rfl)
  exact ⟨b', he, not_headerMatches_bareBlock .zero⟩

end Block
end XChain
