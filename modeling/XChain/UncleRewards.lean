import XChain.BlockSealing

/-!
# The rewards for uncles

The uncles of a block that is accepted are at most two, different from each other and from
what the chain has seen, and children of ancestors that are near. Each of them is paid by
its distance. The payment is a product of words, and it is exact where the product fits
into one.
-/
namespace XChain
namespace Block

open Machine Rlp

variable {S : Type} {n : Node S} {b : Block S}

/-- What is known of the headers of the chain: each is found under its hash, has a timestamp,
and a number that was checked when it was imported. -/
structure Imported (n : Node S) : Prop where
  hash : ∀ h p, headerOf n h = some p → (p.hash n.sha3 .WithSeal).1 = h
  isSet : ∀ h p, headerOf n h = some p → p.isSet = true
  small : ∀ h p, headerOf n h = some p → p.number.toNat < 2 ^ 32

theorem ChainLaws.imported (hl : ChainLaws n) : Imported n :=
  ⟨fun _ _ hp => hl.hash hp, hl.isSet, hl.small⟩

section Checks

/-- What one uncle of a block with the header `h` passes, but for what is excluded. -/
structure Checked (n : Node S) (h : BlockHeader) (raw : Bytes) (u : BlockHeader) : Prop where
  header : BlockHeader.ofBytes n.sha3 raw .HeaderData (n.sha3 raw) = .ok u
  near : (h.number.toNat : ℤ) - u.number.toNat ≤ 6
  notBrother : 1 ≤ (h.number.toNat : ℤ) - u.number.toNat
  parent : ∃ p, headerOf n u.parentHash = some p ∧
    ancestor n (n.chain.parent h.parentHash)
      (((h.number.toNat : ℤ) - u.number.toNat).toNat - 1) = (p.hash n.sha3 .WithSeal).1 ∧
    u.verify n.sha3 .CheckNothingNew p = .ok ()

theorem enactUncle_checks (excluded : List H256) (raw : Bytes) :
    Runs (enactUncle n excluded raw) b
      (fun u b' => b' = b ∧ n.sha3 raw ∉ excluded ∧ Checked n b.currentBlock raw u) Anyhow := by
  refine runs_bind (runs_get (runs_bind (runs_guard fun hnew => runs_bind (runs_liftExcept ?_))))
  intro u hu
  refine runs_bind (runs_ite (fun _ => runs_pure ?_) fun _ => runs_throw trivial)
  refine runs_bind (runs_info fun p hp => runs_bind ?_)
  refine runs_ite (fun _ => runs_throw trivial) fun hnear => runs_ite (fun _ => runs_throw trivial)
    fun hbrother => runs_pure (runs_bind (runs_guard fun hancestor => runs_bind (runs_liftExcept
      fun _ hverify => ?_)))
  exact runs_pure ⟨rfl, hnew, hu, not_lt.mp hnear, not_lt.mp hbrother, p, hp,
    not_not.mp hancestor, hverify⟩

/-- All uncles: each of them is excluded from the rest. -/
theorem enactUncles_checks (excluded : List H256) (raws : List Bytes) (i : ℕ) :
    Runs (enactUncles n excluded raws i) b (fun us b' => b' = b ∧
      (∀ raw ∈ raws, n.sha3 raw ∉ excluded) ∧ (raws.map n.sha3).Nodup ∧
      List.Forall₂ (Checked n b.currentBlock) raws us) Anyhow := by
  induction raws generalizing excluded i with
  | nil => exact runs_pure ⟨rfl, fun _ h => absurd h List.not_mem_nil, List.nodup_nil, .nil⟩
  | cons raw raws ih =>
    refine runs_bind (runs_tryCatch ((enactUncle_checks excluded raw).mono ?_ fun _ _ _ =>
      runs_throw trivial))
    rintro u b' ⟨rfl, hnew, hu⟩
    refine runs_bind ((ih (n.sha3 raw :: excluded) (i + 1)).imp ?_)
    rintro us b'' ⟨rfl, hrest, hnodup, hus⟩
    refine runs_pure ⟨rfl, fun r hr => ?_, ?_, .cons hu hus⟩
    · rcases List.mem_cons.mp hr with rfl | hr
      · exact hnew
      · exact fun hx => hrest r hr (List.mem_cons_of_mem _ hx)
    · rw [List.map_cons, List.nodup_cons]
      refine ⟨fun hmem => ?_, hnodup⟩
      obtain ⟨r, hr, heq⟩ := List.mem_map.mp hmem
      exact hrest r hr (heq ▸ List.mem_cons_self)

theorem enactUncles_one {excluded : List H256} {raw : Bytes} {u : BlockHeader}
    (h : enactUncle n excluded raw b = .ok u b) (i : ℕ) :
    enactUncles n excluded [raw] i b = .ok [u] b :=
  ok_of_runs (runs_bind (runs_tryCatch (runs_of_ok h (runs_bind (runs_pure
    (runs_pure ⟨rfl, rfl⟩))))))

/-- A generation between one and six below the block, and a parent one generation above the
uncle among the ancestors of the block. -/
structure Uncle (n : Node S) (h : BlockHeader) (raw : Bytes) (u : BlockHeader) : Prop where
  header : BlockHeader.ofBytes n.sha3 raw .HeaderData (n.sha3 raw) = .ok u
  depth : ∃ depth p, 1 ≤ depth ∧ depth ≤ 6 ∧ u.number.toNat + depth = h.number.toNat ∧
    u.parentHash = n.chain.parent^[depth] h.parentHash ∧
    headerOf n u.parentHash = some p ∧ p.number.toNat + 1 = u.number.toNat

theorem verify_follows {u p : BlockHeader} {sha3 : Bytes → H256} (hset : p.isSet = true)
    (hsmall : p.number.toNat < 2 ^ 32) (hv : u.verify sha3 .CheckNothingNew p = .ok ()) :
    p.number.toNat + 1 = u.number.toNat := by
  have hnumber : u.number = p.number + 1 := by
    unfold BlockHeader.verify at hv
    rw [if_pos hset] at hv
    simp only [bind_eq_ok] at hv
    obtain ⟨_, -, _, -, _, -, _, -, hv⟩ := hv
    by_contra hne
    rw [if_pos hne] at hv
    cases hv
  rw [hnumber, BitVec.toNat_add]
  show p.number.toNat + 1 = (p.number.toNat + 1) % 2 ^ 256
  rw [Nat.mod_eq_of_lt (by omega)]

theorem Checked.uncle (himported : Imported n) {h u : BlockHeader} {raw : Bytes}
    (hc : Checked n h raw u) : Uncle n h raw u := by
  obtain ⟨p, hp, hancestor, hverify⟩ := hc.parent
  have hnear := hc.near
  have hbrother := hc.notBrother
  have hdepth : ((h.number.toNat : ℤ) - u.number.toNat).toNat = h.number.toNat - u.number.toNat := by
    omega
  refine ⟨hc.header, h.number.toNat - u.number.toNat, p, by omega, by omega, by omega, ?_, hp, ?_⟩
  · rw [himported.hash _ p hp, hdepth] at hancestor
    rw [← hancestor]
    obtain ⟨k, hk⟩ : ∃ k, h.number.toNat - u.number.toNat = k + 1 :=
      Nat.exists_eq_succ_of_ne_zero (by omega)
    rw [hk, Nat.add_sub_cancel, Function.iterate_succ_apply]
    rfl
  · exact verify_follows (himported.isSet _ p hp) (himported.small _ p hp) hverify

/-- The items of the uncles of a block, as they are encoded. -/
def uncleItems (blk : VerifiedBlock) : List Bytes :=
  rawItems ((decodeStrict blk.block).bind fun root => get? root 2)

/-- The uncles of a block are in order. -/
structure Allowed (n : Node S) (blk : VerifiedBlock) (us : List BlockHeader) : Prop where
  few : (uncleItems blk).length ≤ 2
  distinct : ((uncleItems blk).map n.sha3).Nodup
  notKin : ∀ raw ∈ uncleItems blk, n.sha3 raw ∉ n.chain.allKinFrom blk.info.parentHash 6
  notSelf : ∀ raw ∈ uncleItems blk, n.sha3 raw ≠ (blk.info.hash n.sha3 .WithSeal).1
  uncles : List.Forall₂ (Uncle n blk.info) (uncleItems blk) us

theorem unclesOf_of_forall₂ {P : Bytes → BlockHeader → Prop} {blk : VerifiedBlock} {root : Item}
    {us : List BlockHeader} (hroot : decodeStrict blk.block = some root)
    (hP : ∀ raw u, P raw u → BlockHeader.ofBytes n.sha3 raw .HeaderData (n.sha3 raw) = .ok u)
    (hus : List.Forall₂ P (uncleItems blk) us) : unclesOf n blk = some us := by
  unfold uncleItems at hus
  rw [hroot, Option.bind_some] at hus
  unfold unclesOf
  rw [hroot]
  show (rawItems (get? root 2)).mapM _ = some us
  generalize rawItems (get? root 2) = raws at hus ⊢
  induction hus with
  | nil => rfl
  | cons hu _ ih =>
    rw [List.mapM_cons, hP _ _ hu, ih]
    rfl

end Checks

section Paying

/-- What an uncle of a block with the header `h` gets. -/
def uncleReward (n : Node S) (h u : BlockHeader) : Word :=
  n.chain.blockReward * (8 + u.number - h.number) / 8

/-- What the author gets. -/
def authorReward (n : Node S) (us : List BlockHeader) : Word :=
  us.foldl (fun r _ => r + n.chain.blockReward / 32) n.chain.blockReward

/-- The state after the transactions is paid on: the uncles first, then the author. -/
def Paid (n : Node S) (b : Block S) (blk : VerifiedBlock) (us : List BlockHeader) (b' : Block S) :
    Prop :=
  ∃ receipts b₁, enactTransactions n (n.chain.lastHashes blk.info.parentHash) blk.transactions 0
      { b with currentBlock := blk.info } = .ok receipts b₁ ∧
    b'.state = n.ops.commit (n.ops.addBalance
      (us.foldl (fun s u => n.ops.addBalance s u.author (uncleReward n blk.info u)) b₁.state)
      blk.info.author (authorReward n us)) (decide (n.chain.EIP158ForkBlock ≤ blk.info.number))

theorem enact_pays (himported : Imported n) (blk : VerifiedBlock) :
    Runs (enact n blk) b (fun _ b' => ∃ us, unclesOf n blk = some us ∧ Allowed n blk us ∧
      Paid n b blk us b') Anyhow := by
  refine runs_bind (runs_get (runs_bind (runs_guard fun _ => runs_bind (runs_modify ?_))))
  refine runs_bind ?_
  cases hroot : decodeStrict blk.block with
  | none => exact runs_throw trivial
  | some root =>
    refine runs_pure (runs_bind ?_)
    have hspec : Runs (enactTransactions n (n.chain.lastHashes blk.info.parentHash)
        blk.transactions 0) { b with currentBlock := blk.info } _ _ :=
      enactTransactions_spec blk.transactions 0
    cases hrun : enactTransactions n (n.chain.lastHashes blk.info.parentHash) blk.transactions 0
        { b with currentBlock := blk.info } with
    | error e b₁ => exact runs_of_error hrun trivial
    | ok receipts b₁ =>
      obtain ⟨rs, s, -, -, ha⟩ := hspec.ok hrun
      have hcurrent : b₁.currentBlock = blk.info := ha.currentBlock
      have hitems : uncleItems blk = rawItems (get? root 2) := by
        unfold uncleItems
        rw [hroot]
        rfl
      refine runs_of_ok hrun (runs_bind (runs_guard fun _ => runs_bind (runs_get (runs_bind
        (runs_guard fun _ => runs_bind (runs_guard fun hfew => runs_bind
          ((enactUncles_checks _ _ 0).imp ?_)))))))
      rintro us b₂ ⟨rfl, hnew, hnodup, hchecked⟩
      rw [← hitems] at hfew hnew hnodup hchecked
      rw [hcurrent] at hchecked
      refine runs_bind (runs_modify (runs_bind (runs_modify (runs_bind (runs_get (runs_bind
        (runs_rollback fun _ => runs_bind (runs_rollback fun _ => runs_pure ?_))))))))
      refine ⟨us, unclesOf_of_forall₂ hroot (fun _ _ hc => hc.header) hchecked, ?_, receipts, b₂,
        hrun, ?_⟩
      · exact ⟨not_lt.mp hfew, hnodup, fun raw hr hk => hnew raw hr (List.mem_cons_of_mem _ hk),
          fun raw hr heq => hnew raw hr (heq ▸ List.mem_cons_self),
          hchecked.imp fun _ _ hc => hc.uncle himported⟩
      · show n.ops.commit (rewarded n b₂.currentBlock us b₂.state)
          (decide (n.chain.EIP158ForkBlock ≤ b₂.currentBlock.number)) = _
        rw [hcurrent]
        rfl

end Paying

section Amounts

/-- The payments are what they are meant to be: eighths of the reward by the distance, and a
32nd for every uncle. -/
structure ExactRewards (n : Node S) (h : BlockHeader) (us : List BlockHeader) : Prop where
  uncles : ∀ u ∈ us, (uncleReward n h u).toNat =
    n.chain.blockReward.toNat * (8 - (h.number.toNat - u.number.toNat)) / 8
  author : (authorReward n us).toNat =
    n.chain.blockReward.toNat + us.length * (n.chain.blockReward.toNat / 32)

theorem share_toNat {c u : Word} {depth : ℕ} (hdepth : u.toNat + depth = c.toNat) (hle : depth ≤ 8) :
    (8 + u - c).toNat = 8 - depth := by
  have hc := c.isLt
  have h8 : (8 : Word).toNat = 8 := rfl
  rw [BitVec.toNat_sub, BitVec.toNat_add, h8]
  omega

theorem mod_div_eight_iff {a : ℕ} : a % 2 ^ 256 / 8 = a / 8 ↔ a < 2 ^ 256 := by
  constructor
  · intro heq
    have hlt := Nat.mod_lt a (show 0 < 2 ^ 256 by norm_num)
    omega
  · intro hlt
    rw [Nat.mod_eq_of_lt hlt]

/-- A payment is exact where the product fits into a word. -/
theorem uncleReward_exact_iff {h u : BlockHeader} {depth : ℕ}
    (hdepth : u.number.toNat + depth = h.number.toNat) (hle : depth ≤ 8) :
    (uncleReward n h u).toNat = n.chain.blockReward.toNat * (8 - depth) / 8 ↔
      n.chain.blockReward.toNat * (8 - depth) < 2 ^ 256 := by
  have hshare := share_toNat hdepth hle
  have h8 : (8 : Word).toNat = 8 := rfl
  unfold uncleReward
  rw [BitVec.toNat_udiv, BitVec.toNat_mul, hshare, h8]
  exact mod_div_eight_iff

theorem foldl_add_toNat (us : List BlockHeader) (r v : Word)
    (hfits : r.toNat + us.length * v.toNat < 2 ^ 256) :
    (us.foldl (fun r _ => r + v) r).toNat = r.toNat + us.length * v.toNat := by
  induction us generalizing r with
  | nil => simp
  | cons u us ih =>
    rw [List.length_cons, Nat.succ_mul] at hfits
    have hfirst : (r + v).toNat = r.toNat + v.toNat := BitVec.toNat_add_of_lt (by omega)
    rw [List.foldl_cons, ih (r + v) (by omega), hfirst, List.length_cons, Nat.succ_mul]
    omega

theorem authorReward_toNat {us : List BlockHeader} (hfew : us.length ≤ 2)
    (hfits : us ≠ [] → 2 * n.chain.blockReward.toNat < 2 ^ 256) :
    (authorReward n us).toNat =
      n.chain.blockReward.toNat + us.length * (n.chain.blockReward.toNat / 32) := by
  have h32 : (n.chain.blockReward / 32).toNat = n.chain.blockReward.toNat / 32 := by
    rw [BitVec.toNat_udiv]
    rfl
  unfold authorReward
  rw [← h32]
  refine foldl_add_toNat us _ _ ?_
  have hlt := n.chain.blockReward.isLt
  cases us with
  | nil => simpa using hlt
  | cons u us =>
    have h2 := hfits (List.cons_ne_nil u us)
    rw [h32]
    have hle := Nat.mul_le_mul_right (n.chain.blockReward.toNat / 32) hfew
    omega

/-- The uncles of a block are in order, and what they and the author get is what it is meant
to be. -/
def UnclesRewarded (n : Node S) (b : Block S) (blk : VerifiedBlock) (b' : Block S) : Prop :=
  ∃ us, Allowed n blk us ∧ Paid n b blk us b' ∧ ExactRewards n blk.info us

/-- The product of the reward with the eighths of every uncle fits into a word. -/
def RewardsFit (n : Node S) (blk : VerifiedBlock) : Prop :=
  ∀ us, unclesOf n blk = some us → ∀ u ∈ us,
    n.chain.blockReward.toNat * (8 - (blk.info.number.toNat - u.number.toNat)) < 2 ^ 256

theorem Allowed.depth {blk : VerifiedBlock} {us : List BlockHeader} (h : Allowed n blk us)
    {u : BlockHeader} (hu : u ∈ us) : ∃ depth, 1 ≤ depth ∧ depth ≤ 6 ∧
      u.number.toNat + depth = blk.info.number.toNat ∧
      blk.info.number.toNat - u.number.toNat = depth := by
  have hall := h.uncles
  clear h
  generalize uncleItems blk = raws at hall
  induction hall with
  | nil => cases hu
  | cons hfirst _ ih =>
    rcases List.mem_cons.mp hu with rfl | hu
    · obtain ⟨depth, p, h1, h6, hsum, -⟩ := hfirst.depth
      exact ⟨depth, h1, h6, hsum, by omega⟩
    · exact ih hu

theorem Allowed.exactRewards_iff {blk : VerifiedBlock} {us : List BlockHeader}
    (h : Allowed n blk us) : ExactRewards n blk.info us ↔ ∀ u ∈ us,
      n.chain.blockReward.toNat * (8 - (blk.info.number.toNat - u.number.toNat)) < 2 ^ 256 := by
  constructor
  · intro hexact u hu
    obtain ⟨depth, -, h6, hsum, hdepth⟩ := h.depth hu
    have hpaid := hexact.uncles u hu
    rw [hdepth] at hpaid ⊢
    exact (uncleReward_exact_iff hsum (by omega)).mp hpaid
  · intro hfits
    refine ⟨fun u hu => ?_, authorReward_toNat ?_ fun hne => ?_⟩
    · obtain ⟨depth, -, h6, hsum, hdepth⟩ := h.depth hu
      have hfit := hfits u hu
      rw [hdepth] at hfit ⊢
      exact (uncleReward_exact_iff hsum (by omega)).mpr hfit
    · rw [← h.uncles.length_eq]
      exact h.few
    · -- The eighths of an uncle are two at least.
      obtain ⟨u, us', rfl⟩ := List.exists_cons_of_ne_nil hne
      obtain ⟨depth, -, h6, -, hdepth⟩ := h.depth List.mem_cons_self
      have hfit := hfits u List.mem_cons_self
      rw [hdepth] at hfit
      have hle := Nat.mul_le_mul_left n.chain.blockReward.toNat (show 2 ≤ 8 - depth by omega)
      omega

/-- The uncles of an accepted block are always in order, and they and the author are paid
exactly where the products of the reward fit into words. -/
theorem enact_unclesRewarded_iff (n : Node S) (b b' : Block S) (blk : VerifiedBlock) (w : Word)
    (himported : Imported n) (hrun : enact n blk b = .ok w b') :
    (∃ us, Allowed n blk us ∧ Paid n b blk us b') ∧
      (UnclesRewarded n b blk b' ↔ RewardsFit n blk) := by
  obtain ⟨us, hus, hallowed, hpaid⟩ := (enact_pays himported blk).ok hrun
  have hdecoded : ∀ us', Allowed n blk us' → us' = us := by
    intro us' h'
    obtain ⟨root, hroot, -⟩ := Option.bind_eq_some_iff.mp hus
    have hus' := unclesOf_of_forall₂ hroot (fun _ _ hu => hu.header) h'.uncles
    exact Option.some.inj (hus'.symm.trans hus)
  refine ⟨⟨us, hallowed, hpaid⟩, ?_, ?_⟩
  · rintro ⟨us', hallowed', -, hexact⟩ us'' hus''
    obtain rfl := hdecoded us' hallowed'
    obtain rfl := Option.some.inj (hus.symm.trans hus'')
    exact hallowed.exactRewards_iff.mp hexact
  · intro hfits
    exact ⟨us, hallowed, hpaid, hallowed.exactRewards_iff.mpr (hfits us hus)⟩

end Amounts

section Overflow

def grandparent : BlockHeader := { BlockHeader.empty with timestamp := 1 }

/-- A child of the grandparent. -/
def brotherOfParent : BlockHeader :=
  { BlockHeader.empty with
    parentHash := .ofNat 1
    number := 1
    timestamp := 2 }

/-- A node that knows the grandparent of a block, with a reward. -/
def uncleNode (r : Word) : Node Bool :=
  { rewardingNode .zero with
    chain := { countingNode.chain with
      headerData := fun h =>
        if h = .ofNat 1 then some (grandparent.streamRLP .WithSeal) else none
      isKnown := fun h => h = .ofNat 1
      parent := fun _ => .ofNat 1
      blockReward := r } }

def uncleRoot : Item := .list [.list [], .list [], .list [.list brotherOfParent.fields]]

/-- A block with one uncle. -/
def blockWithUncle : VerifiedBlock where
  block := encode uncleRoot
  info := { BlockHeader.empty with
    parentHash := .ofNat 5
    receiptsRoot := .ofNat 2
    number := 2
    memo := .ofNat 7 }
  transactions := []

/-- The headers as they are read. -/
def readGrandparent : BlockHeader := BlockHeader.reread (fun _ => .ofNat 1) grandparent

def readUncle : BlockHeader := BlockHeader.reread (fun _ => .ofNat 1) brotherOfParent

theorem ofBytes_brotherOfParent (r : Word) :
    BlockHeader.ofBytes (uncleNode r).sha3 (encode (.list brotherOfParent.fields)) .HeaderData .zero =
      .ok readUncle := by
  have hbytes : brotherOfParent.streamRLP .WithSeal = encode (.list brotherOfParent.fields) :=
    streamRLP_bare brotherOfParent
  rw [← hbytes]
  exact BlockHeader.ofBytes_streamRLP _ brotherOfParent

theorem headerData_uncleNode (r : Word) (h : H256) : (uncleNode r).chain.headerData h =
    if h = .ofNat 1 then some (grandparent.streamRLP .WithSeal) else none := rfl

theorem headerOf_grandparent (r : Word) : headerOf (uncleNode r) (.ofNat 1) = some readGrandparent :=
  headerOf_eq_some.mpr ⟨_, (headerData_uncleNode r _).trans (if_pos rfl),
    BlockHeader.ofBytes_streamRLP _ grandparent⟩

theorem headerOf_uncleNode {r : Word} {h : H256} {p : BlockHeader}
    (hp : headerOf (uncleNode r) h = some p) : h = .ofNat 1 ∧ p = readGrandparent := by
  obtain ⟨d, hd, -⟩ := headerOf_eq_some.mp hp
  rw [headerData_uncleNode] at hd
  split_ifs at hd with hh
  subst hh
  exact ⟨rfl, Option.some.inj (hp.symm.trans (headerOf_grandparent r))⟩

theorem readGrandparent_hash (sha3 : Bytes → H256) :
    (readGrandparent.hash sha3 .WithSeal).1 = .ofNat 1 := hash_of_memo (by decide)

theorem uncleNode_imported (r : Word) : Imported (uncleNode r) := by
  constructor
  · intro h p hp
    obtain ⟨rfl, rfl⟩ := headerOf_uncleNode hp
    exact readGrandparent_hash _
  · intro h p hp
    obtain ⟨rfl, rfl⟩ := headerOf_uncleNode hp
    decide
  · intro h p hp
    obtain ⟨rfl, rfl⟩ := headerOf_uncleNode hp
    decide

theorem readUncle_verify (sha3 : Bytes → H256) :
    readUncle.verify sha3 .CheckNothingNew readGrandparent = .ok () := by
  have hhash := readGrandparent_hash sha3
  unfold BlockHeader.verify
  rw [if_neg (by decide), if_neg (fun h => h.1 rfl), if_pos (by decide),
    if_neg (fun h => h.2 hhash), if_neg (by decide), if_neg (by decide)]
  rfl

theorem enactUncle_readUncle (r : Word) {raw : Bytes} {b : Block Bool}
    (hraw : BlockHeader.ofBytes (uncleNode r).sha3 raw .HeaderData .zero = .ok readUncle)
    (hb : b.currentBlock = blockWithUncle.info) :
    enactUncle (uncleNode r) [.ofNat 7] raw b = .ok readUncle b := by
  have hnew : H256.ofNat 1 ∉ [H256.ofNat 7] := by decide
  refine enactUncle_ok hnew (ofBytes_hashWith.trans hraw) rfl (headerOf_grandparent r) ?_ ?_ ?_
    (readUncle_verify _)
  · rw [hb]
    decide
  · rw [hb]
    decide
  · rw [hb, readGrandparent_hash]
    rfl

theorem enact_blockWithUncle (r : Word) :
    ∃ b', enact (uncleNode r) blockWithUncle (childOf .zero) = .ok 0 b' := by
  have huncles : ∀ b' : Block Bool, b'.currentBlock = blockWithUncle.info →
      enactUncles (uncleNode r) [.ofNat 7] [encode (.list brotherOfParent.fields)] 0 b' =
        .ok [readUncle] b' := fun b' hb' =>
    enactUncles_one (enactUncle_readUncle r (ofBytes_brotherOfParent r) hb') 0
  have hacceptable : Acceptable (uncleNode r) (childOf .zero) blockWithUncle false [] uncleRoot
      [readUncle] := {
    parent := by
      unfold BlockHeader.hash
      rw [show (childOf .zero).previousBlock.memo = .zero from rfl, if_pos rfl]
      rfl
    opened := rfl
    wellFormed := decodeStrict_encode _
    replays := rfl
    receipts := ⟨rfl, by rw [List.map_nil, LogBloom.join, List.foldl_nil]; rfl, rfl⟩
    few := by decide
    uncles_ok := huncles
    stateRoot := fun hne => absurd rfl hne }
  obtain ⟨b', he, -⟩ := enact_accepts (childOf_reset .zero) hacceptable
  exact ⟨b', he⟩

theorem enact_unclesRewarded_five : ∃ b',
    enact (uncleNode 5) blockWithUncle (childOf .zero) = .ok 0 b' ∧
    (UnclesRewarded (uncleNode 5) (childOf .zero) blockWithUncle b' ↔
      RewardsFit (uncleNode 5) blockWithUncle) := by
  obtain ⟨b', he⟩ := enact_blockWithUncle 5
  exact ⟨b', he, (enact_unclesRewarded_iff (uncleNode 5) (childOf .zero) b' blockWithUncle 0
    (uncleNode_imported 5) he).2⟩

/-- Seven times half of the largest word does not fit into a word. -/
theorem enact_reward_overflows : ∃ b',
    enact (uncleNode (BitVec.twoPow 256 255)) blockWithUncle (childOf .zero) = .ok 0 b' ∧
    ¬ UnclesRewarded (uncleNode (BitVec.twoPow 256 255)) (childOf .zero) blockWithUncle b' := by
  obtain ⟨b', he⟩ := enact_blockWithUncle (BitVec.twoPow 256 255)
  refine ⟨b', he, ?_⟩
  rintro ⟨us, hallowed, -, hexact⟩
  have hitems : uncleItems blockWithUncle = [encode (.list brotherOfParent.fields)] := by
    show rawItems ((decodeStrict (encode uncleRoot)).bind _) = _
    rw [decodeStrict_encode]
    rfl
  have huncles := hallowed.uncles
  rw [hitems, List.forall₂_cons_left_iff] at huncles
  obtain ⟨u, us', hu, -, rfl⟩ := huncles
  have hread := ofBytes_brotherOfParent (BitVec.twoPow 256 255)
  rw [← ofBytes_hashWith, hu.header] at hread
  obtain rfl := Except.ok.inj hread
  have hfits := hallowed.exactRewards_iff.mp hexact readUncle List.mem_cons_self
  exact absurd hfits (by decide)

end Overflow

end Block
end XChain
