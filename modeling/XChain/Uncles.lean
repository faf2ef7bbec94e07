import XChain.BlockEnact

/-!
# Uncles

The uncles that a new block names are children of its ancestors. On a chain that was
built by importing blocks, the checks of a received block let all of them pass.
-/
namespace XChain
namespace Block

open Machine Rlp

variable {S : Type} {n : Node S} {b : Block S}

/-- What holds of a chain that was built by importing blocks. A block is found under the hash of
its header, and under no other header's; the zero hash is none. Headers follow their
parents in number and in time, and only the first one has number zero. -/
structure ChainLaws (n : Node S) : Prop where
  addressed : ∀ h d, n.chain.headerData h = some d → n.sha3 d = h
  sole : ∀ h d x, n.chain.headerData h = some d → n.sha3 x = h → x = d
  wellFormed : ∀ h d, n.chain.headerData h = some d → ∃ bi, headerOf n h = some bi
  known : ∀ h, n.chain.isKnown h = (n.chain.headerData h).isSome
  nonzero : n.chain.headerData .zero = none
  genesis : ∀ h bi, headerOf n h = some bi → bi.number = 0 → h = n.chain.genesisHash
  parents : ∀ h bi, headerOf n h = some bi → bi.number ≠ 0 →
    n.chain.parent h = bi.parentHash ∧ ∃ p, headerOf n bi.parentHash = some p ∧
      bi.number.toNat = p.number.toNat + 1 ∧ p.timestamp < bi.timestamp
  children : ∀ h u, u ∈ n.chain.children h →
    ∃ bi, headerOf n u = some bi ∧ bi.parentHash = h ∧ bi.number ≠ 0
  small : ∀ h bi, headerOf n h = some bi → bi.number.toNat < 2 ^ 32
  isSet : ∀ h bi, headerOf n h = some bi → bi.isSet = true

section Headers

/-- The bytes of a header of the chain. -/
theorem headerOf_eq_some {h : H256} {bi : BlockHeader} : headerOf n h = some bi ↔
    ∃ d, n.chain.headerData h = some d ∧
      BlockHeader.ofBytes n.sha3 d .HeaderData .zero = .ok bi := by
  unfold headerOf
  cases n.chain.headerData h with
  | none =>
    constructor
    · intro hb
      cases hb
    · rintro ⟨d, hd, -⟩
      cases hd
  | some d =>
    show (BlockHeader.ofBytes n.sha3 d .HeaderData .zero).toOption = some bi ↔ _
    cases hx : BlockHeader.ofBytes n.sha3 d .HeaderData .zero with
    | error e =>
      constructor
      · intro hb
        cases hb
      · rintro ⟨d', hd, hb⟩
        obtain rfl := Option.some.inj hd
        rw [hx] at hb
        cases hb
    | ok bi' =>
      constructor
      · intro hb
        obtain rfl := Option.some.inj hb
        exact ⟨d, rfl, hx⟩
      · rintro ⟨d', hd, hb⟩
        obtain rfl := Option.some.inj hd
        rw [hx] at hb
        obtain rfl := Except.ok.inj hb
        rfl

theorem runs_info_ok {h : H256} {bi : BlockHeader} {Q : BlockHeader → Block S → Prop}
    {E : BlockError → Block S → Prop} (hbi : headerOf n h = some bi) (hQ : Q bi b) :
    Runs (info n h) b Q E := by
  obtain ⟨d, hd, hb⟩ := headerOf_eq_some.mp hbi
  unfold info
  rw [hd]
  show Runs (liftExcept .header (BlockHeader.ofBytes n.sha3 d .HeaderData .zero)) b Q E
  rw [hb]
  exact runs_pure hQ

/-- The hash that is remembered with a header does not matter for the rest of it, and it is the
right one in both cases. -/
theorem ofBytes_hashWith {sha3 : Bytes → H256} {d : Bytes} :
    BlockHeader.ofBytes sha3 d .HeaderData (sha3 d) = BlockHeader.ofBytes sha3 d .HeaderData .zero := by
  unfold BlockHeader.ofBytes
  cases hd : decodeStrict d with
  | none => rfl
  | some root =>
    have hroot : encode root = d := encode_of_decodeStrict hd
    show BlockHeader.populate { BlockHeader.empty with
        memo := if sha3 d = .zero then sha3 (encode root) else sha3 d } root =
      BlockHeader.populate { BlockHeader.empty with
        memo := if H256.zero = .zero then sha3 (encode root) else .zero } root
    rw [if_pos (rfl : H256.zero = .zero), hroot, ite_self]

/-- What is read keeps the remembered hash. -/
theorem populate_memo {h h' : BlockHeader} {x : Item} (hp : BlockHeader.populate h x = .ok h') :
    h'.memo = h.memo := by
  unfold BlockHeader.populate at hp
  simp only [bind_eq_ok] at hp
  obtain ⟨_, -, _, -, _, -, _, -, _, -, _, -, _, -, _, -, _, -, _, -, _, -, _, -, hp⟩ := hp
  obtain rfl := Except.ok.inj hp
  rfl

theorem ofBytes_memo {sha3 : Bytes → H256} {d : Bytes} {bi : BlockHeader}
    (h : BlockHeader.ofBytes sha3 d .HeaderData .zero = .ok bi) : bi.memo = sha3 d := by
  unfold BlockHeader.ofBytes at h
  cases hd : decodeStrict d with
  | none =>
    rw [hd] at h
    cases h
  | some root =>
    rw [hd] at h
    have hp : BlockHeader.populate { BlockHeader.empty with
      memo := if H256.zero = .zero then sha3 (encode root) else .zero } root = .ok bi := h
    rw [populate_memo hp, ← encode_of_decodeStrict hd]
    show (if H256.zero = .zero then sha3 (encode root) else .zero) = sha3 (encode root)
    exact if_pos rfl

theorem hash_of_memo {sha3 : Bytes → H256} {h : BlockHeader} (hm : h.memo ≠ .zero) :
    (h.hash sha3 .WithSeal).1 = h.memo := if_neg hm

/-- The remembered hash of a header of the chain, which is the one it is found under. -/
theorem ChainLaws.memo (hl : ChainLaws n) {h : H256} {bi : BlockHeader}
    (hbi : headerOf n h = some bi) : bi.memo = h := by
  obtain ⟨d, hd, hb⟩ := headerOf_eq_some.mp hbi
  rw [ofBytes_memo hb, hl.addressed h d hd]

theorem ChainLaws.ne_zero (hl : ChainLaws n) {h : H256} {bi : BlockHeader}
    (hbi : headerOf n h = some bi) : h ≠ .zero := by
  rintro rfl
  obtain ⟨d, hd, -⟩ := headerOf_eq_some.mp hbi
  rw [hl.nonzero] at hd
  cases hd

theorem ChainLaws.hash (hl : ChainLaws n) {h : H256} {bi : BlockHeader}
    (hbi : headerOf n h = some bi) : (bi.hash n.sha3 .WithSeal).1 = h := by
  have hm := hl.memo hbi
  rw [hash_of_memo (by rw [hm]; exact hl.ne_zero hbi), hm]

end Headers

section Choosing

/-- A child of an ancestor of a block's parent, `k` generations above the grandparent. -/
structure UncleAt (n : Node S) (parent : BlockHeader) (u : H256) (k : ℕ) : Prop where
  near : k < 6
  header : ∃ bi p, headerOf n u = some bi ∧ headerOf n bi.parentHash = some p ∧
    bi.parentHash = n.chain.parent^[k] parent.parentHash ∧ bi.number ≠ 0 ∧
    bi.number.toNat + k = parent.number.toNat

def IsUncle (n : Node S) (parent : BlockHeader) (u : H256) : Prop := ∃ k, UncleAt n parent u k

/-- What holds of the uncles while they are chosen. -/
structure Choice (n : Node S) (parent : BlockHeader) (kin excluded us : List H256) : Prop where
  kin_excluded : ∀ u ∈ kin, u ∈ excluded
  us_excluded : us.length < 2 → ∀ u ∈ us, u ∈ excluded
  nodup : us.Nodup
  few : us.length ≤ 2
  uncles : ∀ u ∈ us, IsUncle n parent u ∧ u ∉ kin

theorem Choice.start (parent : BlockHeader) (kin : List H256) : Choice n parent kin kin [] where
  kin_excluded := fun _ h => h
  us_excluded := fun _ _ h => absurd h List.not_mem_nil
  nodup := List.nodup_nil
  few := Nat.zero_le _
  uncles := fun _ h => absurd h List.not_mem_nil

/-- One more uncle. -/
theorem Choice.add {parent : BlockHeader} {kin excluded us : List H256} {u : H256}
    (h : Choice n parent kin excluded us) (hlt : us.length < 2) (hu : IsUncle n parent u)
    (hnew : u ∉ excluded) : Choice n parent kin (u :: excluded) (us ++ [u]) where
  kin_excluded := fun v hv => List.mem_cons_of_mem u (h.kin_excluded v hv)
  us_excluded := fun _ v hv => by
    obtain hv | hv := List.mem_append.mp hv
    · exact List.mem_cons_of_mem u (h.us_excluded hlt v hv)
    · obtain rfl := List.mem_singleton.mp hv
      exact List.mem_cons_self
  nodup := by
    refine List.nodup_append.mpr ⟨h.nodup, List.nodup_singleton u, ?_⟩
    rintro v hv w hw rfl
    obtain rfl := List.mem_singleton.mp hw
    exact hnew (h.us_excluded hlt v hv)
  few := by
    rw [List.length_append, List.length_singleton]
    omega
  uncles := fun v hv => by
    obtain hv | hv := List.mem_append.mp hv
    · exact h.uncles v hv
    · obtain rfl := List.mem_singleton.mp hv
      exact ⟨hu, fun hk => hnew (h.kin_excluded v hk)⟩

/-- What is excluded does not matter once there are two uncles. -/
theorem Choice.full {parent : BlockHeader} {kin excluded excluded' us : List H256}
    (h : Choice n parent kin excluded us) (hfull : us.length = 2)
    (hkin : ∀ u ∈ kin, u ∈ excluded') : Choice n parent kin excluded' us where
  kin_excluded := hkin
  us_excluded := fun hlt => by omega
  nodup := h.nodup
  few := h.few
  uncles := h.uncles

theorem unclesFrom_choice {parent : BlockHeader} {kin : List H256} (l : List H256)
    {excluded us : List H256} (h : Choice n parent kin excluded us) (hlt : us.length < 2)
    (hl : ∀ u ∈ l, IsUncle n parent u) :
    Choice n parent kin (unclesFrom l excluded us).1 (unclesFrom l excluded us).2 := by
  induction l generalizing excluded us with
  | nil => exact h
  | cons u l ih =>
    have hrest : ∀ v ∈ l, IsUncle n parent v := fun v hv => hl v (List.mem_cons_of_mem u hv)
    unfold unclesFrom
    split_ifs with hu hfull
    · exact ih h hlt hrest
    · exact (h.add hlt (hl u List.mem_cons_self) hu).full
        (by rw [List.length_append, List.length_singleton, hfull]) h.kin_excluded
    · exact ih (h.add hlt (hl u List.mem_cons_self) hu)
        (by rw [List.length_append, List.length_singleton]; omega) hrest

/-- All generations: the walk goes up from parent to parent. -/
theorem chooseUncles_choice (hl : ChainLaws n) {parent : BlockHeader} {kin : List H256}
    (gens k : ℕ) {excluded us : List H256} (h : Choice n parent kin excluded us)
    (hgens : gens + k = 6) {p : BlockHeader}
    (hp : headerOf n (n.chain.parent^[k] parent.parentHash) = some p)
    (hnum : p.number.toNat + k + 1 = parent.number.toNat) :
    ∃ excluded', Choice n parent kin excluded'
      (chooseUncles n gens (n.chain.parent^[k] parent.parentHash) excluded us) := by
  induction gens generalizing k excluded us p with
  | zero => exact ⟨excluded, h⟩
  | succ gens ih =>
    unfold chooseUncles
    split_ifs with hstop
    · exact ⟨excluded, h⟩
    · obtain ⟨hgen, hlt⟩ := not_or.mp hstop
      have hne : p.number ≠ 0 := fun hz => hgen (hl.genesis _ p hp hz)
      obtain ⟨hup, p', hp', hpn, -⟩ := hl.parents _ p hp hne
      have hchildren : ∀ u ∈ n.chain.children (n.chain.parent^[k] parent.parentHash),
          IsUncle n parent u := by
        intro u hu
        obtain ⟨bi, hbi, hpar, hn0⟩ := hl.children _ u hu
        obtain ⟨-, q, hq, hqn, -⟩ := hl.parents u bi hbi hn0
        have hpq : p = q := Option.some.inj (by rw [← hp, ← hpar, hq])
        refine ⟨k, by omega, bi, q, hbi, hq, hpar, hn0, ?_⟩
        rw [hqn, ← hpq]
        omega
      have hnext : n.chain.parent^[k + 1] parent.parentHash = p.parentHash := by
        rw [Function.iterate_succ_apply', hup]
      obtain ⟨excluded', hc⟩ := ih (k + 1)
        (unclesFrom_choice _ h (by omega) hchildren) (by omega)
        (by rw [hnext]; exact hp') (by omega)
      refine ⟨excluded', ?_⟩
      rw [Function.iterate_succ_apply'] at hc
      exact hc

/-- The uncles that a block is sealed with. -/
def sealUncles (n : Node S) (parent : BlockHeader) (parentHash : H256) : List H256 :=
  if parent.number ≠ 0 then
    chooseUncles n 6 parent.parentHash (n.chain.allKinFrom parentHash 6) []
  else []

theorem sealUncles_choice (hl : ChainLaws n) {parent : BlockHeader} {parentHash : H256}
    (hp : headerOf n parentHash = some parent) : ∃ excluded,
      Choice n parent (n.chain.allKinFrom parentHash 6) excluded (sealUncles n parent parentHash) := by
  unfold sealUncles
  split_ifs with hne
  · obtain ⟨-, p, hgrand, hnum, -⟩ := hl.parents parentHash parent hp hne
    exact chooseUncles_choice hl 6 0 (Choice.start parent _) rfl hgrand (by omega)
  · exact ⟨_, Choice.start parent _⟩

theorem uncles_known {parent : BlockHeader} {us : List H256} (hus : ∀ u ∈ us, IsUncle n parent u) :
    ∃ raw headers, us.mapM n.chain.headerData = some raw ∧
      us.mapM (headerOf n) = some headers := by
  induction us with
  | nil => exact ⟨[], [], rfl, rfl⟩
  | cons u us ih =>
    obtain ⟨raw, headers, hraw, hheaders⟩ := ih fun v hv => hus v (List.mem_cons_of_mem u hv)
    obtain ⟨k, hk⟩ := hus u List.mem_cons_self
    obtain ⟨bi, -, hbi, -⟩ := hk.header
    obtain ⟨d, hd, -⟩ := headerOf_eq_some.mp hbi
    refine ⟨d :: raw, bi :: headers, ?_, ?_⟩
    · rw [List.mapM_cons, hd, hraw]
      rfl
    · rw [List.mapM_cons, hbi, hheaders]
      rfl

end Choosing

section Passing

theorem ok_of_runs {α : Type} {m : Exec S α} {a : α}
    (h : Runs m b (fun a' b' => a' = a ∧ b' = b) Never) : m b = .ok a b := by
  cases hm : m b with
  | ok a' b' =>
    obtain ⟨rfl, rfl⟩ := h.ok hm
    rfl
  | error e b' => exact (h.error hm).elim

/-- A block under construction on a parent that the chain has. -/
structure On (n : Node S) (parent : BlockHeader) (h : BlockHeader) : Prop where
  known : headerOf n h.parentHash = some parent
  number : h.number.toNat = parent.number.toNat + 1

variable {parent : BlockHeader} {excluded : List H256}

/-- An uncle that passes the checks. -/
theorem enactUncle_ok {raw : Bytes} {u p : BlockHeader} (hnew : n.sha3 raw ∉ excluded)
    (hread : BlockHeader.ofBytes n.sha3 raw .HeaderData (n.sha3 raw) = .ok u)
    (hknown : n.chain.isKnown u.parentHash = true) (hp : headerOf n u.parentHash = some p)
    (hnear : (b.currentBlock.number.toNat : ℤ) - u.number.toNat ≤ 6)
    (hbrother : 1 ≤ (b.currentBlock.number.toNat : ℤ) - u.number.toNat)
    (hancestor : ancestor n (n.chain.parent b.currentBlock.parentHash)
      (((b.currentBlock.number.toNat : ℤ) - u.number.toNat).toNat - 1) =
        (p.hash n.sha3 .WithSeal).1)
    (hverify : u.verify n.sha3 .CheckNothingNew p = .ok ()) :
    enactUncle n excluded raw b = .ok u b := by
  refine ok_of_runs ?_
  refine runs_bind (runs_get (runs_bind (runs_ite (fun h => (hnew h).elim) fun _ => ?_)))
  refine runs_pure (runs_bind ?_)
  rw [hread]
  refine runs_pure (runs_bind (runs_ite (fun _ => runs_pure (runs_bind (runs_info_ok hp ?_)))
    fun h => (h hknown).elim))
  refine runs_bind (runs_ite (fun h => absurd h (not_lt.mpr hnear)) fun _ =>
    runs_ite (fun h => absurd h (not_lt.mpr hbrother)) fun _ => ?_)
  refine runs_pure (runs_bind (runs_ite (fun h => (h hancestor).elim) fun _ => runs_pure
    (runs_bind ?_)))
  rw [hverify]
  exact runs_pure (runs_pure ⟨rfl, rfl⟩)

/-- Everything that is checked of an uncle holds of the ones that are chosen. -/
theorem enactUncle_accepts (hl : ChainLaws n) (hon : On n parent b.currentBlock) {u : H256}
    {k : ℕ} (hu : UncleAt n parent u k) {d : Bytes} (hd : n.chain.headerData u = some d)
    {bi : BlockHeader} (hbi : headerOf n u = some bi) (hnew : u ∉ excluded) :
    enactUncle n excluded d b = .ok bi b := by
  obtain ⟨bi', p, hbi', hp, hpar, hn0, hnum⟩ := hu.header
  obtain rfl : bi = bi' := Option.some.inj (hbi.symm.trans hbi')
  have hsha : n.sha3 d = u := hl.addressed u d hd
  have hread : BlockHeader.ofBytes n.sha3 d .HeaderData (n.sha3 d) = .ok bi := by
    obtain ⟨d', hd', hb⟩ := headerOf_eq_some.mp hbi
    obtain rfl : d = d' := Option.some.inj (hd.symm.trans hd')
    rw [ofBytes_hashWith, hb]
  have hknown : n.chain.isKnown bi.parentHash = true := by
    obtain ⟨d', hd', -⟩ := headerOf_eq_some.mp hp
    rw [hl.known, hd']
    rfl
  obtain ⟨-, p', hp', hpn, htime⟩ := hl.parents u bi hbi hn0
  obtain rfl : p = p' := Option.some.inj (hp.symm.trans hp')
  have hparent : parent.number ≠ 0 := by
    intro hz
    have h0 : parent.number.toNat = 0 := by
      rw [hz]
      rfl
    omega
  have hdepth : (b.currentBlock.number.toNat : ℤ) - bi.number.toNat = (k + 1 : ℕ) := by
    have := hon.number
    omega
  have hnear := hu.near
  have hanc : ancestor n (n.chain.parent b.currentBlock.parentHash) (((k + 1 : ℕ) : ℤ).toNat - 1) =
      bi.parentHash := by
    rw [Int.toNat_natCast, Nat.add_sub_cancel, (hl.parents _ parent hon.known hparent).1, hpar]
    rfl
  have hverify : bi.verify n.sha3 .CheckNothingNew p = .ok () := by
    have hsmall := hl.small u bi hbi
    have hnumber : bi.number = p.number + 1 := by
      apply BitVec.eq_of_toNat_eq
      rw [BitVec.toNat_add, hpn]
      show _ = (p.number.toNat + 1) % 2 ^ 256
      rw [Nat.mod_eq_of_lt (by omega)]
    unfold BlockHeader.verify
    rw [if_neg (by omega), if_neg (fun h => h.1 rfl), if_pos (hl.isSet _ p hp),
      if_neg (fun h => h.2 (hl.hash hp)), if_neg (BitVec.not_le.mpr htime), if_neg (not_not.mpr hnumber)]
    rfl
  refine enactUncle_ok (fun h => hnew (hsha ▸ h)) hread hknown hp (by omega) (by omega) ?_ hverify
  rw [hdepth, hanc, hl.hash hp]

/-- The chosen uncles one after the other. -/
theorem enactUncles_accepts (hl : ChainLaws n) (hon : On n parent b.currentBlock)
    {us : List H256} (hus : ∀ u ∈ us, IsUncle n parent u) (hnodup : us.Nodup)
    {raw : List Bytes} (hraw : us.mapM n.chain.headerData = some raw)
    {headers : List BlockHeader} (hheaders : us.mapM (headerOf n) = some headers)
    (hnew : ∀ u ∈ us, u ∉ excluded) (i : ℕ) :
    enactUncles n excluded raw i b = .ok headers b := by
  induction us generalizing raw headers excluded i with
  | nil =>
    obtain rfl := Option.some.inj hraw
    obtain rfl := Option.some.inj hheaders
    rfl
  | cons u us ih =>
    rw [List.mapM_cons] at hraw hheaders
    simp only [Option.bind_eq_bind, Option.bind_eq_some_iff] at hraw hheaders
    obtain ⟨d, hd, ds, hds, hraw⟩ := hraw
    obtain ⟨bi, hbi, bis, hbis, hheaders⟩ := hheaders
    obtain rfl := Option.some.inj hraw
    obtain rfl := Option.some.inj hheaders
    obtain ⟨k, hk⟩ := hus u List.mem_cons_self
    have hfirst := enactUncle_accepts hl hon hk hd hbi (hnew u List.mem_cons_self)
    have hsha : n.sha3 d = u := hl.addressed u d hd
    have hnew' : ∀ v ∈ us, v ∉ n.sha3 d :: excluded := by
      intro v hv hmem
      obtain rfl | hmem := List.mem_cons.mp hmem
      · rw [hsha] at hv
        exact (List.nodup_cons.mp hnodup).1 hv
      · exact hnew v (List.mem_cons_of_mem u hv) hmem
    have hrest := ih (fun v hv => hus v (List.mem_cons_of_mem u hv)) (List.nodup_cons.mp hnodup).2 hds
      hbis hnew' (i + 1)
    refine ok_of_runs (runs_bind (runs_tryCatch (runs_of_ok hfirst (runs_bind
      (runs_of_ok hrest (runs_pure ⟨rfl, rfl⟩))))))

end Passing

end Block
end XChain
