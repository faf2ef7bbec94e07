import XChain.Executive
import XChain.Ledger
import XChain.VMRuns
import Mathlib.Data.FinEnum

/-!
# Ether in an execution

The sum of all balances over the phases of a transaction. The gas is bought from the
sender, value moves from the sender to the receiver, and what was bought goes back to
the sender and to the author. The sum is kept when the price of the gas was paid; a
message call without a signature before the fork that prices such calls at zero pays
nothing.
-/
namespace XChain
namespace Executive

open Machine Ledger

variable {S : Type} {h : Host S} {e : SealEngine} {env : EnvInfo} {t : Transaction}
  {ex : Executive S}

/-- The balance of an account. -/
def bal (h : Host S) (s : S) (a : Address) : ℕ := (h.state.balance s a).toNat

/-- What is promised of the code that an execution calls: the laws of the state, and that
a machine keeps the sum of the balances, kills no account and gives back no more gas than
it was given. -/
structure Host.Honest (h : Host S) (e : SealEngine) (env : EnvInfo) : Prop where
  lawful : h.state.Lawful
  schedule : ∀ p, (h.extVM env p).evmSchedule = e.evmSchedule env.number
  create : ∀ p ext endowment gas init, ((h.extVM env p).create ext endowment gas init).2.1 ≤ gas
  call : ∀ p ext params, ((h.extVM env p).call ext params).2.2.1 ≤ params.gas
  sum : ∀ p fuel gas w vm, VM.exec h.sha3 (h.extVM env p) h.stray fuel gas w = some (.ok () vm) →
    total (bal h vm.ext.1) = total (bal h w.1)
  alive : ∀ p fuel gas w vm, VM.exec h.sha3 (h.extVM env p) h.stray fuel gas w = some (.ok () vm) →
    w.2.suicides = [] → vm.ext.2.suicides = []

/-- The machine makes no transfers. -/
def Quiet (h : Host S) (env : EnvInfo) : Prop :=
  ∀ p fuel gas w vm, VM.exec h.sha3 (h.extVM env p) h.stray fuel gas w = some (.ok () vm) →
    ∀ a, bal h vm.ext.1 a = bal h w.1 a

theorem evmSchedule_mem (e : SealEngine) (number : Word) : e.evmSchedule number ∈ schedules := by
  unfold SealEngine.evmSchedule schedules
  split_ifs <;> simp

theorem Host.Honest.metered (hh : h.Honest e env) (p : ExtVMParams) :
    VM.Metered (h.extVM env p) := by
  constructor
  · rw [hh.schedule]
    exact priced_of_mem (evmSchedule_mem e env.number)
  · exact hh.create p
  · exact hh.call p

section Rules

variable {Q : Unit → Executive S → Prop} {E : ExecutiveError → Executive S → Prop}

/-- The same balances, except for one account. -/
def SameBut (f g : Address → ℕ) (a : Address) : Prop := ∀ b, b ≠ a → g b = f b

theorem runs_subBalance (law : h.state.Lawful) {a : Address} {v : Word}
    (hQ : v.toNat ≤ bal h ex.state a → ∀ s, bal h s a + v.toNat = bal h ex.state a →
      SameBut (bal h ex.state) (bal h s) a →
      (∀ b, h.state.getNonce s b = h.state.getNonce ex.state b) → Q () { ex with state := s })
    (hE : bal h ex.state a < v.toNat → E .NotEnoughCash ex) :
    Runs (subBalance h.state a v) ex Q E := by
  unfold subBalance
  refine runs_bind (runs_get ?_)
  cases hs : h.state.subBalance ex.state a v with
  | none => exact runs_throw (hE (BitVec.lt_def.mp ((law.subBalance_none _ _ _).mp hs)))
  | some s =>
    have hle : v ≤ h.state.balance ex.state a := by
      by_contra hlt
      rw [(law.subBalance_none _ _ _).mpr (by simpa using hlt)] at hs
      cases hs
    have hbal := law.subBalance_some _ _ _ _ hs
    refine runs_set (hQ (BitVec.le_def.mp hle) s ?_ (fun b hb => ?_)
      (law.subBalance_nonce _ _ _ _ hs))
    · unfold bal
      rw [hbal a, if_pos rfl, BitVec.toNat_sub_of_le hle]
      have := BitVec.le_def.mp hle
      omega
    · unfold bal
      rw [hbal b, if_neg hb]

theorem runs_addBalance (law : h.state.Lawful) {a : Address} {v : Word}
    (hQ : ∀ s, bal h s a = bal h ex.state a + v.toNat →
      SameBut (bal h ex.state) (bal h s) a → Q () { ex with state := s })
    (hE : 2 ^ 256 ≤ bal h ex.state a + v.toNat → E .wraps ex) :
    Runs (addBalance h.state a v) ex Q E := by
  unfold addBalance
  refine runs_bind (runs_get (runs_ite (fun hlt => ?_) fun hge => ?_))
  · have hbal := law.addBalance ex.state a v
    refine runs_set (hQ _ ?_ fun b hb => ?_)
    · unfold bal
      rw [hbal a, if_pos rfl, BitVec.toNat_add_of_lt hlt]
    · unfold bal
      rw [hbal b, if_neg hb]
  · exact runs_throw (hE (not_lt.mp hge))

/-- The sum is the same and, unless accounts coincide or the machine makes transfers of its
own, `v` or nothing has gone from `a` to `b`. -/
structure Moves (f g : Address → ℕ) (a b c : Address) (v : ℕ) (quiet : Prop) : Prop where
  total : total g = total f
  moved : quiet → a ≠ b → a ≠ c → b ≠ c →
    ∃ m, (m = 0 ∨ m = v) ∧ g a + m = f a ∧ g b = f b + m ∧ g c = f c

theorem Moves.of_eq {f g : Address → ℕ} {a b c : Address} {v : ℕ} {quiet : Prop}
    (heq : ∀ x, g x = f x) : Moves f g a b c v quiet :=
  ⟨total_congr heq, fun _ _ _ _ => ⟨0, Or.inl rfl, heq a, heq b, heq c⟩⟩

/-- What the machine does after the value has moved. -/
theorem Moves.trans {f g k : Address → ℕ} {a b c : Address} {v : ℕ} {quiet : Prop}
    (hm : Moves f g a b c v quiet) (htotal : Ledger.total k = Ledger.total g)
    (hquiet : quiet → ∀ x, k x = g x) : Moves f k a b c v quiet := by
  refine ⟨htotal.trans hm.total, fun hq hab hac hbc => ?_⟩
  obtain ⟨m, hv, h1, h2, h3⟩ := hm.moved hq hab hac hbc
  exact ⟨m, hv, by rw [hquiet hq, h1], by rw [hquiet hq, h2], by rw [hquiet hq, h3]⟩

theorem runs_transferBalance (law : h.state.Lawful) {a b : Address} {v : Word} (c : Address)
    (quiet : Prop)
    (hsum : total (bal h ex.state) < 2 ^ 256)
    (hQ : ∀ s, Moves (bal h ex.state) (bal h s) a b c v.toNat quiet → Q () { ex with state := s })
    (hE : E .NotEnoughCash ex) : Runs (transferBalance h.state a b v) ex Q E := by
  unfold transferBalance
  refine runs_bind (runs_get ?_)
  rw [law.transferBalance]
  cases hs : h.state.subBalance ex.state a v with
  | none => exact runs_throw hE
  | some s =>
    have hle : v ≤ h.state.balance ex.state a := by
      by_contra hlt
      rw [(law.subBalance_none _ _ _).mpr (by simpa using hlt)] at hs
      cases hs
    have hv : v.toNat ≤ bal h ex.state a := BitVec.le_def.mp hle
    have hsub := law.subBalance_some _ _ _ _ hs
    have ha : bal h s a + v.toNat = bal h ex.state a := by
      unfold bal at hv ⊢
      rw [hsub a, if_pos rfl, BitVec.toNat_sub_of_le hle]
      omega
    have hothers : SameBut (bal h ex.state) (bal h s) a := by
      intro x hx
      unfold bal
      rw [hsub x, if_neg hx]
    have hdebit := total_debit ha hothers
    have hfits : bal h s b + v.toNat < 2 ^ 256 := by
      have hb := le_total (bal h s) b
      omega
    -- The addition does not wrap, because the sum is back at what it was.
    have hadd := law.addBalance s b v
    have hb : bal h (h.state.addBalance s b v) b = bal h s b + v.toNat := by
      unfold bal
      rw [hadd b, if_pos rfl]
      exact BitVec.toNat_add_of_lt hfits
    have hkept : SameBut (bal h s) (bal h (h.state.addBalance s b v)) b := by
      intro x hx
      unfold bal
      rw [hadd x, if_neg hx]
    have hcredit := total_credit hb hkept
    refine runs_ite (fun hwraps => ?_) fun _ => runs_set (hQ _ ⟨?_, fun _ hab hac hbc => ?_⟩)
    · have hsame : bal h s b = bal h ex.state b := hothers b (Ne.symm hwraps.1)
      have hover : 2 ^ 256 ≤ bal h ex.state b + v.toNat := hwraps.2
      omega
    · exact hcredit.trans hdebit
    · refine ⟨v.toNat, Or.inr rfl, ?_, ?_, ?_⟩
      · rw [hkept a hab, ha]
      · rw [hb, hothers b (Ne.symm hab)]
      · rw [hkept c (Ne.symm hbc), hothers c (Ne.symm hac)]

/-- A change of the state that changes no balance, made or not. -/
theorem runs_changeState {c : Prop} [Decidable c] {f : S → S}
    (hf : ∀ s b, bal h (f s) b = bal h s b)
    (hQ : ∀ s, (∀ b, bal h s b = bal h ex.state b) → Q () { ex with state := s }) :
    Runs (if c then changeState f else pure ()) ex Q E :=
  runs_ite (fun _ => runs_modify (hQ _ (hf _))) fun _ => runs_pure (hQ ex.state fun _ => rfl)

end Rules

section Running

theorem zero_le_word (w : Word) : 0 ≤ w := BitVec.le_def.mpr (Nat.zero_le _)

theorem ofNat_le_word {n : ℕ} {w : Word} (hn : n ≤ w.toNat) : BitVec.ofNat 256 n ≤ w := by
  rw [BitVec.le_def, BitVec.toNat_ofNat]
  exact (Nat.mod_le _ _).trans hn

/-- The errors that a paid execution never ends in. -/
def NoWrap (err : ExecutiveError) (_ : Executive S) : Prop := err ≠ .wraps ∧ err ≠ .unfinished

/-- The state of an execution after `call` or `create`: `f` are the balances when the
savepoint was taken. -/
structure Ran (h : Host S) (env : EnvInfo) (t : Transaction) (f : Address → ℕ) (a b : Address)
    (gas : Word) (ex : Executive S) : Prop where
  saved : ∀ x, bal h ex.savepoint x = f x
  moves : Moves f (bal h ex.state) a b env.author t.value.toNat (Quiet h env)
  gas : ex.gas ≤ gas
  ext : ∀ x, ex.ext = some x → (∃ p, x.1 = h.extVM env p) ∧ x.2.2.suicides = []

theorem call_spec (hh : h.Honest e env) (a b : Address) (gas : Word)
    (hsum : total (bal h ex.state) < 2 ^ 256) (hgas : ex.gas = 0) (hext : ex.ext = none) :
    Runs (call h e env t b a gas) ex
      (fun done ex' => Ran h env t (bal h ex.state) a b gas ex' ∧ (done = true → ex'.ext = none))
      NoWrap := by
  have hnocash : NoWrap (S := S) .NotEnoughCash ex := ⟨by decide, by decide⟩
  unfold call
  refine runs_bind (runs_changeState (h := h) (fun s b => ?_) fun s hs => ?_)
  · unfold bal
    rw [hh.lawful.incNonce]
  refine runs_bind (runs_modify ?_)
  have hsum' : total (bal h s) < 2 ^ 256 := by rwa [total_congr hs]
  refine runs_ite (fun hcost => ?_) fun hcost => ?_
  · refine runs_bind (runs_modify ?_)
    have hran : ∀ s', (∀ x, bal h s' x = bal h s x) → ∀ ex' : Executive S,
        ex'.state = s' → ex'.savepoint = s → ex'.gas = 0 → ex'.ext = none →
        Ran h env t (bal h ex.state) a b gas ex' := by
      rintro s' hs' ex' rfl rfl hgas' hext'
      refine ⟨hs, Moves.of_eq fun x => (hs' x).trans (hs x), ?_, ?_⟩
      · rw [hgas']
        exact zero_le_word gas
      · intro x hx
        rw [hext'] at hx
        cases hx
    refine runs_bind (runs_ite (fun _ => ?_) fun _ => ?_)
    · refine runs_addBalance hh.lawful (fun s' hb hothers => ?_) fun hover => ?_
      · refine runs_pure ⟨hran s' (fun x => ?_) _ rfl rfl hgas hext, fun _ => hext⟩
        by_cases hx : x = b
        · rw [hx]
          exact hb
        · exact hothers x hx
      · have hlt := (h.state.balance s b).isLt
        have hover' : 2 ^ 256 ≤ (h.state.balance s b).toNat + 0 := hover
        omega
    · exact runs_pure (runs_pure ⟨hran s (fun _ => rfl) _ rfl rfl hgas hext, fun _ => hext⟩)
  · have hrest : ∀ ex' : Executive S, ex'.state = s → ex'.savepoint = s → ex'.gas ≤ gas →
        (∀ x, ex'.ext = some x → (∃ p, x.1 = h.extVM env p) ∧ x.2.2.suicides = []) → Runs (do
          transferBalance h.state a b t.value
          let ex ← get
          pure ex.ext.isNone) ex'
        (fun done ex'' => Ran h env t (bal h ex.state) a b gas ex'' ∧ (done = true → ex''.ext = none))
        NoWrap := by
      rintro ex' rfl hsaved hgas' hext'
      refine runs_bind (runs_transferBalance hh.lawful env.author (Quiet h env) hsum'
        (fun s' hmoves => ?_) ⟨by decide, by decide⟩)
      refine runs_bind (runs_get (runs_pure ⟨⟨?_, ⟨?_, ?_⟩, hgas', hext'⟩, fun hdone => ?_⟩))
      · intro x
        rw [← hs x, ← hsaved]
      · rw [hmoves.total, total_congr hs]
      · intro hq hab hac hbc
        obtain ⟨m, hm, h1, h2, h3⟩ := hmoves.moved hq hab hac hbc
        exact ⟨m, hm, h1.trans (hs a), by rw [h2, hs], h3.trans (hs env.author)⟩
      · exact Option.isNone_iff_eq_none.mp hdone
    refine runs_bind (runs_ite (fun _ => ?_) fun _ => ?_)
    · refine runs_modify (hrest _ rfl rfl ?_ fun x hx => ?_)
      · show (if _ then _ else _) ≤ gas
        split_ifs
        · exact ofNat_le_word (Nat.sub_le _ _)
        · exact zero_le_word gas
      · rw [hext] at hx
        cases hx
    · refine runs_bind (runs_modify (runs_bind (runs_get (runs_ite (fun _ => ?_) fun _ => ?_))))
      · refine runs_modify (hrest _ rfl rfl (BitVec.le_refl gas) fun x hx => ?_)
        obtain rfl := Option.some.inj hx
        exact ⟨⟨_, rfl⟩, rfl⟩
      · refine runs_pure (hrest _ rfl rfl (BitVec.le_refl gas) fun x hx => ?_)
        rw [hext] at hx
        cases hx

theorem create_spec (hh : h.Honest e env) (a : Address) (gas : Word)
    (hsum : total (bal h ex.state) < 2 ^ 256) (hext : ex.ext = none) :
    Runs (create h e env t a gas) ex (fun done ex' => Ran h env t (bal h ex.state) a
      (createdAddress h a (h.state.getNonce ex.state a)) gas ex' ∧ (done = true → ex'.ext = none))
      NoWrap := by
  have hnonce : ∀ s a b, bal h (h.state.incNonce s a) b = bal h s b := by
    intro s a b
    unfold bal
    rw [hh.lawful.incNonce]
  unfold create
  refine runs_bind (runs_get (runs_bind (runs_changeState (h := h) (fun s b => hnonce s a b)
    fun s hs => ?_)))
  refine runs_bind (runs_modify (runs_bind (runs_modify ?_)))
  have hsum' : total (bal h s) < 2 ^ 256 := by rwa [total_congr hs]
  refine runs_bind (runs_transferBalance hh.lawful env.author (Quiet h env) hsum'
    (fun s₁ hmoves => ?_) ⟨by decide, by decide⟩)
  refine runs_bind (runs_changeState (h := h) (fun s b => hnonce s _ b) fun s₂ hs₂ => ?_)
  have hmoves' : ∀ s₃, (∀ x, bal h s₃ x = bal h s₂ x) → Moves (bal h ex.state) (bal h s₃) a
      (createdAddress h a (h.state.getNonce ex.state a)) env.author t.value.toNat (Quiet h env) := by
    intro s₃ hs₃
    have h23 : ∀ x, bal h s₃ x = bal h s₁ x := fun x => (hs₃ x).trans (hs₂ x)
    refine ⟨?_, fun hq hab hac hbc => ?_⟩
    · rw [total_congr h23, hmoves.total, total_congr hs]
    · obtain ⟨m, hm, h1, h2, h3⟩ := hmoves.moved hq hab hac hbc
      refine ⟨m, hm, ?_, ?_, ?_⟩
      · rw [h23, h1, hs]
      · rw [h23, h2, hs]
      · rw [h23, h3, hs]
  refine runs_bind (runs_get (runs_bind (runs_ite (fun _ => ?_) fun _ => ?_)))
  · refine runs_modify (runs_bind (runs_get (runs_pure ⟨⟨hs, hmoves' s₂ fun _ => rfl,
      BitVec.le_refl gas, fun x hx => ?_⟩, fun hdone => ?_⟩)))
    · obtain rfl := Option.some.inj hx
      exact ⟨⟨_, rfl⟩, rfl⟩
    · cases hdone
  · refine runs_changeState (h := h) (fun s b => ?_) fun s₃ hs₃ => ?_
    · unfold bal
      rw [hh.lawful.setNewCode]
    · refine runs_bind (runs_get (runs_pure ⟨⟨hs, hmoves' s₃ hs₃, BitVec.le_refl gas,
        fun x hx => ?_⟩, fun _ => hext⟩))
      rw [hext] at hx
      cases hx

/-- Everything since the savepoint is undone. -/
theorem Ran.reverted (before : Executive S) {f : Address → ℕ} {a b : Address} {gas : Word}
    (hh : h.Honest e env) (hsaved : ∀ x, bal h before.savepoint x = f x)
    (hext : ∀ x, before.ext = some x → ∃ p, x.1 = h.extVM env p) (hgas : ex.gas ≤ gas)
    (hsavepoint : ex.savepoint = before.savepoint)
    (hstate : ex.state = h.state.rollback before.state before.savepoint)
    (hsub : ex.ext = before.ext.map fun x => (x.1, x.2.1, ⟨[], [], 0⟩)) :
    Ran h env t f a b gas ex := by
  constructor
  · rw [hsavepoint]
    exact hsaved
  · refine Moves.of_eq fun x => ?_
    rw [hstate, ← hsaved]
    unfold bal
    rw [hh.lawful.rollback]
  · exact hgas
  · intro x hx
    rw [hsub, Option.map_eq_some_iff] at hx
    obtain ⟨y, hy, rfl⟩ := hx
    exact ⟨hext y hy, rfl⟩

theorem vmFailure_spec {f : Address → ℕ} {a b : Address} {gas : Word} (hh : h.Honest e env)
    (hsaved : ∀ x, bal h ex.savepoint x = f x)
    (hext : ∀ x, ex.ext = some x → ∃ p, x.1 = h.extVM env p) (x : TransactionException) :
    Runs (vmFailure h x) ex (fun _ ex' => Ran h env t f a b gas ex') NoWrap := by
  unfold vmFailure revert
  exact runs_bind (runs_modify (runs_modify
    (Ran.reverted ex hh hsaved hext (zero_le_word gas) rfl rfl rfl)))

theorem Ran.deposit {f : Address → ℕ} {a b : Address} {gas : Word} (hh : h.Honest e env)
    (hran : Ran h env t f a b gas ex) (schedule : EVMSchedule) (c : Address) (out : Bytes) :
    Runs (deposit h schedule c out) ex (fun _ ex' => Ran h env t f a b gas ex') NoWrap := by
  have hext : ∀ x, ex.ext = some x → ∃ p, x.1 = h.extVM env p := fun x hx => (hran.ext x hx).1
  have hstored : ∀ (gas' : Word) (code : Bytes), gas' ≤ ex.gas → Ran h env t f a b gas
      { ex with gas := gas', state := h.state.setNewCode ex.state c code } := by
    intro gas' code hle
    have hbal : ∀ x, bal h (h.state.setNewCode ex.state c code) x = bal h ex.state x := by
      intro x
      unfold bal
      rw [hh.lawful.setNewCode]
    exact ⟨hran.saved, hran.moves.trans (total_congr hbal) fun _ => hbal,
      BitVec.le_trans hle hran.gas, hran.ext⟩
  unfold Executive.deposit
  refine runs_bind (runs_get (runs_ite (fun _ => ?_) fun _ => runs_ite (fun hpaid => ?_) fun _ =>
    runs_ite (fun _ => ?_) fun _ => ?_))
  · exact vmFailure_spec hh hran.saved hext .OutOfGas
  · refine runs_bind (runs_modify (runs_modify (hstored _ out ?_)))
    have hlt : out.length * schedule.createDataGas < 2 ^ 256 := hpaid.trans_lt ex.gas.isLt
    have hle : BitVec.ofNat 256 (out.length * schedule.createDataGas) ≤ ex.gas := by
      rw [BitVec.le_def, BitVec.toNat_ofNat, Nat.mod_eq_of_lt hlt]
      exact hpaid
    rw [BitVec.le_def, BitVec.toNat_sub_of_le hle]
    exact Nat.sub_le _ _
  · exact vmFailure_spec hh hran.saved hext .OutOfGas
  · exact runs_modify (hstored ex.gas [] (BitVec.le_refl _))

theorem Ran.go {f : Address → ℕ} {a b : Address} {gas : Word} (hh : h.Honest e env)
    (hran : Ran h env t f a b gas ex) :
    Runs (go h) ex (fun _ ex' => Ran h env t f a b gas ex') NoWrap := by
  unfold Executive.go
  refine runs_bind (runs_get ?_)
  cases hx : ex.ext with
  | none => exact runs_pure hran
  | some x =>
    obtain ⟨face, c, sub⟩ := x
    obtain ⟨⟨p, hface⟩, hsub⟩ := hran.ext _ hx
    obtain rfl : face = h.extVM env p := hface
    have hmetered := hh.metered p
    dsimp only
    -- The machine that is left has no more gas than there was.
    have hgas : ∀ vm : VM (S × SubState), vm.ioGas ≤ ex.gas.toNat →
        BitVec.ofNat 256 vm.ioGas ≤ gas := fun vm hle =>
      BitVec.le_trans (ofNat_le_word hle) hran.gas
    have hfaces : ∀ (vm : VM (S × SubState)) y,
        (ex.ext.map fun x => (x.1, x.2.1, vm.ext.2)) = some y → ∃ p, y.1 = h.extVM env p := by
      intro vm y hy
      rw [hx] at hy
      obtain rfl := Option.some.inj hy
      exact ⟨p, rfl⟩
    cases hrun : VM.exec h.sha3 (h.extVM env p) h.stray (ex.gas.toNat + 1) ex.gas (ex.state, sub) with
    | none =>
      obtain ⟨r, hr⟩ := VM.exec_some hmetered h.sha3 h.stray ex.gas (ex.state, sub)
      rw [hrun] at hr
      cases hr
    | some r =>
      obtain ⟨hok, herror⟩ := VM.exec_ioGas_le hmetered hrun
      cases r with
      | ok u vm =>
        have hsum := hh.sum _ _ _ _ _ hrun
        have hafter : Ran h env t f a b gas { ex with
            gas := BitVec.ofNat 256 vm.ioGas, state := vm.ext.1,
            ext := ex.ext.map fun x => (x.1, x.2.1, vm.ext.2) } := by
          refine ⟨hran.saved, hran.moves.trans hsum fun hq => hq _ _ _ _ _ hrun,
            hgas vm (hok vm rfl), fun y hy => ⟨hfaces vm y hy, ?_⟩⟩
          rw [hx] at hy
          obtain rfl := Option.some.inj hy
          exact hh.alive _ _ _ _ _ hrun hsub
        refine runs_bind (runs_modify (runs_ite (fun _ => ?_) fun _ => ?_))
        · exact hafter.deposit hh _ c vm.output
        · exact runs_modify ⟨hafter.saved, hafter.moves, hafter.gas, hafter.ext⟩
      | error x vm =>
        have hgas' := hgas vm (herror x vm rfl)
        have hfailure : ∀ y, Runs (do
            takeOver vm
            vmFailure h y) ex (fun _ ex' => Ran h env t f a b gas ex') NoWrap := by
          intro y
          refine runs_bind (runs_modify (vmFailure_spec hh ?_ ?_ y))
          · exact hran.saved
          · exact hfaces vm
        cases x with
        | RevertInstruction output =>
          refine runs_bind (runs_modify (runs_bind (runs_modify (runs_modify ?_))))
          exact Ran.reverted { ex with
            gas := BitVec.ofNat 256 vm.ioGas, state := vm.ext.1,
            ext := ex.ext.map fun x => (x.1, x.2.1, vm.ext.2) } hh hran.saved (hfaces vm) hgas'
            rfl rfl rfl
        | _ => exact hfailure _

end Running

section Transaction

theorem runs_check {c : Prop} [Decidable c] {x : TransactionException} {err : ExecutiveError}
    {Q : Unit → Executive S → Prop} (herr : err ≠ .wraps ∧ err ≠ .unfinished)
    (hQ : ¬ c → Q () ex) : Runs (if c then fail x err else pure ()) ex Q NoWrap :=
  runs_ite (fun _ => runs_bind (runs_modify (runs_throw herr))) fun hc => runs_pure (hQ hc)

theorem runs_senderOf {Q : Address → Executive S → Prop}
    (hQ : ∀ a, t.senderOf h.sha3 h.recover = some a → Q a ex) :
    Runs (senderOf h t) ex Q NoWrap := by
  unfold senderOf
  cases ha : t.senderOf h.sha3 h.recover with
  | none => exact runs_bind (runs_modify (runs_throw ⟨by decide, by decide⟩))
  | some a => exact runs_pure (hQ a ha)

theorem baseGasRequired_pos (t : Transaction) {es : EVMSchedule} (hes : es ∈ schedules) :
    0 < t.baseGasRequired es := by
  have hprices : ∀ es ∈ schedules, 0 < es.txCreateGas ∧ 0 < es.txGas := by decide
  obtain ⟨h1, h2⟩ := hprices es hes
  unfold Transaction.baseGasRequired
  split_ifs <;> omega

/-- What a transaction pays up front: nothing without a signature. -/
def cost (t : Transaction) : ℕ :=
  if t.hasZeroSignature then 0 else t.gas.toNat * t.gasPrice.toNat

/-- An execution whose transaction has been accepted. -/
structure Accepted (e : SealEngine) (env : EnvInfo) (t : Transaction) (s : S) (ex : Executive S) :
    Prop where
  state : ex.state = s
  gas : ex.gas = 0
  ext : ex.ext = none
  base : ex.baseGasRequired ≤ t.gas.toNat
  base_pos : 0 < ex.baseGasRequired
  gasCost : ex.gasCost.toNat = cost t
  zero : t.hasZeroSignature = true → e.metropolisForkBlock ≤ env.number → t.gasPrice = 0

theorem initialize_spec (h : Host S) (e : SealEngine) (env : EnvInfo) (t : Transaction) (s : S) :
    Runs (initializeTransaction h e env t) (start s) (fun _ ex => Accepted e env t s ex) NoWrap := by
  unfold initializeTransaction verifyTransaction
  refine runs_bind (runs_bind (runs_check ⟨by decide, by decide⟩ fun _ => ?_))
  refine runs_bind (runs_check ⟨by decide, by decide⟩ fun hzero => ?_)
  refine runs_check ⟨by decide, by decide⟩ fun _ => ?_
  refine runs_bind (runs_check ⟨by decide, by decide⟩ fun _ => ?_)
  refine runs_bind (runs_modify (runs_bind (runs_check ⟨by decide, by decide⟩ fun hbase => ?_)))
  have hpos := baseGasRequired_pos t (evmSchedule_mem e env.number)
  have hprice : t.hasZeroSignature = true → e.metropolisForkBlock ≤ env.number → t.gasPrice = 0 := by
    intro hz hfork
    by_contra hne
    exact hzero ⟨hfork, hz, Or.inr (Or.inl hne)⟩
  refine runs_ite (fun hz => runs_pure ?_) fun hz => ?_
  · exact ⟨rfl, rfl, rfl, not_lt.mp hbase, hpos, by rw [cost, if_pos hz]; rfl, hprice⟩
  · refine runs_bind (runs_senderOf fun a _ => runs_bind (runs_get ?_))
    refine runs_bind (runs_check ⟨by decide, by decide⟩ fun _ => ?_)
    refine runs_bind (runs_check ⟨by decide, by decide⟩ fun hfunds => runs_modify ?_)
    have hlt := (h.state.balance s a).isLt
    have hle : t.value.toNat + t.gas.toNat * t.gasPrice.toNat ≤ (h.state.balance s a).toNat :=
      not_lt.mp hfunds
    refine ⟨rfl, rfl, rfl, not_lt.mp hbase, hpos, ?_, hprice⟩
    rw [cost, if_neg hz]
    exact (BitVec.toNat_ofNat _ _).trans (Nat.mod_eq_of_lt (by omega))

/-- The account that value is moved to. -/
def receiver (h : Host S) (t : Transaction) (s : S) (a : Address) : Address :=
  if t.isCreation then createdAddress h a (h.state.getNonce s a) else t.receiveAddress

/-- The balances after the gas is paid. -/
structure PaidUp (h : Host S) (t : Transaction) (s : S) (f : Address → ℕ) (a : Address) : Prop where
  sender : t.senderOf h.sha3 h.recover = some a
  paid : f a + cost t = bal h s a
  others : SameBut (bal h s) f a

theorem execute_spec (hh : h.Honest e env) {s : S} (hsum : total (bal h s) < 2 ^ 256)
    (hacc : Accepted e env t s ex) :
    Runs (execute h e env t) ex (fun done ex' => ∃ a f gas, PaidUp h t s f a ∧ gas < t.gas ∧
      Ran h env t f a (receiver h t s a) gas ex' ∧ (done = true → ex'.ext = none)) NoWrap := by
  obtain rfl := hacc.state
  unfold execute
  refine runs_bind (runs_senderOf fun a ha => runs_bind (runs_get ?_))
  refine runs_bind (runs_subBalance hh.lawful (fun _ s' hpaid hothers hnonce => ?_)
    fun _ => ⟨by decide, by decide⟩)
  have hdebit := total_debit hpaid hothers
  have hsum' : total (bal h s') < 2 ^ 256 := by omega
  have hup : PaidUp h t ex.state (bal h s') a := by
    refine ⟨ha, ?_, hothers⟩
    rw [← hacc.gasCost]
    exact hpaid
  have hgas : t.gas - BitVec.ofNat 256 ex.baseGasRequired < t.gas := by
    have hbase := hacc.base
    have hlt := t.gas.isLt
    have hofNat : (BitVec.ofNat 256 ex.baseGasRequired).toNat = ex.baseGasRequired := by
      rw [BitVec.toNat_ofNat]
      exact Nat.mod_eq_of_lt (by omega)
    have hle : BitVec.ofNat 256 ex.baseGasRequired ≤ t.gas := by
      rw [BitVec.le_def, hofNat]
      exact hbase
    rw [BitVec.lt_def, BitVec.toNat_sub_of_le hle, hofNat]
    have hpos := hacc.base_pos
    omega
  refine runs_ite (fun hcreation => ?_) fun hcall => ?_
  · have hcreate := @create_spec S h e env t { ex with state := s' } hh a
      (t.gas - BitVec.ofNat 256 ex.baseGasRequired) hsum' hacc.ext
    refine hcreate.imp fun done ex' hran => ⟨a, _, _, hup, hgas, ?_, hran.2⟩
    rw [receiver, if_pos hcreation, ← hnonce]
    exact hran.1
  · have hcalled := @call_spec S h e env t { ex with state := s' } hh a t.receiveAddress
      (t.gas - BitVec.ofNat 256 ex.baseGasRequired) hsum' hacc.gas hacc.ext
    refine hcalled.imp fun done ex' hran => ⟨a, _, _, hup, hgas, ?_, hran.2⟩
    rw [receiver, if_neg hcall]
    exact hran.1

/-- At most half of the gas that was used is given back. -/
theorem refund_half (hle : ex.gas ≤ t.gas) :
    2 * (refund t ex).toNat ≤ t.gas.toNat - ex.gas.toNat := by
  have hhalf : refund t ex ≤ (t.gas - ex.gas) / 2 := by
    unfold refund
    cases ex.ext with
    | none => exact zero_le_word _
    | some x =>
      show (if _ then _ else _) ≤ _
      split_ifs with h2
      · exact BitVec.le_refl _
      · exact BitVec.le_of_lt (BitVec.not_le.mp h2)
  have hhalf' := BitVec.le_def.mp hhalf
  rw [BitVec.toNat_udiv, BitVec.toNat_sub_of_le hle] at hhalf'
  have h2 : (2 : Word).toNat = 2 := rfl
  rw [h2] at hhalf'
  omega

theorem refund_toNat (hle : ex.gas ≤ t.gas) :
    (ex.gas + refund t ex).toNat = ex.gas.toNat + (refund t ex).toNat := by
  have hhalf := refund_half hle
  have hle' := BitVec.le_def.mp hle
  have hlt := t.gas.isLt
  exact BitVec.toNat_add_of_lt (by omega)

theorem refund_le (hle : ex.gas ≤ t.gas) :
    (ex.gas + refund t ex).toNat ≤ t.gas.toNat := by
  have hhalf := refund_half hle
  have hle' := BitVec.le_def.mp hle
  rw [refund_toNat hle]
  omega

/-- The end of a transaction: `x` has gone to the sender and `y` to the author. -/
structure Settled (h : Host S) (env : EnvInfo) (t : Transaction) (s : S) (a : Address)
    (f : Address → ℕ) (ex : Executive S) : Prop where
  paidUp : PaidUp h t s f a
  gas : ex.gas ≤ t.gas
  total : total (bal h ex.state) =
    Ledger.total f + (ex.gas * t.gasPrice).toNat + ((t.gas - ex.gas) * t.gasPrice).toNat
  moved : Quiet h env → a ≠ receiver h t s a → a ≠ env.author → receiver h t s a ≠ env.author →
    ∃ m, (m = 0 ∨ m = t.value.toNat) ∧
      bal h ex.state a + m = f a + (ex.gas * t.gasPrice).toNat ∧
      bal h ex.state (receiver h t s a) = f (receiver h t s a) + m ∧
      bal h ex.state env.author = f env.author + ((t.gas - ex.gas) * t.gasPrice).toNat

/-- Both parts of the price of the gas together are at most the price of all of it. -/
theorem fees_le {g p : Word} (hle : g ≤ t.gas) :
    (g * p).toNat + ((t.gas - g) * p).toNat ≤ t.gas.toNat * p.toNat := by
  have h1 := Nat.mod_le (g.toNat * p.toNat) (2 ^ 256)
  have h2 := Nat.mod_le ((t.gas - g).toNat * p.toNat) (2 ^ 256)
  rw [← BitVec.toNat_mul] at h1 h2
  have hsub : g.toNat + (t.gas - g).toNat = t.gas.toNat := by
    rw [BitVec.toNat_sub_of_le hle]
    have hle' := BitVec.le_def.mp hle
    omega
  calc (g * p).toNat + ((t.gas - g) * p).toNat
      ≤ g.toNat * p.toNat + (t.gas - g).toNat * p.toNat := Nat.add_le_add h1 h2
    _ = t.gas.toNat * p.toNat := by rw [← Nat.add_mul, hsub]

theorem finalize_spec (hh : h.Honest e env) {s : S} {a : Address} {f : Address → ℕ} {gas : Word}
    (hup : PaidUp h t s f a) (hnull : t.isNull = false) (hlt : gas < t.gas)
    (hran : Ran h env t f a (receiver h t s a) gas ex) :
    Runs (finalize h env t) ex (fun _ ex' => Settled h env t s a f ex') fun err _ =>
      err ≠ .unfinished ∧
        (err = .wraps → 2 ^ 256 ≤ total f + t.gas.toNat * t.gasPrice.toNat) := by
  have hle : ex.gas ≤ t.gas := BitVec.le_trans hran.gas (BitVec.le_of_lt hlt)
  have hrefund : ex.gas + refund t ex ≤ t.gas := BitVec.le_def.mpr (refund_le hle)
  have hfees := @fees_le t (ex.gas + refund t ex) t.gasPrice hrefund
  have htotal := hran.moves.total
  have hkill : (ex.ext.map fun x => x.2.2.suicides).getD [] = [] := by
    cases hx : ex.ext with
    | none => rfl
    | some x => exact (hran.ext x hx).2
  unfold finalize
  refine runs_bind (runs_modify (runs_bind (runs_get (runs_bind (runs_ite (fun _ => ?_)
    fun hn => ?_)))))
  · unfold senderOf
    rw [hup.sender]
    refine runs_bind (runs_pure (runs_bind (runs_addBalance hh.lawful (fun s₁ h₁ hothers₁ => ?_)
      fun hover => ⟨by decide, fun _ => ?_⟩)))
    · have h₁' : bal h s₁ a = bal h ex.state a +
          ((ex.gas + refund t ex) * t.gasPrice).toNat := h₁
      have hothers₁' : SameBut (bal h ex.state) (bal h s₁) a := hothers₁
      have hcredit₁ := total_credit h₁' hothers₁'
      refine runs_addBalance hh.lawful (fun s₂ h₂ hothers₂ => ?_)
        fun hover => ⟨by decide, fun _ => ?_⟩
      · have h₂' : bal h s₂ env.author = bal h s₁ env.author +
            ((t.gas - (ex.gas + refund t ex)) * t.gasPrice).toNat := h₂
        have hothers₂' : SameBut (bal h s₁) (bal h s₂) env.author := hothers₂
        have hcredit₂ := total_credit h₂' hothers₂'
        have hend : ((ex.ext.map fun x => x.2.2.suicides).getD []).foldl h.state.kill s₂ = s₂ := by
          rw [hkill]
          rfl
        have hsettled : ∀ ex' : Executive S, ex'.gas = ex.gas + refund t ex → ex'.state = s₂ →
            Settled h env t s a f ex' := by
          rintro ex' hgas rfl
          constructor
          · exact hup
          · rw [hgas]
            exact hrefund
          · rw [hgas]
            omega
          · intro hq hab hac hbc
            obtain ⟨m, hm, h3, h4, h5⟩ := hran.moves.moved hq hab hac hbc
            rw [hgas, h₂', hothers₂' a hac, h₁', hothers₂' _ hbc, hothers₁' _ (Ne.symm hab),
              hothers₁' _ (Ne.symm hac), h4, h5]
            exact ⟨m, hm, by omega, rfl, rfl⟩
        exact runs_modify (hsettled _ rfl hend)
      · have hauthor := le_total (bal h s₁) env.author
        have hover' : 2 ^ 256 ≤ bal h s₁ env.author +
          ((t.gas - (ex.gas + refund t ex)) * t.gasPrice).toNat := hover
        omega
    · have hsender := le_total (bal h ex.state) a
      have hover' : 2 ^ 256 ≤ bal h ex.state a + ((ex.gas + refund t ex) * t.gasPrice).toNat := hover
      omega
  · exact absurd (by simp [hnull]) hn

/-- The transactions that are run and not paid for: message calls without a signature
before the fork, at a price. -/
def Unpaid (e : SealEngine) (env : EnvInfo) (t : Transaction) : Prop :=
  t.hasZeroSignature = true ∧ env.number < e.metropolisForkBlock ∧ t.gasPrice ≠ 0

theorem cost_of_not_unpaid (hzero : t.hasZeroSignature = true →
    e.metropolisForkBlock ≤ env.number → t.gasPrice = 0) (hpaid : ¬ Unpaid e env t) :
    cost t = t.gas.toNat * t.gasPrice.toNat := by
  unfold cost
  by_cases hz : t.hasZeroSignature = true
  · have hprice : t.gasPrice = 0 := by
      by_contra hne
      by_cases hfork : e.metropolisForkBlock ≤ env.number
      · exact hne (hzero hz hfork)
      · exact hpaid ⟨hz, BitVec.not_le.mp hfork, hne⟩
    rw [if_pos hz, hprice]
    rfl
  · rw [if_neg hz]

/-- A transaction is checked, run and settled. -/
theorem transact_spec (hh : h.Honest e env) {s : S} (hsum : total (bal h s) < 2 ^ 256) :
    Runs (transact h e env t) (start s)
      (fun _ ex => (t.hasZeroSignature = true → e.metropolisForkBlock ≤ env.number →
        t.gasPrice = 0) ∧ 0 < t.gas ∧ ∃ a f, Settled h env t s a f ex)
      fun err _ => err ≠ .unfinished ∧ (err = .wraps → Unpaid e env t) := by
  unfold transact
  refine runs_bind ((initialize_spec h e env t s).mono (fun _ ex hacc => ?_)
    fun err _ herr => ⟨herr.2, fun hw => absurd hw herr.1⟩)
  refine runs_bind ((execute_spec hh hsum hacc).mono (fun done ex' hexec => ?_)
    fun err _ herr => ⟨herr.2, fun hw => absurd hw herr.1⟩)
  obtain ⟨a, f, gas, hup, hlt, hran, -⟩ := hexec
  have hpos : 0 < t.gas := by
    rw [BitVec.lt_def]
    have hbase := hacc.base
    have hbase_pos := hacc.base_pos
    show 0 < t.gas.toNat
    omega
  have hnull : t.isNull = false := by
    by_contra hn
    have hgas := t.null_gas (by simpa [Transaction.isNull] using hn)
    rw [hgas] at hpos
    exact absurd hpos (by decide)
  have hdebit := total_debit hup.paid hup.others
  -- The gas that is paid for covers the fees.
  have hcovered : 2 ^ 256 ≤ total f + t.gas.toNat * t.gasPrice.toNat → Unpaid e env t := by
    intro hover
    by_contra hpaid
    rw [cost_of_not_unpaid hacc.zero hpaid] at hdebit
    omega
  have hend : ∀ ex'' : Executive S, Ran h env t f a (receiver h t s a) gas ex'' →
      Runs (finalize h env t) ex'' (fun _ ex => (t.hasZeroSignature = true →
        e.metropolisForkBlock ≤ env.number → t.gasPrice = 0) ∧ 0 < t.gas ∧
          ∃ a f, Settled h env t s a f ex)
        fun err _ => err ≠ .unfinished ∧ (err = .wraps → Unpaid e env t) := fun ex'' hran' =>
    (finalize_spec hh hup hnull hlt hran').mono (fun _ _ hs => ⟨hacc.zero, hpos, a, f, hs⟩)
      fun err _ herr => ⟨herr.1, fun hw => hcovered (herr.2 hw)⟩
  refine runs_bind (runs_ite (fun _ => runs_pure (hend ex' hran)) fun _ => ?_)
  exact (hran.go hh).mono (fun _ ex'' hran' => hend ex'' hran')
    fun err _ herr => ⟨herr.2, fun hw => absurd hw herr.1⟩

/-- What a run that comes to its end does to the balances: the sum is kept, and when the
accounts are different and the machine makes no transfers, the sender pays what has moved
and the gas that was used, and the author gets the price of that gas. No balance wraps. -/
def Conserved (h : Host S) (env : EnvInfo) (t : Transaction) (s : S) :
    EStateM.Result ExecutiveError (Executive S) Unit → Prop
  | .ok _ ex =>
    total (bal h ex.state) = total (bal h s) ∧
      ∀ a, t.senderOf h.sha3 h.recover = some a → Quiet h env → a ≠ receiver h t s a →
        a ≠ env.author → receiver h t s a ≠ env.author →
        ∃ m, (m = 0 ∨ m = t.value.toNat) ∧
          bal h ex.state (receiver h t s a) = bal h s (receiver h t s a) + m ∧
          bal h ex.state a + m + (t.gas.toNat - ex.gas.toNat) * t.gasPrice.toNat = bal h s a ∧
          bal h ex.state env.author =
            bal h s env.author + (t.gas.toNat - ex.gas.toNat) * t.gasPrice.toNat
  | .error err _ => err ≠ .wraps

theorem toNat_mul_of_lt {g p : Word} (hlt : g.toNat * p.toNat < 2 ^ 256) :
    (g * p).toNat = g.toNat * p.toNat := by
  rw [BitVec.toNat_mul, Nat.mod_eq_of_lt hlt]

/-- The two parts of a price that fits into a word. -/
theorem fees_eq {g p : Word} (hle : g ≤ t.gas) (hlt : t.gas.toNat * p.toNat < 2 ^ 256) :
    (g * p).toNat = g.toNat * p.toNat ∧
      ((t.gas - g) * p).toNat = (t.gas.toNat - g.toNat) * p.toNat ∧
      g.toNat * p.toNat + (t.gas.toNat - g.toNat) * p.toNat = t.gas.toNat * p.toNat := by
  have hle' := BitVec.le_def.mp hle
  have hsum : g.toNat * p.toNat + (t.gas.toNat - g.toNat) * p.toNat = t.gas.toNat * p.toNat := by
    rw [← Nat.add_mul, Nat.add_sub_cancel' hle']
  refine ⟨toNat_mul_of_lt (by omega), ?_, hsum⟩
  rw [toNat_mul_of_lt, BitVec.toNat_sub_of_le hle]
  rw [BitVec.toNat_sub_of_le hle]
  omega

theorem Settled.conserved {s : S} {a : Address} {f : Address → ℕ}
    (hs : Settled h env t s a f ex) (hcost : cost t = t.gas.toNat * t.gasPrice.toNat) :
    Conserved h env t s (.ok () ex) := by
  have hpaid := hs.paidUp.paid
  have hbal := (h.state.balance s a).isLt
  have hdebit := total_debit hpaid hs.paidUp.others
  rw [hcost] at hpaid hdebit
  have hlt : t.gas.toNat * t.gasPrice.toNat < 2 ^ 256 := by
    have hsender : bal h s a < 2 ^ 256 := hbal
    omega
  obtain ⟨hx, hy, hsum⟩ := fees_eq hs.gas hlt
  constructor
  · rw [hs.total, hx, hy]
    omega
  · intro a' ha' hq hab hac hbc
    obtain rfl : a = a' := Option.some.inj (hs.paidUp.sender.symm.trans ha')
    obtain ⟨m, hm, h1, h2, h3⟩ := hs.moved hq hab hac hbc
    rw [hx] at h1
    rw [hs.paidUp.others _ (Ne.symm hab)] at h2
    rw [hs.paidUp.others _ (Ne.symm hac), hy] at h3
    exact ⟨m, hm, h2, by omega, h3⟩

/-- The balances of an execution add up exactly when its gas is paid for. -/
theorem transact_conserved (h : Host S) (e : SealEngine) (env : EnvInfo) (t : Transaction) (s : S)
    (hh : h.Honest e env) (hsum : total (bal h s) < 2 ^ 256) :
    (¬ Unpaid e env t → Conserved h env t s (transact h e env t (start s))) ∧
      (Unpaid e env t → t.gas.toNat * t.gasPrice.toNat < 2 ^ 256 → ∀ ex,
        transact h e env t (start s) = .ok () ex → ¬ Conserved h env t s (.ok () ex)) := by
  have hspec := transact_spec (t := t) hh hsum
  constructor
  · intro hpaid
    cases hrun : transact h e env t (start s) with
    | ok u ex =>
      obtain ⟨hzero, -, a, f, hs⟩ := hspec.ok hrun
      exact hs.conserved (cost_of_not_unpaid hzero hpaid)
    | error err ex => exact fun hw => hpaid ((hspec.error hrun).2 hw)
  · rintro ⟨hz, -, hprice⟩ hlt ex hrun ⟨htotal, -⟩
    obtain ⟨-, hpos, a, f, hs⟩ := hspec.ok hrun
    have hdebit := total_debit hs.paidUp.paid hs.paidUp.others
    rw [cost, if_pos hz] at hdebit
    obtain ⟨hx, hy, hfees⟩ := fees_eq hs.gas hlt
    have hfree : 0 < t.gas.toNat * t.gasPrice.toNat := by
      refine Nat.mul_pos (BitVec.lt_def.mp hpos) (Nat.pos_of_ne_zero fun h0 => hprice ?_)
      exact BitVec.eq_of_toNat_eq h0
    rw [hs.total, hx, hy] at htotal
    omega

end Transaction

section Plain

def plainAdd (s : Address → Word) (a : Address) (v : Word) : Address → Word :=
  fun b => if b = a then s a + v else s b

def plainSub (s : Address → Word) (a : Address) (v : Word) : Option (Address → Word) :=
  if s a < v then none else some fun b => if b = a then s a - v else s b

/-- Accounts with balances only. -/
def plainState : StateFace (Address → Word) where
  balance := fun s a => s a
  getNonce := fun _ _ => 0
  addressHasCode := fun _ _ => false
  code := fun _ _ => []
  addBalance := plainAdd
  subBalance := plainSub
  transferBalance := fun s a b v => (plainSub s a v).map fun s' => plainAdd s' b v
  incNonce := fun s _ => s
  setNewCode := fun s _ _ => s
  kill := fun s _ => s
  rollback := fun _ saved => saved

theorem plainState_lawful : plainState.Lawful := by
  constructor
  · intro s a v b
    rfl
  · intro s a v
    simp [plainState, plainSub]
  · intro s a v s' hs b
    simp only [plainState, plainSub, Option.ite_none_left_eq_some, Option.some.injEq] at hs
    rw [← hs.2]
    rfl
  · intro s a v s' _ b
    rfl
  · intro s a b v
    rfl
  · intro s a b
    rfl
  · intro s a c b
    rfl
  · intro now saved b
    rfl

/-- A world in which there is nothing to run. -/
def plainFace (e : SealEngine) (env : EnvInfo) :
    ExtVMFace ((Address → Word) × SubState) where
  evmSchedule := e.evmSchedule env.number
  myAddress := 0
  caller := 0
  origin := 0
  value := 0
  gasPrice := 0
  data := []
  code := []
  depth := 0
  author := env.author
  timestamp := 0
  number := env.number
  difficulty := 0
  gasLimit := env.gasLimit
  balance := fun w a => w.1 a
  existsAccount := fun _ _ => true
  codeAt := fun _ _ => []
  codeSizeAt := fun _ _ => 0
  blockHash := fun _ _ => 0
  store := fun _ _ => 0
  setStore := fun w _ _ => w
  suicide := fun w _ => w
  log := fun w _ _ => w
  addRefunds := fun w _ => w
  create := fun w _ gas _ => (0, gas, w)
  call := fun w params => (true, [], params.gas, w)
  size_data := length_nil_lt
  size_code := length_nil_lt
  size_codeAt := fun _ _ => by norm_num

/-- The code of such a world is the byte of `STOP` over and over. -/
theorem plainFace_step (e : SealEngine) (env : EnvInfo) (sha3 : Bytes → H256) (stray : UInt32)
    (gas : Word) (w : (Address → Word) × SubState) :
    Runs (VM.step sha3 (plainFace e env) stray) (VM.initEntry (plainFace e env) gas w)
      (fun goes t => goes = false ∧ t.ext = w) fun _ _ => True := by
  unfold VM.step VM.fetchInstruction VM.adjustStack
  refine runs_bind (runs_bind (runs_get (runs_bind ?_)))
  have hcode : 0 < (VM.optimize []).1.length := by decide
  refine VM.runs_codeByte hcode fun b hb => ?_
  obtain rfl : 0 = b := Option.some.inj hb
  refine runs_bind (runs_bind (runs_modify (runs_bind (runs_get (runs_set ?_)))))
  refine runs_bind (VM.runs_toInt63 (fun _ => ?_) trivial)
  refine runs_bind (runs_modify (runs_pure (runs_bind ?_)))
  exact runs_bind (VM.runs_updateIOGas (fun _ => runs_pure (runs_pure ⟨rfl, rfl⟩)) trivial)

theorem plainFace_exec {e : SealEngine} {env : EnvInfo} {sha3 : Bytes → H256} {stray : UInt32}
    {fuel : ℕ} {gas : Word} {w : (Address → Word) × SubState}
    {vm : VM ((Address → Word) × SubState)}
    (hrun : VM.exec sha3 (plainFace e env) stray fuel gas w = some (.ok () vm)) : vm.ext = w := by
  cases fuel with
  | zero => cases hrun
  | succ fuel =>
    have hstep := plainFace_step e env sha3 stray gas w
    rw [VM.exec, runFor] at hrun
    cases hr : VM.step sha3 (plainFace e env) stray (VM.initEntry (plainFace e env) gas w) with
    | ok b t =>
      obtain ⟨rfl, ht⟩ := hstep.ok hr
      rw [hr] at hrun
      cases hrun
      exact ht
    | error x t =>
      rw [hr] at hrun
      cases hrun

/-- Nothing is run, and the sender of a signed transaction is account 2. -/
def plainHost (e : SealEngine) : Host (Address → Word) where
  state := plainState
  sha3 := fun _ => .ofNat 0
  recover := fun _ _ => some 2
  extVM := fun env _ => plainFace e env
  codeHash := fun _ _ => .ofNat 0
  stray := 0

theorem plainHost_honest (e : SealEngine) (env : EnvInfo) : (plainHost e).Honest e env := by
  constructor
  · exact plainState_lawful
  · intro p
    rfl
  · intro p ext endowment gas init
    exact BitVec.le_refl gas
  · intro p ext params
    exact BitVec.le_refl params.gas
  · intro p fuel gas w vm hrun
    rw [plainFace_exec hrun]
  · intro p fuel gas w vm hrun hw
    rw [plainFace_exec hrun]
    exact hw

/-- The later forks are far away, and nothing is precompiled. -/
def lateForks : SealEngine where
  metropolisForkBlock := 100
  EIP158ForkBlock := 100
  EIP150ForkBlock := 100
  homsteadForkBlock := 0
  precompiledFrom := fun _ => none
  precompiledCost := fun _ _ => 0
  precompiledExecute := fun _ _ => (true, [])

def earlyBlock : EnvInfo where
  number := 1
  author := 3
  gasLimit := 1000000
  gasUsed := 0

/-- A transfer to account 7 at the price 1. -/
def transfer (vrs : SignatureStruct) (value : Word) : Transaction where
  type := .MessageCall
  nonce := 0
  value := value
  receiveAddress := 7
  gasPrice := 1
  gas := 21000
  data := []
  vrs := vrs
  chainId := 0
  sender := 0
  null_gas := Transaction.null_gas_call

/-- Account 2 owns a million. -/
def millionaire : Address → Word := fun a => if a = 2 then 1000000 else 0

theorem millionaire_total : total (bal (plainHost lateForks) millionaire) = 1000000 := by
  have hzero : total (fun _ : Address => 0) = 0 := Finset.sum_const_zero
  have hcredit : total (bal (plainHost lateForks) millionaire) =
      total (fun _ : Address => 0) + 1000000 :=
    total_credit (a := 2) rfl fun b hb => by
      show (if b = 2 then (1000000 : Word) else 0).toNat = 0
      rw [if_neg hb]
      rfl
  rw [hcredit, hzero]

theorem transact_conserved_transfer :
    Conserved (plainHost lateForks) earlyBlock (transfer ⟨1, 1, 0⟩ 5) millionaire
      (transact (plainHost lateForks) lateForks earlyBlock (transfer ⟨1, 1, 0⟩ 5)
        (start millionaire)) := by
  refine (transact_conserved _ _ _ _ _ (plainHost_honest lateForks earlyBlock) ?_).1 fun hunpaid => ?_
  · rw [millionaire_total]
    norm_num
  · exact absurd hunpaid.1 (by decide)

/-- The author of the block is paid for gas that nobody bought. -/
theorem transact_free : ∃ ex, transact (plainHost lateForks) lateForks earlyBlock
    (transfer ⟨0, 0, 0⟩ 0) (start fun _ => 0) = .ok () ex ∧
      bal (plainHost lateForks) ex.state 3 = 21000 := ⟨_, rfl, rfl⟩

theorem transact_unpaid : ¬ Conserved (plainHost lateForks) earlyBlock (transfer ⟨0, 0, 0⟩ 0)
    (fun _ => 0) (transact (plainHost lateForks) lateForks earlyBlock (transfer ⟨0, 0, 0⟩ 0)
      (start fun _ => 0)) := by
  obtain ⟨ex, hrun, hauthor⟩ := transact_free
  rw [hrun]
  rintro ⟨htotal, -⟩
  have hle := le_total (bal (plainHost lateForks) ex.state) 3
  have hzero : total (bal (plainHost lateForks) fun _ => 0) = 0 := Finset.sum_const_zero
  omega

end Plain

end Executive
end XChain
