import XChain.GuardedRuns
import XChain.TransactionRlp

/-!
# What a transaction remembers

A transaction remembers its hash with the signature and its sender. Neither a new nonce nor
a new signature makes it forget them, so the answers are right as long as what is remembered
stays right: nothing is remembered, or the change does not touch it.
-/
namespace XChain

/-- A transaction with the hash that it remembers, or zero. -/
structure TransactionBase where
  tx : Transaction
  hashWith : H256

namespace TransactionBase

/-- The hashes, the recovery of the sender from a signature and the making of one. -/
structure Crypto (Secret : Type) where
  sha3 : Bytes → H256
  recover : SignatureStruct → H256 → Option Address
  sign : Secret → H256 → SignatureStruct
  toAddress : Secret → Address

inductive Op (Secret : Type) where
  | construct (rlp : Bytes) (checkSig : CheckTransaction)
  | setNonce (n : Word)
  | clearSignature
  | sign (priv : Secret)
  | sha3 (withSignature : Bool)
  | sender
  | safeSender

variable {Secret : Type} (C : Crypto Secret) (t : TransactionBase)

/-- The constructor from bytes. Nothing is constructed where it throws. -/
def construct (rlp : Bytes) (checkSig : CheckTransaction) : TransactionBase :=
  match Transaction.ofBytes C.sha3 C.recover checkSig rlp with
  | .ok tx => ⟨tx, .ofNat 0⟩
  | .error _ => t

def clearSignature : TransactionBase := { t with tx := { t.tx with vrs := ⟨0, 0, 0⟩ } }

def setNonce (n : Word) : TransactionBase :=
  { t.clearSignature with tx := { t.clearSignature.tx with nonce := n } }

/-- The signature is kept only when it is valid. -/
def sign (priv : Secret) : TransactionBase :=
  let sig := C.sign priv (t.tx.sha3WithoutSignature C.sha3)
  if sig.isValid then { t with tx := { t.tx with vrs := sig } } else t

/-- The hash with or without the signature; the first one is remembered. -/
def sha3 (withSignature : Bool) : H256 × TransactionBase :=
  if withSignature then
    let ret := if t.hashWith = .ofNat 0 then C.sha3 (t.tx.rlp true false) else t.hashWith
    (ret, { t with hashWith := ret })
  else (t.tx.sha3WithoutSignature C.sha3, t)

/-- The sender, which is remembered; nothing for an invalid signature. -/
def sender : Option Address × TransactionBase :=
  match t.tx.senderOf C.sha3 C.recover with
  | some a => (some a, { t with tx := { t.tx with sender := a } })
  | none => (none, t)

/-- The sender, and the zero address for an invalid signature. -/
def safeSender : Address × TransactionBase := ((t.sender C).1.getD 0, (t.sender C).2)

def step : Op Secret → TransactionBase
  | .construct rlp checkSig => t.construct C rlp checkSig
  | .setNonce n => t.setNonce n
  | .clearSignature => t.clearSignature
  | .sign priv => t.sign C priv
  | .sha3 withSignature => (t.sha3 C withSignature).2
  | .sender => (t.sender C).2
  | .safeSender => (t.safeSender C).2

/-- The same fields and signature, with nothing remembered. -/
def fresh : TransactionBase := ⟨{ t.tx with sender := 0 }, .ofNat 0⟩

/-- A transaction answers what it would answer if it remembered nothing. -/
structure Answers : Prop where
  withSignature : (t.sha3 C true).1 = (t.fresh.sha3 C true).1
  withoutSignature : (t.sha3 C false).1 = (t.fresh.sha3 C false).1
  sender : (t.sender C).1 = (t.fresh.sender C).1
  safeSender : (t.safeSender C).1 = (t.fresh.safeSender C).1

/-- The signature is made while no hash is remembered, and by the remembered sender. -/
def SignsAlike (priv : Secret) : Prop :=
  let sig := C.sign priv (t.tx.sha3WithoutSignature C.sha3)
  sig.isValid = true →
    (t.hashWith = .ofNat 0 ∨ t.tx.vrs = sig) ∧ (t.tx.sender = 0 ∨ t.tx.sender = C.toAddress priv)

/-- What is remembered is not touched by the change. -/
def guard : Op Secret → Prop
  | .setNonce n => (t.hashWith = .ofNat 0 ∨ t.tx.vrs = ⟨0, 0, 0⟩ ∧ t.tx.nonce = n) ∧
      (t.tx.sender = 0 ∨ t.tx.hasZeroSignature = true)
  | .clearSignature => (t.hashWith = .ofNat 0 ∨ t.tx.vrs = ⟨0, 0, 0⟩) ∧
      (t.tx.sender = 0 ∨ t.tx.hasZeroSignature = true)
  | .sign priv => SignsAlike C t priv
  | _ => True

/-- What is remembered is what would be computed. -/
structure Coherent : Prop where
  hashWith : t.hashWith ≠ .ofNat 0 → t.hashWith = C.sha3 (t.tx.rlp true false)
  sender : t.tx.sender ≠ 0 → t.fresh.tx.senderOf C.sha3 C.recover = some t.tx.sender

variable {C t}

theorem senderOf_fresh : t.fresh.tx.senderOf C.sha3 C.recover =
    if t.tx.hasZeroSignature then some MaxAddress
    else C.recover t.tx.vrs (t.tx.sha3WithoutSignature C.sha3) := by
  rw [Transaction.senderOf, if_neg (not_not.mpr (show t.fresh.tx.sender = 0 from rfl))]
  rfl

theorem Coherent.senderOf (h : Coherent C t) :
    t.tx.senderOf C.sha3 C.recover = t.fresh.tx.senderOf C.sha3 C.recover := by
  by_cases hs : t.tx.sender = 0
  · have hfresh : t.fresh.tx = t.tx := by
      show { t.tx with sender := 0 } = t.tx
      rw [← hs]
    rw [hfresh]
  · rw [h.sender hs, Transaction.senderOf, if_pos hs]

theorem Coherent.answers (h : Coherent C t) : Answers C t := by
  have hsender : (t.sender C).1 = (t.fresh.sender C).1 := by
    unfold TransactionBase.sender
    rw [h.senderOf]
    cases t.fresh.tx.senderOf C.sha3 C.recover <;> rfl
  refine ⟨?_, rfl, hsender, congrArg (Option.getD · 0) hsender⟩
  show (if t.hashWith = .ofNat 0 then _ else t.hashWith) = C.sha3 (t.tx.rlp true false)
  split_ifs with hzero
  · rfl
  · exact h.hashWith hzero

theorem coherent_of_forgotten (hhash : t.hashWith = .ofNat 0) (hsender : t.tx.sender = 0) :
    Coherent C t :=
  ⟨fun hne => absurd hhash hne, fun hne => absurd hsender hne⟩

/-- A transaction that was read remembers at most its sender. -/
theorem coherent_construct {rlp : Bytes} {checkSig : CheckTransaction} {tx : Transaction}
    (h : Transaction.ofBytes C.sha3 C.recover checkSig rlp = .ok tx) :
    Coherent C ⟨tx, .ofNat 0⟩ := by
  obtain ⟨recipient, v, -, hparsed⟩ := Transaction.ofBytes_ok.mp h
  have hsender := hparsed.checked.2
  split_ifs at hsender with hcheck
  · exact ⟨fun hne => absurd rfl hne, fun _ => hsender⟩
  · exact coherent_of_forgotten rfl hsender

theorem fresh_clearSignature : t.clearSignature.fresh.tx.senderOf C.sha3 C.recover =
    some MaxAddress := by
  rw [senderOf_fresh]
  rfl

theorem fresh_zeroSignature (h : t.tx.hasZeroSignature = true) :
    t.fresh.tx.senderOf C.sha3 C.recover = some MaxAddress := by
  rw [senderOf_fresh, if_pos h]

/-- Without a signature the sender is the largest address, before and after. -/
theorem sender_clear (h : Coherent C t)
    (hg : t.tx.sender = 0 ∨ t.tx.hasZeroSignature = true) (hne : t.tx.sender ≠ 0) :
    t.tx.sender = MaxAddress := by
  have hsender := h.sender hne
  rw [fresh_zeroSignature (hg.resolve_left hne)] at hsender
  exact (Option.some.inj hsender).symm

theorem coherent_clearSignature (h : Coherent C t) (hg : guard C t .clearSignature) :
    Coherent C t.clearSignature := by
  refine ⟨fun hne => ?_, fun hne => ?_⟩
  · have hsame : t.clearSignature = t := by
      unfold TransactionBase.clearSignature
      rw [← hg.1.resolve_left hne]
    rw [hsame]
    exact h.hashWith hne
  · rw [fresh_clearSignature]
    exact congrArg some (sender_clear h hg.2 hne).symm

theorem coherent_setNonce {n : Word} (h : Coherent C t) (hg : guard C t (.setNonce n)) :
    Coherent C (t.setNonce n) := by
  refine ⟨fun hne => ?_, fun hne => ?_⟩
  · obtain ⟨hvrs, hnonce⟩ := hg.1.resolve_left hne
    have hsame : t.setNonce n = t := by
      unfold TransactionBase.setNonce TransactionBase.clearSignature
      rw [← hvrs, ← hnonce]
    rw [hsame]
    exact h.hashWith hne
  · rw [senderOf_fresh]
    exact congrArg some (sender_clear h hg.2 hne).symm

theorem SignatureStruct.not_zero {g : SignatureStruct} (h : g.isValid = true) :
    ¬ (g.s = 0 ∧ g.r = 0) := by
  rintro ⟨-, hr⟩
  simp [SignatureStruct.isValid, hr] at h

theorem sign_of_valid {priv : Secret}
    (h : (C.sign priv (t.tx.sha3WithoutSignature C.sha3)).isValid = true) : t.sign C priv =
      { t with tx := { t.tx with vrs := C.sign priv (t.tx.sha3WithoutSignature C.sha3) } } :=
  if_pos h

theorem coherent_sign {priv : Secret} (h : Coherent C t) (hg : guard C t (.sign priv))
    (hsign : ∀ k x, (C.sign k x).isValid = true → C.recover (C.sign k x) x = some (C.toAddress k)) :
    Coherent C (t.sign C priv) := by
  by_cases hvalid : (C.sign priv (t.tx.sha3WithoutSignature C.sha3)).isValid = true
  · obtain ⟨hhash, hsender⟩ := hg hvalid
    rw [sign_of_valid hvalid]
    refine ⟨fun hne => ?_, fun hne => ?_⟩
    · have hrlp := h.hashWith hne
      have hvrs := hhash.resolve_left hne
      show t.hashWith = C.sha3 (Transaction.rlp { t.tx with vrs := _ } true false)
      rw [← hvrs]
      exact hrlp
    · have hzero : ¬ Transaction.hasZeroSignature
          { t.tx with vrs := C.sign priv (t.tx.sha3WithoutSignature C.sha3) } = true := by
        simpa only [Transaction.hasZeroSignature, decide_eq_true_eq] using
          SignatureStruct.not_zero hvalid
      rw [senderOf_fresh, if_neg hzero]
      exact (hsign priv _ hvalid).trans (congrArg some (hsender.resolve_left hne).symm)
  · have hsame : t.sign C priv = t := if_neg hvalid
    rw [hsame]
    exact h

theorem coherent_sha3 (h : Coherent C t) (withSignature : Bool) :
    Coherent C (t.sha3 C withSignature).2 := by
  cases withSignature with
  | false => exact h
  | true =>
    refine ⟨fun _ => ?_, h.sender⟩
    exact h.answers.withSignature

theorem coherent_sender (h : Coherent C t) : Coherent C (t.sender C).2 := by
  unfold TransactionBase.sender
  cases hs : t.tx.senderOf C.sha3 C.recover with
  | none => exact h
  | some a => exact ⟨h.hashWith, fun _ => h.senderOf.symm.trans hs⟩

theorem coherent_step (hsign : ∀ k x, (C.sign k x).isValid = true →
      C.recover (C.sign k x) x = some (C.toAddress k))
    (t : TransactionBase) (op : Op Secret) (h : Coherent C t) (hg : guard C t op) :
    Coherent C (t.step C op) := by
  cases op with
  | construct rlp checkSig =>
    show Coherent C (t.construct C rlp checkSig)
    unfold TransactionBase.construct
    split
    · next tx hread => exact coherent_construct hread
    · exact h
  | setNonce n => exact coherent_setNonce h hg
  | clearSignature => exact coherent_clearSignature h hg
  | sign priv => exact coherent_sign h hg hsign
  | sha3 withSignature => exact coherent_sha3 h withSignature
  | sender => exact coherent_sender h
  | safeSender => exact coherent_sender h

/-- In a run from a transaction that was read, in which no change touches what is
remembered, every answer is the one of a fresh transaction. -/
theorem cache_coherent (C : Crypto Secret) (hsign : ∀ k x, (C.sign k x).isValid = true →
      C.recover (C.sign k x) x = some (C.toAddress k))
    (rlp : Bytes) (checkSig : CheckTransaction) (tx : Transaction)
    (hread : Transaction.ofBytes C.sha3 C.recover checkSig rlp = .ok tx) (ops : List (Op Secret))
    (h : Guarded (step C) (guard C) ⟨tx, .ofNat 0⟩ ops) :
    Answers C (runFrom (step C) ⟨tx, .ofNat 0⟩ ops) :=
  (h.invariant (coherent_step hsign) (coherent_construct hread)).answers

/-- The bytes themselves in place of a hash, and account 2 signs everything. -/
def plain : Crypto Unit where
  sha3 := fun b => .ofNat (Rlp.ofBigEndian b)
  recover := fun _ _ => some 2
  sign := fun _ _ => ⟨1, 1, 0⟩
  toAddress := fun _ => 2

/-- A creation of nothing with a signature of the first kind. -/
def creationRlp : Bytes := [0xc9, 0x80, 0x80, 0x80, 0x80, 0x80, 0x80, 0x1b, 0x01, 0x01]

def creation : Transaction where
  type := .ContractCreation
  nonce := 0
  value := 0
  receiveAddress := 0
  gasPrice := 0
  gas := 0
  data := []
  vrs := ⟨1, 1, 0⟩
  chainId := -4
  sender := 2
  null_gas := by decide

theorem creation_read : Transaction.ofBytes plain.sha3 plain.recover .Everything creationRlp =
    .ok creation := rfl

/-- The hash is asked for and the transaction is signed again. -/
def signedAgain : List (Op Unit) := [.sign (), .sha3 true, .sender, .sign ()]

theorem cache_coherent_creation :
    Answers plain (runFrom (step plain) ⟨creation, .ofNat 0⟩ signedAgain) :=
  cache_coherent plain (fun _ _ _ => rfl) creationRlp .Everything creation creation_read
    signedAgain ⟨fun _ => ⟨Or.inl rfl, Or.inr rfl⟩, trivial, trivial,
      fun _ => ⟨Or.inr rfl, Or.inr rfl⟩, trivial⟩

/-- The hash stays when the nonce is set, and so does the sender when the signature goes. -/
theorem cache_stale :
    Transaction.ofBytes plain.sha3 plain.recover .Everything creationRlp = .ok creation ∧
      ¬ Answers plain (runFrom (step plain) ⟨creation, .ofNat 0⟩ [.sha3 true, .setNonce 1]) ∧
      ¬ Answers plain (runFrom (step plain) ⟨creation, .ofNat 0⟩ [.clearSignature]) := by
  refine ⟨rfl, ?_, ?_⟩
  · intro h
    exact absurd h.withSignature (by decide +kernel)
  · intro h
    exact absurd h.sender (by decide +kernel)

end TransactionBase
end XChain
