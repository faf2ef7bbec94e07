import XChain.RlpFields
import XChain.Transaction

/-!
# Reading a transaction

The constructor that takes a transaction apart. What it accepts is described by
`Parsed`: nine items, seven of which are the transaction's own fields. The encoder
writes the same nine items back, except where a recipient was an empty list and where
there is no signature, so that the sum with the chain is not undone.
-/
namespace XChain

open Rlp

inductive CheckTransaction where
  | None
  | Cheap
  | Everything
  deriving DecidableEq

inductive TransactionError where
  | BadRLP
  | BadCast
  | InvalidTransactionFormat (comment : String)
  | InvalidSignature

/-- The order of the curve. -/
def secp256k1n : Word := 0xfffffffffffffffffffffffffffffffebaaedce6af48a03bbfd25e8cd0364141

def SignatureStruct.isValid (g : SignatureStruct) : Bool :=
  g.v ≤ 1 ∧ 0 < g.r ∧ 0 < g.s ∧ g.r < secp256k1n ∧ g.s < secp256k1n

namespace Transaction

/-- What a failed conversion throws. -/
def cast {α : Type} : Option α → Except TransactionError α
  | some a => .ok a
  | none => .error .BadCast

/-- The recovery id and the chain that a `v` stands for. -/
def splitV (v : UInt8) : Except TransactionError (UInt8 × ℤ) :=
  if 36 < v.toNat then
    let chainId : ℤ := (v.toNat - 35) / 2
    .ok (UInt8.ofNat ((v.toNat - (chainId * 2 + 35)) % 256).toNat, chainId)
  else if v = 27 ∨ v = 28 then .ok (UInt8.ofNat ((v.toNat - (-4 * 2 + 35) : ℤ) % 256).toNat, -4)
  else .error .InvalidSignature

variable (sha3 : Bytes → H256) (recover : SignatureStruct → H256 → Option Address)

/-- The fields of a transaction, before the sender is found. -/
def ofFields (nonce gasPrice gas : Word) (recipient : Item) (receiveAddress : Address) (value : Word)
    (data : Bytes) (vrs : SignatureStruct) (chainId : ℤ) : Transaction where
  type := if isEmpty recipient then .ContractCreation else .MessageCall
  nonce := nonce
  value := value
  receiveAddress := receiveAddress
  gasPrice := gasPrice
  gas := gas
  data := data
  vrs := vrs
  chainId := chainId
  sender := 0
  null_gas := fun h => absurd h (by split <;> decide)

/-- The transaction in an item. -/
def ofItem (check : CheckTransaction) (x : Item) : Except TransactionError Transaction := do
  (if isList x then pure ()
  else throw (.InvalidTransactionFormat "transaction RLP must be a list"))
  let nonce ← cast ((get? x 0).bind (toUint 256))
  let gasPrice ← cast ((get? x 1).bind (toUint 256))
  let gas ← cast ((get? x 2).bind (toUint 256))
  let recipient ← cast (get? x 3)
  let receiveAddress ← (if isEmpty recipient then pure 0 else cast (toFixed 160 recipient))
  let value ← cast ((get? x 4).bind (toUint 256))
  let data ← (match get? x 5 with
    | some (.data data) => pure data
    | _ => throw (.InvalidTransactionFormat "transaction data RLP must be an array"))
  let v ← cast ((get? x 6).bind (toUint 8))
  let r ← cast ((get? x 7).bind (toUint 256))
  let s ← cast ((get? x 8).bind (toUint 256))
  let (v', chainId) ← (if s = 0 ∧ r = 0 then pure (UInt8.ofBitVec v, (v.toNat : ℤ))
    else splitV (.ofBitVec v))
  let vrs : SignatureStruct := ⟨r, s, v'⟩
  (if (s = 0 ∧ r = 0) ∨ check = .None ∨ vrs.isValid then pure () else throw .InvalidSignature)
  let t := ofFields nonce gasPrice gas recipient receiveAddress value data vrs chainId
  let sender ← (if check = .Everything then
      (match t.senderOf sha3 recover with
      | some a => pure a
      | none => throw .InvalidSignature)
    else pure 0)
  (if 9 < itemCount x then
    throw (.InvalidTransactionFormat "to many fields in the transaction RLP")
  else pure ())
  pure { t with sender := sender }

/-- The constructor from bytes. -/
def ofBytes (check : CheckTransaction) (b : Bytes) : Except TransactionError Transaction :=
  match decodeStrict b with
  | some x => ofItem sha3 recover check x
  | none => .error .BadRLP

section Accepted

variable {sha3 recover} {check : CheckTransaction} {x : Item} {t : Transaction}

/-- What is checked of a signature, and what is known of the sender afterwards. -/
def Checked (sha3 : Bytes → H256) (recover : SignatureStruct → H256 → Option Address)
    (check : CheckTransaction) (t : Transaction) : Prop :=
  (t.hasZeroSignature ∨ check = .None ∨ t.vrs.isValid) ∧
    if check = .Everything then
      senderOf { t with sender := 0 } sha3 recover = some t.sender
    else t.sender = 0

/-- The nine items that are accepted as a transaction. -/
structure Parsed (sha3 : Bytes → H256) (recover : SignatureStruct → H256 → Option Address)
    (check : CheckTransaction) (recipient : Item) (v : UInt8) (t : Transaction) : Prop where
  recipient : if isEmpty recipient then t.type = .ContractCreation ∧ t.receiveAddress = 0
    else t.type = .MessageCall ∧ recipient = .data (addressBytes t.receiveAddress)
  split : if t.hasZeroSignature then t.vrs.v = v ∧ t.chainId = v.toNat
    else splitV v = .ok (t.vrs.v, t.chainId)
  checked : Checked sha3 recover check t

/-- The items of a transaction with the given recipient and `v`. -/
def items (t : Transaction) (recipient : Item) (v : UInt8) : Item :=
  .list [ofNat t.nonce.toNat, ofNat t.gasPrice.toNat, ofNat t.gas.toNat, recipient,
    ofNat t.value.toNat, .data t.data, ofNat v.toNat, ofNat t.vrs.r.toNat, ofNat t.vrs.s.toNat]

theorem cast_eq_ok {α : Type} {o : Option α} {a : α} : cast o = .ok a ↔ o = some a := by
  cases o <;> simp [cast]

theorem addressBytes_eq (a : Address) : addressBytes a = fixedBytes 20 a.toNat := rfl

theorem get?_toUint {bits i : ℕ} {w : BitVec bits} (h : (get? x i).bind (toUint bits) = some w) :
    get? x i = some (ofNat w.toNat) := by
  obtain ⟨y, hy, hw⟩ := Option.bind_eq_some_iff.mp h
  rw [hy, eq_ofNat_of_toUint hw]
  rfl

/-- A list of at most nine items with nine places filled. -/
theorem eq_nine {a₀ a₁ a₂ a₃ a₄ a₅ a₆ a₇ a₈ : Item} (hcount : itemCount x ≤ 9)
    (h₀ : get? x 0 = some a₀) (h₁ : get? x 1 = some a₁) (h₂ : get? x 2 = some a₂)
    (h₃ : get? x 3 = some a₃) (h₄ : get? x 4 = some a₄) (h₅ : get? x 5 = some a₅)
    (h₆ : get? x 6 = some a₆) (h₇ : get? x 7 = some a₇) (h₈ : get? x 8 = some a₈) :
    x = .list [a₀, a₁, a₂, a₃, a₄, a₅, a₆, a₇, a₈] := by
  cases x with
  | data b => cases h₀
  | list l =>
    simp only [get?, itemCount] at *
    match l, hcount with
    | [_, _, _, _, _, _, _, _, _], _ => simp_all

theorem ofItem_ok : ofItem sha3 recover check x = .ok t ↔
    ∃ recipient v, x = items t recipient v ∧ Parsed sha3 recover check recipient v t := by
  constructor
  · intro h
    simp only [ofItem, bind_eq_ok, cast_eq_ok, check_eq_ok, refuse_eq_ok] at h
    obtain ⟨-, hlist, nonce, h0, gasPrice, h1, gas, h2, recipient, h3, address, haddress, value,
      h4, data, hdata, v, h6, r, h7, s, h8, split, hsplit, -, hvalid, sender, hsender, -, hcount,
      ht⟩ := h
    have h5 : get? x 5 = some (.data data) := by
      split at hdata
      · next d hd => exact hd.trans (congrArg (some ∘ Item.data) (Except.ok.inj hdata))
      · cases hdata
    obtain rfl := Except.ok.inj ht
    refine ⟨recipient, .ofBitVec v, ?_, ?_, ?_, ?_⟩
    · exact eq_nine (not_lt.mp hcount) (get?_toUint h0) (get?_toUint h1) (get?_toUint h2) h3
        (get?_toUint h4) h5 (get?_toUint h6) (get?_toUint h7) (get?_toUint h8)
    · unfold ofFields
      show if isEmpty recipient then (if isEmpty recipient then TransactionType.ContractCreation
        else .MessageCall) = .ContractCreation ∧ address = 0 else _ ∧ _
      by_cases hempty : isEmpty recipient
      · rw [if_pos hempty] at haddress ⊢
        exact ⟨if_pos hempty, (Except.ok.inj haddress).symm⟩
      · rw [if_neg hempty, cast_eq_ok] at haddress
        rw [if_neg hempty]
        exact ⟨if_neg hempty, @eq_fixedBytes_of_toFixed 20 recipient address haddress⟩
    · show if decide (s = 0 ∧ r = 0) = true then
          split.1 = .ofBitVec v ∧ split.2 = ((UInt8.ofBitVec v).toNat : ℤ)
        else splitV (.ofBitVec v) = .ok (split.1, split.2)
      simp only [decide_eq_true_eq]
      split_ifs at hsplit ⊢ with hzero
      · rw [← Except.ok.inj hsplit]
        exact ⟨rfl, rfl⟩
      · exact hsplit
    · refine ⟨?_, ?_⟩
      · show decide (s = 0 ∧ r = 0) = true ∨ _
        rw [decide_eq_true_eq]
        exact hvalid
      · show if check = .Everything then (ofFields nonce gasPrice gas recipient address value data
          ⟨r, s, split.1⟩ split.2).senderOf sha3 recover = some sender else sender = 0
        split_ifs at hsender ⊢ with hcheck
        · split at hsender
          · next a ha => rw [ha, ← Except.ok.inj hsender]
          · cases hsender
        · exact (Except.ok.inj hsender).symm
  · rintro ⟨recipient, v, rfl, hrecipient, hsplit, hvalid, hsender⟩
    have hword : ∀ w : Word, toUint 256 (ofNat w.toNat) = some w := toUint_ofNat (by norm_num)
    have hfields : ofFields t.nonce t.gasPrice t.gas recipient t.receiveAddress t.value t.data
        ⟨t.vrs.r, t.vrs.s, t.vrs.v⟩ t.chainId = { t with sender := 0 } := by
      have htype : (if isEmpty recipient then TransactionType.ContractCreation else .MessageCall) =
          t.type := by
        split_ifs at hrecipient ⊢ with hempty
        · exact hrecipient.1.symm
        · exact hrecipient.1.symm
      simp only [ofFields, htype]
    have hbyte : toUint 8 (ofNat v.toNat) = some v.toBitVec := toUint_ofNat (by norm_num) v.toBitVec
    simp only [ofItem, bind_eq_ok, cast_eq_ok, check_eq_ok, refuse_eq_ok]
    refine ⟨(), rfl, t.nonce, hword _, t.gasPrice, hword _, t.gas, hword _, recipient, rfl,
      t.receiveAddress, ?_, t.value, hword _, t.data, rfl, v.toBitVec, hbyte, t.vrs.r, hword _,
      t.vrs.s, hword _, (t.vrs.v, t.chainId), ?_, (), ?_, t.sender, ?_, (), by simp [itemCount, items], ?_⟩
    · split_ifs at hrecipient ⊢ with hempty
      · rw [hrecipient.2]
        rfl
      · rw [hrecipient.2, cast_eq_ok, addressBytes_eq]
        exact toFixed_fixedBytes 20 t.receiveAddress
    · simp only [hasZeroSignature, decide_eq_true_eq] at hsplit
      split_ifs at hsplit ⊢ with hzero
      · rw [hsplit.1, hsplit.2]
        rfl
      · exact hsplit
    · simpa only [hasZeroSignature, decide_eq_true_eq] using hvalid
    · rw [hfields]
      split_ifs at hsender ⊢ with hcheck
      · rw [hsender]
        rfl
      · rw [hsender]
        rfl
    · rw [hfields]
      rfl

end Accepted

section Written

variable {sha3 recover} {check : CheckTransaction} {b : Bytes} {t t' : Transaction}

/-- The item of the recipient that is written. -/
def recipientItem (t : Transaction) : Item :=
  if t.type = .MessageCall then .data (addressBytes t.receiveAddress) else .data []

/-- The number that is written for `v`. -/
def writtenV (t : Transaction) : ℕ := ((t.vrs.v.toNat + (t.chainId * 2 + 35)) % 2 ^ 32).toNat

/-- The same transaction, up to what is remembered of the sender. A creation has no
receiver. -/
structure Same (t t' : Transaction) : Prop where
  type : t'.type = t.type
  nonce : t'.nonce = t.nonce
  value : t'.value = t.value
  receiveAddress : t.type = .MessageCall → t'.receiveAddress = t.receiveAddress
  gasPrice : t'.gasPrice = t.gasPrice
  gas : t'.gas = t.gas
  data : t'.data = t.data
  vrs : t'.vrs = t.vrs
  chainId : t'.chainId = t.chainId

theorem streamItem_eq (ht : t.type ≠ .NullTransaction) : t.streamItem true false =
    some (.list [ofNat t.nonce.toNat, ofNat t.gasPrice.toNat, ofNat t.gas.toNat, t.recipientItem,
      ofNat t.value.toNat, .data t.data, ofNat t.writtenV, ofNat t.vrs.r.toNat,
      ofNat t.vrs.s.toNat]) := by
  rw [streamItem, if_neg ht]
  rfl

theorem Same.recipientItem (h : Same t t') : t'.recipientItem = t.recipientItem := by
  unfold Transaction.recipientItem
  rw [h.type]
  split_ifs with hcall
  · rw [h.receiveAddress hcall]
  · rfl

theorem Same.streamItem (h : Same t t') (sig forEip155hash : Bool) :
    t'.streamItem sig forEip155hash = t.streamItem sig forEip155hash := by
  have hrecipient := h.recipientItem
  unfold Transaction.recipientItem at hrecipient
  unfold Transaction.streamItem
  rw [hrecipient, h.type, h.nonce, h.value, h.gasPrice, h.gas, h.data, h.vrs, h.chainId]

theorem Same.rlp (h : Same t t') (sig forEip155hash : Bool) :
    t'.rlp sig forEip155hash = t.rlp sig forEip155hash := by
  unfold Transaction.rlp
  rw [h.streamItem]

theorem ofNat_inj {m n : ℕ} : ofNat m = ofNat n ↔ m = n := by
  constructor
  · intro h
    have hbytes : bigEndian m = bigEndian n := Item.data.inj h
    rw [← ofBigEndian_bigEndian m, hbytes, ofBigEndian_bigEndian]
  · rintro rfl
    rfl

/-- The transactions that a signed `v` stands for. -/
theorem splitV_eq_ok {v w : UInt8} {c : ℤ} : splitV v = .ok (w, c) ↔
    w ≤ 1 ∧ (c = -4 ∨ 1 ≤ c) ∧ (v.toNat : ℤ) = w.toNat + (c * 2 + 35) := by
  have hv := v.toNat_lt
  have hw := w.toNat_lt
  have h27 : v = 27 ↔ v.toNat = 27 := UInt8.toNat_inj.symm
  have h28 : v = 28 ↔ v.toNat = 28 := UInt8.toNat_inj.symm
  have hone : w ≤ 1 ↔ w.toNat ≤ 1 := UInt8.le_iff_toNat_le
  have hbyte : ∀ n : ℕ, UInt8.ofNat n = w ↔ n % 256 = w.toNat := by
    intro n
    rw [← UInt8.toNat_inj, UInt8.toNat_ofNat']
  unfold splitV
  simp only [hone, h27, h28]
  split_ifs with hlarge hpre
  · simp only [Except.ok.injEq, Prod.mk.injEq, hbyte]
    omega
  · simp only [Except.ok.injEq, Prod.mk.injEq, hbyte]
    omega
  · simp only [false_iff]
    omega

theorem Checked.writtenV {w : UInt8} (hs : splitV w = .ok (t.vrs.v, t.chainId)) :
    t.writtenV = w.toNat := by
  have hw := w.toNat_lt
  obtain ⟨-, -, hval⟩ := splitV_eq_ok.mp hs
  unfold Transaction.writtenV
  omega

theorem rlp_eq (ht : t.type ≠ .NullTransaction) : t.rlp true false = encode (.list
    [ofNat t.nonce.toNat, ofNat t.gasPrice.toNat, ofNat t.gas.toNat, t.recipientItem,
      ofNat t.value.toNat, .data t.data, ofNat t.writtenV, ofNat t.vrs.r.toNat,
      ofNat t.vrs.s.toNat]) := by
  rw [rlp, streamItem_eq ht]
  rfl

/-- The writer gives back items that were accepted when it writes the recipient and the
`v` that stood there. -/
theorem rlp_eq_items {recipient : Item} {v : UInt8} (ht : t.type ≠ .NullTransaction) :
    t.rlp true false = encode (items t recipient v) ↔
      t.recipientItem = recipient ∧ t.writtenV = v.toNat := by
  rw [rlp_eq ht, encode_injective.eq_iff]
  simp only [items, Item.list.injEq, List.cons.injEq, ofNat_inj, true_and, and_true]

theorem Parsed.not_null {recipient : Item} {v : UInt8}
    (h : Parsed sha3 recover check recipient v t) : t.type ≠ .NullTransaction := by
  have hrecipient := h.recipient
  split_ifs at hrecipient with hempty
  · rw [hrecipient.1]
    decide
  · rw [hrecipient.1]
    decide

theorem Parsed.recipientItem {recipient : Item} {v : UInt8}
    (h : Parsed sha3 recover check recipient v t) :
    t.recipientItem = recipient ↔ isList recipient = false := by
  have hrecipient := h.recipient
  unfold Transaction.recipientItem
  split_ifs at hrecipient with hempty
  · rw [hrecipient.1, if_neg (by decide)]
    cases recipient with
    | data d =>
      obtain rfl : d = [] := List.isEmpty_iff.mp hempty
      simp [isList]
    | list l => simp [isList]
  · rw [if_pos hrecipient.1, hrecipient.2]
    simp [isList]

theorem Parsed.writtenV {recipient : Item} {v : UInt8}
    (h : Parsed sha3 recover check recipient v t) :
    t.writtenV = v.toNat ↔ t.hasZeroSignature = false := by
  have hsplit := h.split
  split_ifs at hsplit with hzero
  · -- Three times an odd number of times is never nothing.
    have hv := v.toNat_lt
    rw [hzero]
    unfold Transaction.writtenV
    rw [hsplit.1, hsplit.2]
    simp only [Bool.true_eq_false, iff_false]
    omega
  · exact iff_of_true (Checked.writtenV hsplit) (Bool.eq_false_iff.mpr hzero)

/-- The recipient of an encoded transaction is a byte string. -/
def RecipientIsString (b : Bytes) : Prop :=
  ∃ x d, decodeStrict b = some x ∧ get? x 3 = some (.data d)

theorem ofBytes_ok : ofBytes sha3 recover check b = .ok t ↔
    ∃ recipient v, b = encode (items t recipient v) ∧ Parsed sha3 recover check recipient v t := by
  unfold ofBytes
  constructor
  · intro h
    split at h
    · next x hx =>
      obtain ⟨recipient, v, rfl, hparsed⟩ := ofItem_ok.mp h
      exact ⟨recipient, v, (encode_of_decodeStrict hx).symm, hparsed⟩
    · cases h
  · rintro ⟨recipient, v, rfl, hparsed⟩
    rw [decodeStrict_encode]
    exact ofItem_ok.mpr ⟨recipient, v, rfl, hparsed⟩

theorem recipientIsString_items {recipient : Item} {v : UInt8} :
    RecipientIsString (encode (items t recipient v)) ↔ isList recipient = false := by
  unfold RecipientIsString
  simp only [decodeStrict_encode]
  constructor
  · rintro ⟨x, d, hx, hd⟩
    cases hx
    cases hd
    rfl
  · intro h
    cases recipient with
    | data d => exact ⟨_, d, rfl, rfl⟩
    | list l => cases h

/-- Writing what was read. -/
theorem rlp_of_ofBytes (h : ofBytes sha3 recover check b = .ok t) :
    t.rlp true false = b ↔ t.hasZeroSignature = false ∧ RecipientIsString b := by
  obtain ⟨recipient, v, rfl, hparsed⟩ := ofBytes_ok.mp h
  rw [rlp_eq_items hparsed.not_null, hparsed.recipientItem, hparsed.writtenV,
    recipientIsString_items]
  exact and_comm

/-- The transactions that are read as they were written: signed, with a recovery id of a
bit and a chain that leave the sum a byte, and with a signature that passes the check. -/
structure Encodable (sha3 : Bytes → H256) (recover : SignatureStruct → H256 → Option Address)
    (check : CheckTransaction) (t : Transaction) : Prop where
  signed : t.hasZeroSignature = false
  bit : t.vrs.v ≤ 1
  chain : t.chainId = -4 ∨ 1 ≤ t.chainId
  byte : t.vrs.v.toNat + (t.chainId * 2 + 35) < 256
  valid : check = .None ∨ t.vrs.isValid
  recovers : check = .Everything → (senderOf { t with sender := 0 } sha3 recover).isSome

theorem Same.senderOf (h : Same t t') : Transaction.senderOf { t' with sender := 0 } sha3 recover =
    Transaction.senderOf { t with sender := 0 } sha3 recover := by
  have hsame : Same { t with sender := 0 } { t' with sender := 0 } :=
    ⟨h.type, h.nonce, h.value, h.receiveAddress, h.gasPrice, h.gas, h.data, h.vrs, h.chainId⟩
  have hhash : sha3WithoutSignature { t' with sender := 0 } sha3 =
      sha3WithoutSignature { t with sender := 0 } sha3 := by
    unfold sha3WithoutSignature
    rw [hsame.rlp, hsame.chainId]
  have hzero : hasZeroSignature { t' with sender := 0 } = hasZeroSignature { t with sender := 0 } := by
    simp only [hasZeroSignature, h.vrs]
  have hvrs : ({ t' with sender := 0 } : Transaction).vrs = ({ t with sender := 0 } : Transaction).vrs :=
    h.vrs
  unfold Transaction.senderOf
  rw [hhash, hzero, hvrs]

/-- What is read of a transaction: no receiver of a creation, and the sender that is asked for. -/
def read (sha3 : Bytes → H256) (recover : SignatureStruct → H256 → Option Address)
    (check : CheckTransaction) (t : Transaction) : Transaction :=
  { t with
    receiveAddress := if t.type = .MessageCall then t.receiveAddress else 0
    sender := if check = .Everything then
      (senderOf { t with sender := 0 } sha3 recover).getD 0 else 0 }

theorem same_read : Same t (read sha3 recover check t) :=
  ⟨rfl, rfl, rfl, fun h => if_pos h, rfl, rfl, rfl, rfl, rfl⟩

theorem Encodable.split (h : Encodable sha3 recover check t) :
    splitV (.ofNat t.writtenV) = .ok (t.vrs.v, t.chainId) := by
  have hbyte := h.byte
  have hchain := h.chain
  rw [splitV_eq_ok]
  refine ⟨h.bit, h.chain, ?_⟩
  rw [UInt8.toNat_ofNat']
  unfold writtenV
  omega

theorem Encodable.parsed (h : Encodable sha3 recover check t) (recipient : Item)
    (hrecipient : if isEmpty recipient then t.type = .ContractCreation
      else t.type = .MessageCall ∧ recipient = .data (addressBytes t.receiveAddress)) :
    Parsed sha3 recover check recipient (.ofNat t.writtenV) (read sha3 recover check t) := by
  have hsender : Transaction.senderOf { read sha3 recover check t with sender := 0 } sha3 recover =
      Transaction.senderOf { t with sender := 0 } sha3 recover := same_read.senderOf
  refine ⟨?_, ?_, ?_, ?_⟩
  · split_ifs at hrecipient ⊢ with hempty
    · refine ⟨hrecipient, if_neg ?_⟩
      rw [hrecipient]
      decide
    · refine ⟨hrecipient.1, ?_⟩
      rw [hrecipient.2, read, if_pos hrecipient.1]
  · have hsigned : ¬ (read sha3 recover check t).hasZeroSignature = true :=
      Bool.eq_false_iff.mp h.signed
    rw [if_neg hsigned]
    exact h.split
  · exact Or.inr h.valid
  · split_ifs with hcheck
    · obtain ⟨a, ha⟩ := Option.isSome_iff_exists.mp (h.recovers hcheck)
      rw [hsender, ha, read, if_pos hcheck, ha]
      rfl
    · exact if_neg hcheck

theorem creation_of_not_call (ht : t.type ≠ .NullTransaction) (hcall : t.type ≠ .MessageCall) :
    t.type = .ContractCreation := by
  cases htype : t.type
  · exact absurd htype ht
  · rfl
  · exact absurd htype hcall

theorem recipientItem_spec (ht : t.type ≠ .NullTransaction) :
    if isEmpty t.recipientItem then t.type = .ContractCreation
    else t.type = .MessageCall ∧ t.recipientItem = .data (addressBytes t.receiveAddress) := by
  have hnonempty : ∀ a, isEmpty (.data (addressBytes a)) = false := fun a => rfl
  have hempty : isEmpty (.data []) = true := rfl
  unfold recipientItem
  by_cases hcall : t.type = .MessageCall
  · rw [if_pos hcall, hnonempty, if_neg (by decide)]
    exact ⟨hcall, rfl⟩
  · rw [if_neg hcall, hempty, if_pos rfl]
    exact creation_of_not_call ht hcall

/-- Reading what was written. -/
theorem ofBytes_rlp (ht : t.type ≠ .NullTransaction) :
    (∃ t', ofBytes sha3 recover check (t.rlp true false) = .ok t' ∧ Same t t') ↔
      Encodable sha3 recover check t := by
  constructor
  · rintro ⟨t', hread, hsame⟩
    obtain ⟨recipient, v, hrlp, hparsed⟩ := ofBytes_ok.mp hread
    rw [← hsame.rlp, rlp_eq_items hparsed.not_null] at hrlp
    have hsigned := hparsed.writtenV.mp hrlp.2
    have hsplit := hparsed.split
    rw [if_neg (Bool.eq_false_iff.mp hsigned), splitV_eq_ok, hsame.vrs, hsame.chainId] at hsplit
    obtain ⟨hbit, hchain, hval⟩ := hsplit
    have hlt := v.toNat_lt
    obtain ⟨hvalid, hsender⟩ := hparsed.checked
    have hzero : t'.hasZeroSignature = t.hasZeroSignature := by
      unfold hasZeroSignature
      rw [hsame.vrs]
    refine ⟨hzero ▸ hsigned, hbit, hchain, by omega, ?_, fun hcheck => ?_⟩
    · rw [hsigned, hsame.vrs] at hvalid
      simpa using hvalid
    · rw [if_pos hcheck, hsame.senderOf] at hsender
      rw [hsender]
      rfl
  · intro h
    refine ⟨read sha3 recover check t, ofBytes_ok.mpr ⟨t.recipientItem, .ofNat t.writtenV, ?_,
      h.parsed _ ?_⟩, same_read⟩
    · have hbyte := h.byte
      have hchain := h.chain
      rw [← (@same_read sha3 recover check t).rlp]
      refine (rlp_eq_items (t := read sha3 recover check t) ht).mpr ⟨?_, ?_⟩
      · exact same_read.recipientItem
      · show t.writtenV = _
        rw [UInt8.toNat_ofNat']
        unfold writtenV
        omega
    · exact recipientItem_spec ht

/-- A creation has more than one accepted encoding, a call has one. -/
theorem encodings (ht : t.type ≠ .NullTransaction) (h : Encodable sha3 recover check t) :
    (∃! b, ∃ t', ofBytes sha3 recover check b = .ok t' ∧ Same t t') ↔ t.type = .MessageCall := by
  constructor
  · intro hunique
    by_contra hcall
    have hcreation := creation_of_not_call ht hcall
    have haccepted : ∀ recipient, isEmpty recipient = true → ∃ t', ofBytes sha3 recover check
        (encode (items (read sha3 recover check t) recipient (.ofNat t.writtenV))) = .ok t' ∧
          Same t t' := by
      intro recipient hempty
      refine ⟨_, ofBytes_ok.mpr ⟨recipient, _, rfl, h.parsed recipient ?_⟩, same_read⟩
      rw [if_pos hempty]
      exact hcreation
    have hsame := hunique.unique (haccepted (.data []) rfl) (haccepted (.list []) rfl)
    have hitems := encode_injective hsame
    simp [items] at hitems
  · intro hcall
    refine ⟨t.rlp true false, (ofBytes_rlp ht).mpr h, ?_⟩
    rintro b ⟨t', hread, hsame⟩
    obtain ⟨recipient, v, rfl, hparsed⟩ := ofBytes_ok.mp hread
    have hstring : isList recipient = false := by
      have hrecipient := hparsed.recipient
      split_ifs at hrecipient with hempty
      · rw [hsame.type, hcall] at hrecipient
        cases hrecipient.1
      · rw [hrecipient.2]
        rfl
    have hsigned : t'.hasZeroSignature = false := by
      have hs := h.signed
      unfold hasZeroSignature at hs ⊢
      rwa [hsame.vrs]
    rw [← hsame.rlp]
    exact ((rlp_of_ofBytes hread).mpr ⟨hsigned, recipientIsString_items.mpr hstring⟩).symm

end Written

/-- Reading and writing undo each other where there is a signature, the recipient is a
string and the sum with the chain is a byte; then a call has one encoding. -/
theorem encoding_exact (sha3 : Bytes → H256) (recover : SignatureStruct → H256 → Option Address)
    (check : CheckTransaction) :
    (∀ b t, ofBytes sha3 recover check b = .ok t →
      (t.rlp true false = b ↔ t.hasZeroSignature = false ∧ RecipientIsString b)) ∧
    (∀ t : Transaction, t.type ≠ .NullTransaction →
      ((∃ t', ofBytes sha3 recover check (t.rlp true false) = .ok t' ∧ Same t t') ↔
        Encodable sha3 recover check t)) ∧
    ∀ t : Transaction, t.type ≠ .NullTransaction → Encodable sha3 recover check t →
      ((∃! b, ∃ t', ofBytes sha3 recover check b = .ok t' ∧ Same t t') ↔
        t.type = .MessageCall) :=
  ⟨fun _ _ => rlp_of_ofBytes, fun _ => ofBytes_rlp, fun _ => encodings⟩

/-- Account 2 signs everything. -/
def anySigner : SignatureStruct → H256 → Option Address := fun _ _ => some 2

def noHash : Bytes → H256 := fun _ => .ofNat 0

/-- A call of account 7 with a signature of the first kind. -/
def payment : Transaction where
  type := .MessageCall
  nonce := 300
  value := 5
  receiveAddress := 7
  gasPrice := 1
  gas := 21000
  data := [1, 2]
  vrs := ⟨1, 1, 0⟩
  chainId := -4
  sender := 0
  null_gas := null_gas_call

theorem payment_encodable : Encodable noHash anySigner .Everything payment :=
  ⟨by decide, by decide, Or.inl rfl, by decide, Or.inr (by decide), fun _ => rfl⟩

theorem encoding_exact_payment : ∃! b, ∃ t', ofBytes noHash anySigner .Everything b = .ok t' ∧
    Same payment t' :=
  ((encoding_exact noHash anySigner .Everything).2.2 payment (by decide) payment_encodable).mpr rfl

/-- A creation of nothing without a signature, and with `v` zero, is accepted and written
with `v` 35. -/
theorem zero_signature_rewritten : ∃ t, ofBytes noHash anySigner .Everything
    [0xc9, 0x80, 0x80, 0x80, 0x80, 0x80, 0x80, 0x80, 0x80, 0x80] = .ok t ∧
      t.rlp true false = [0xc9, 0x80, 0x80, 0x80, 0x80, 0x80, 0x80, 0x23, 0x80, 0x80] :=
  ⟨_, rfl, by decide⟩

end Transaction
end XChain
