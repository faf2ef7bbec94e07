import Mathlib.Logic.Function.Basic
import Mathlib.Order.Defs.Unbundled
import XChain.Transaction

/-!
# The order of queued transactions

Queued transactions are ordered by how far their nonce is from the least queued nonce of
their sender, and then by their gas price. When the first transaction of a sender leaves,
all others of that sender come closer at once, and may overtake those of other senders. The
order stays exactly when none of them does.
-/
namespace XChain

/-- The queued transactions in their order, and the queued nonces of every sender. -/
structure TransactionQueue where
  current : List Transaction
  currentByAddressAndNonce : Address → List Word
  sorted : ∀ a, (currentByAddressAndNonce a).Pairwise (· < ·)
  holds : ∀ a n, n ∈ currentByAddressAndNonce a ↔ ∃ t ∈ current, t.sender = a ∧ t.nonce = n
  unique : current.Pairwise fun x y => ¬ (x.sender = y.sender ∧ x.nonce = y.nonce)

namespace TransactionQueue

variable (q : TransactionQueue)

/-- `m_currentByAddressAndNonce[a].begin()->first`. Every compared transaction is queued, so
there is one for its sender. -/
def firstNonce (a : Address) : Word := (q.currentByAddressAndNonce a).headD 0

def height (t : Transaction) : Word := t.nonce - q.firstNonce t.sender

/-- `PriorityCompare`. -/
def compare (first second : Transaction) : Bool :=
  q.height first < q.height second ∨
    (q.height first = q.height second ∧ first.gasPrice > second.gasPrice)

/-- Whether a transaction is the first one of a sender. -/
def isFirst (a : Address) (t : Transaction) : Bool := t.sender = a ∧ t.nonce = q.firstNonce a

section Removal

variable {q} {a : Address}

theorem isFirst_eq_false {t : Transaction} :
    (!q.isFirst a t) = true ↔ ¬ (t.sender = a ∧ t.nonce = q.firstNonce a) := by
  rw [Bool.not_eq_true', isFirst, decide_eq_false_iff_not]

theorem mem_tail_iff {l : List Word} (h : l.Pairwise (· < ·)) {n : Word} :
    n ∈ l.tail ↔ n ∈ l ∧ n ≠ l.headD 0 := by
  cases l with
  | nil => simp
  | cons m l =>
    obtain ⟨hm, -⟩ := List.pairwise_cons.mp h
    constructor
    · intro hn
      refine ⟨List.mem_cons_of_mem _ hn, ?_⟩
      rintro rfl
      exact BitVec.lt_irrefl _ (hm _ hn)
    · rintro ⟨hn, hne⟩
      exact (List.mem_cons.mp hn).resolve_left hne

theorem holds_tail (b : Address) (n : Word) :
    n ∈ Function.update q.currentByAddressAndNonce a (q.currentByAddressAndNonce a).tail b ↔
      ∃ t ∈ q.current.filter fun t => !q.isFirst a t, t.sender = b ∧ t.nonce = n := by
  by_cases hb : b = a
  · subst hb
    rw [Function.update_self, mem_tail_iff (q.sorted b), q.holds]
    constructor
    · rintro ⟨⟨t, ht, hsender, rfl⟩, hne⟩
      exact ⟨t, List.mem_filter.mpr ⟨ht, isFirst_eq_false.mpr fun h => hne h.2⟩, hsender, rfl⟩
    · rintro ⟨t, ht, hsender, rfl⟩
      obtain ⟨ht, hfirst⟩ := List.mem_filter.mp ht
      exact ⟨⟨t, ht, hsender, rfl⟩, fun hn =>
        isFirst_eq_false.mp hfirst ⟨hsender, hn⟩⟩
  · rw [Function.update_of_ne hb, q.holds]
    constructor
    · rintro ⟨t, ht, rfl, rfl⟩
      exact ⟨t, List.mem_filter.mpr ⟨ht, isFirst_eq_false.mpr fun h => hb h.1⟩, rfl, rfl⟩
    · rintro ⟨t, ht, hsender, hnonce⟩
      exact ⟨t, List.mem_of_mem_filter ht, hsender, hnonce⟩

end Removal

/-- The queue without the first transaction of a sender. -/
def removeFirst (a : Address) : TransactionQueue where
  current := q.current.filter fun t => !q.isFirst a t
  currentByAddressAndNonce :=
    Function.update q.currentByAddressAndNonce a (q.currentByAddressAndNonce a).tail
  sorted b := by
    by_cases hb : b = a
    · subst hb
      rw [Function.update_self]
      exact (q.sorted b).sublist (List.tail_sublist _)
    · rw [Function.update_of_ne hb]
      exact q.sorted b
  holds := holds_tail
  unique := q.unique.sublist List.filter_sublist

/-- How far a nonce is from the first one of its sender. -/
def distance (t : Transaction) : ℕ := t.nonce.toNat - (q.firstNonce t.sender).toNat

/-- How far the second nonce of a sender is from the first one. -/
def gap (a : Address) : ℕ :=
  ((q.currentByAddressAndNonce a).tail.headD 0).toNat - (q.firstNonce a).toNat

/-- None of the other transactions of a sender stands behind, or level with, one of another
sender that it reaches or passes when it comes closer by the gap. -/
def Undisturbed (a : Address) : Prop :=
  ∀ x ∈ q.current, ∀ y ∈ q.current, x.sender = a → x.nonce ≠ q.firstNonce a → y.sender ≠ a →
    q.distance x < q.distance y ∨
      (q.distance x = q.distance y ∧ y.gasPrice < x.gasPrice) ∨
      q.distance y + q.gap a < q.distance x ∨
      (q.distance y + q.gap a = q.distance x ∧ x.gasPrice < y.gasPrice)

/-- The order of a queue: a strict weak order, increasing in the nonces of a sender, that
stays when the first transaction of any sender leaves. -/
structure Ordered : Prop where
  strictWeak : IsStrictWeakOrder {t // t ∈ q.current} fun x y => q.compare x y = true
  sender : ∀ x ∈ q.current, ∀ y ∈ q.current, x.sender = y.sender → x.nonce < y.nonce →
    q.compare x y = true
  removal : ∀ a, ∀ x ∈ (q.removeFirst a).current, ∀ y ∈ (q.removeFirst a).current,
    (q.removeFirst a).compare x y = q.compare x y
  stays : ∀ a, (q.current.Pairwise fun x y => q.compare y x = false) →
    (q.removeFirst a).current.Pairwise fun x y => (q.removeFirst a).compare y x = false

variable {q} {a : Address} {x y t : Transaction}

theorem firstNonce_le (ht : t ∈ q.current) : q.firstNonce t.sender ≤ t.nonce := by
  have hmem := (q.holds t.sender t.nonce).mpr ⟨t, ht, rfl, rfl⟩
  have hsorted := q.sorted t.sender
  unfold firstNonce
  cases hl : q.currentByAddressAndNonce t.sender with
  | nil =>
    rw [hl] at hmem
    cases hmem
  | cons n l =>
    rw [hl] at hmem hsorted
    rcases List.mem_cons.mp hmem with hn | hn
    · rw [hn]
      exact BitVec.le_refl _
    · exact BitVec.le_of_lt ((List.pairwise_cons.mp hsorted).1 _ hn)

theorem height_toNat (ht : t ∈ q.current) : (q.height t).toNat = q.distance t :=
  BitVec.toNat_sub_of_le (firstNonce_le ht)

theorem compare_iff (hx : x ∈ q.current) (hy : y ∈ q.current) : q.compare x y = true ↔
    q.distance x < q.distance y ∨
      (q.distance x = q.distance y ∧ y.gasPrice.toNat < x.gasPrice.toNat) := by
  simp only [compare, decide_eq_true_eq, BitVec.lt_def, gt_iff_lt, ← BitVec.toNat_inj,
    height_toNat hx, height_toNat hy]

theorem firstNonce_removeFirst (b : Address) : (q.removeFirst a).firstNonce b =
    if b = a then (q.currentByAddressAndNonce a).tail.headD 0 else q.firstNonce b := by
  unfold firstNonce removeFirst
  split_ifs with hb
  · rw [hb]
    simp only [Function.update_self]
  · simp only [Function.update_of_ne hb]

theorem mem_removeFirst : t ∈ (q.removeFirst a).current ↔ t ∈ q.current ∧
    ¬ (t.sender = a ∧ t.nonce = q.firstNonce a) := by
  rw [← isFirst_eq_false]
  exact List.mem_filter

/-- The other transactions of the sender come closer by the gap. -/
theorem distance_removeFirst (ht : t ∈ (q.removeFirst a).current) (hs : t.sender = a) :
    q.distance t = (q.removeFirst a).distance t + q.gap a ∧ 0 < q.gap a := by
  subst hs
  have hle := firstNonce_le ht
  have hmem := ((q.removeFirst t.sender).holds t.sender t.nonce).mpr ⟨t, ht, rfl, rfl⟩
  have htail : t.nonce ∈ (q.currentByAddressAndNonce t.sender).tail := by
    simpa only [removeFirst, Function.update_self] using hmem
  have hsorted := q.sorted t.sender
  rw [firstNonce_removeFirst, if_pos rfl] at hle
  unfold distance gap
  rw [firstNonce_removeFirst, if_pos rfl]
  unfold firstNonce
  cases hl : q.currentByAddressAndNonce t.sender with
  | nil =>
    rw [hl] at htail
    cases htail
  | cons m l =>
    rw [hl] at htail hsorted hle
    cases l with
    | nil => cases htail
    | cons n l =>
      have hlt : m < n := (List.pairwise_cons.mp hsorted).1 n List.mem_cons_self
      simp only [List.tail_cons, List.headD_cons, BitVec.le_def, BitVec.lt_def] at hle hlt ⊢
      omega

theorem distance_of_ne (hs : t.sender ≠ a) : (q.removeFirst a).distance t = q.distance t := by
  unfold distance
  rw [firstNonce_removeFirst, if_neg hs]

theorem compare_congr (hx : x ∈ (q.removeFirst a).current)
    (hy : y ∈ (q.removeFirst a).current) :
    (q.removeFirst a).compare x y = q.compare x y ↔
      ((q.removeFirst a).distance x < (q.removeFirst a).distance y ∨
          ((q.removeFirst a).distance x = (q.removeFirst a).distance y ∧
            y.gasPrice.toNat < x.gasPrice.toNat) ↔
        q.distance x < q.distance y ∨
          (q.distance x = q.distance y ∧ y.gasPrice.toNat < x.gasPrice.toNat)) := by
  rw [Bool.eq_iff_iff, compare_iff hx hy,
    compare_iff (mem_removeFirst.mp hx).1 (mem_removeFirst.mp hy).1]

/-- A transaction that comes closer keeps its place among those of another sender exactly
when it was in front of them or stays behind them. -/
theorem compare_removeFirst_iff (hx : x ∈ (q.removeFirst a).current)
    (hy : y ∈ (q.removeFirst a).current) (hxa : x.sender = a) (hya : y.sender ≠ a) :
    ((q.removeFirst a).compare x y = q.compare x y ∧
        (q.removeFirst a).compare y x = q.compare y x) ↔
      q.distance x < q.distance y ∨
        (q.distance x = q.distance y ∧ y.gasPrice < x.gasPrice) ∨
        q.distance y + q.gap a < q.distance x ∨
        (q.distance y + q.gap a = q.distance x ∧ x.gasPrice < y.gasPrice) := by
  obtain ⟨hdist, hgap⟩ := distance_removeFirst hx hxa
  have hsame : (q.removeFirst a).distance y = q.distance y := distance_of_ne hya
  rw [compare_congr hx hy, compare_congr hy hx, hsame, BitVec.lt_def, BitVec.lt_def]
  omega

/-- Removal keeps the order of all others exactly when they are undisturbed. -/
theorem removal_iff : (∀ x ∈ (q.removeFirst a).current, ∀ y ∈ (q.removeFirst a).current,
    (q.removeFirst a).compare x y = q.compare x y) ↔ q.Undisturbed a := by
  constructor
  · intro h x hx y hy hxa hfirst hya
    have hx' : x ∈ (q.removeFirst a).current := mem_removeFirst.mpr ⟨hx, fun hf => hfirst hf.2⟩
    have hy' : y ∈ (q.removeFirst a).current := mem_removeFirst.mpr ⟨hy, fun hf => hya hf.1⟩
    exact (compare_removeFirst_iff hx' hy' hxa hya).mp ⟨h x hx' y hy', h y hy' x hx'⟩
  · intro h x hx y hy
    have hkeeps : ∀ {u v : Transaction}, u ∈ (q.removeFirst a).current →
        v ∈ (q.removeFirst a).current → u.sender = a → v.sender ≠ a →
          (q.removeFirst a).compare u v = q.compare u v ∧
            (q.removeFirst a).compare v u = q.compare v u := by
      intro u v hu hv hua hva
      obtain ⟨hu', hfirst⟩ := mem_removeFirst.mp hu
      exact (compare_removeFirst_iff hu hv hua hva).mpr
        (h u hu' v (mem_removeFirst.mp hv).1 hua (fun hn => hfirst ⟨hua, hn⟩) hva)
    by_cases hxa : x.sender = a
    · by_cases hya : y.sender = a
      · -- Both come closer by the same gap.
        obtain ⟨hdx, -⟩ := distance_removeFirst hx hxa
        obtain ⟨hdy, -⟩ := distance_removeFirst hy hya
        rw [compare_congr hx hy, hdx, hdy]
        omega
      · exact (hkeeps hx hy hxa hya).1
    · by_cases hya : y.sender = a
      · exact (hkeeps hy hx hya hxa).2
      · rw [compare_congr hx hy, distance_of_ne hxa, distance_of_ne hya]

theorem strictWeak_compare (q : TransactionQueue) :
    IsStrictWeakOrder {t // t ∈ q.current} fun x y => q.compare x y = true where
  irrefl x := by
    rw [compare_iff x.2 x.2]
    omega
  trans x y z := by
    rw [compare_iff x.2 y.2, compare_iff y.2 z.2, compare_iff x.2 z.2]
    omega
  incomp_trans x y z := by
    rw [compare_iff x.2 y.2, compare_iff y.2 x.2, compare_iff y.2 z.2, compare_iff z.2 y.2,
      compare_iff x.2 z.2, compare_iff z.2 x.2]
    omega

theorem compare_sender (hx : x ∈ q.current) (hy : y ∈ q.current) (hs : x.sender = y.sender)
    (hn : x.nonce < y.nonce) : q.compare x y = true := by
  have hle := firstNonce_le hx
  rw [BitVec.lt_def] at hn
  rw [BitVec.le_def] at hle
  rw [compare_iff hx hy]
  unfold distance
  rw [← hs]
  omega

/-- The queue is ordered as it should be exactly when no sender's first transaction disturbs
the others by leaving. -/
theorem ordered_iff (q : TransactionQueue) : q.Ordered ↔ ∀ a, q.Undisturbed a := by
  constructor
  · intro h a
    exact removal_iff.mp (h.removal a)
  · intro h
    have hkeeps := fun a => removal_iff.mpr (h a)
    refine ⟨strictWeak_compare q, fun x hx y hy => compare_sender hx hy, hkeeps, ?_⟩
    intro a hsorted
    have hsub : (q.removeFirst a).current.Pairwise fun x y => q.compare y x = false :=
      hsorted.sublist List.filter_sublist
    refine hsub.imp_of_mem fun {x y} hx hy hxy => ?_
    rw [hkeeps a y hy x hx, hxy]

/-- The queue of transactions that stand in the order of their nonces for every sender. -/
def ofList (l : List Transaction)
    (h : l.Pairwise fun x y => x.sender = y.sender → x.nonce < y.nonce) : TransactionQueue where
  current := l
  currentByAddressAndNonce a := (l.filter fun t => t.sender = a).map Transaction.nonce
  sorted a := by
    refine List.pairwise_map.mpr ((h.sublist List.filter_sublist).imp_of_mem ?_)
    intro x y hx hy hxy
    have hx' := (List.mem_filter.mp hx).2
    have hy' := (List.mem_filter.mp hy).2
    simp only [decide_eq_true_eq] at hx' hy'
    exact hxy (hx'.trans hy'.symm)
  holds a n := by simp [and_assoc]
  unique := by
    refine h.imp fun {x y} hxy heq => ?_
    have hlt := hxy heq.1
    rw [heq.2] at hlt
    exact BitVec.lt_irrefl _ hlt

/-- A call of a sender with a nonce and a gas price. -/
def call (sender : Address) (nonce gasPrice : Word) : Transaction where
  type := .MessageCall
  nonce := nonce
  value := 0
  receiveAddress := 0
  gasPrice := gasPrice
  gas := 21000
  data := []
  vrs := ⟨1, 1, 0⟩
  chainId := -4
  sender := sender
  null_gas := Transaction.null_gas_call

/-- Two transactions of account 1, and a cheaper one of account 2 between them. -/
def overtaken : TransactionQueue :=
  ofList [call 1 0 10, call 2 0 5, call 1 1 10] (by decide)

/-- The second transaction of account 1 overtakes the one of account 2. -/
theorem order_changes : ¬ overtaken.Ordered := by
  intro h
  have hundisturbed : overtaken.Undisturbed 1 := removal_iff.mp (h.removal 1)
  have hcall : call 1 1 10 ∈ overtaken.current := List.mem_cons_of_mem _ (by simp)
  have hother : call 2 0 5 ∈ overtaken.current := List.mem_cons_of_mem _ (by simp)
  exact absurd (hundisturbed _ hcall _ hother rfl (by decide +kernel) (by decide +kernel))
    (by decide +kernel)

end TransactionQueue
end XChain
