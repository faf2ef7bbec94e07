import Mathlib.Data.UInt
import XChain.RlpFields
import XChain.UnboundedMemory
import XChain.VMFetch
import XChain.VMMetering

/-!
# What the cases of the switch do and charge

The price of an instruction as a number, from its operands, the size of the memory and the
gas at hand, and rules that run a case to the machine that it leaves behind. A case runs
out of gas only if there is less gas than its price.
-/
namespace XChain
namespace VM

open Machine UnboundedMemory

variable {W : Type} {α : Type} {sha3 : Bytes → H256} {face : ExtVMFace W} {stray : UInt32} {s : VM W}
variable {E : VMException → VM W → Prop}

section Costs

/-- The operand `i` of an instruction. -/
def operand (l : List Word) (i : ℕ) : Word := l.getD i 0

/-- How far an instruction with the operands `l` reaches into the memory. -/
def memoryNeed (op : Instruction) (l : List Word) : ℕ :=
  match op with
  | .MLOAD => (operand l 0).toNat + 32
  | .MSTORE => (operand l 0).toNat + 32
  | .MSTORE8 => (operand l 0).toNat + 1
  | .SHA3 => needed (operand l 0) (operand l 1)
  | .LOG _ => needed (operand l 0) (operand l 1)
  | .RETURN => needed (operand l 0) (operand l 1)
  | .REVERT => needed (operand l 0) (operand l 1)
  | .CALLDATACOPY => needed (operand l 0) (operand l 2)
  | .CODECOPY => needed (operand l 0) (operand l 2)
  | .EXTCODECOPY => needed (operand l 1) (operand l 3)
  | .CREATE => needed (operand l 1) (operand l 2)
  | .CALL => max (needed (operand l 3) (operand l 4)) (needed (operand l 5) (operand l 6))
  | .CALLCODE => max (needed (operand l 3) (operand l 4)) (needed (operand l 5) (operand l 6))
  | .DELEGATECALL => max (needed (operand l 2) (operand l 3)) (needed (operand l 4) (operand l 5))
  | _ => 0

/-- The bytes that are copied at a price. -/
def copied (op : Instruction) (l : List Word) : ℕ :=
  match op with
  | .CALLDATACOPY => (operand l 2).toNat
  | .CODECOPY => (operand l 2).toNat
  | .EXTCODECOPY => (operand l 3).toNat
  | _ => 0

/-- The bytes of a number without leading zeros. -/
def byteCount (n : ℕ) : ℕ := (Nat.digits 256 n).length

/-- The price of an instruction without its memory and its copying. -/
def fee (face : ExtVMFace W) (stray : UInt32) (op : Instruction) (ext : W) (l : List Word) : ℕ :=
  match op with
  | .EXP => face.evmSchedule.expGas + face.evmSchedule.expByteGas * byteCount (operand l 1).toNat
  | .SHA3 => face.evmSchedule.sha3Gas +
      ((operand l 1).toNat + 31) / 32 * face.evmSchedule.sha3WordGas
  | .LOG n => face.evmSchedule.logGas + face.evmSchedule.logTopicGas * n.val +
      face.evmSchedule.logDataGas * (operand l 1).toNat
  | .SLOAD => face.evmSchedule.sloadGas
  | .SSTORE => if face.store ext (operand l 0) = 0 ∧ operand l 1 ≠ 0 then
      face.evmSchedule.sstoreSetGas else face.evmSchedule.sstoreResetGas
  | .BALANCE => face.evmSchedule.balanceGas
  | .EXTCODESIZE => face.evmSchedule.extcodesizeGas
  | .EXTCODECOPY => face.evmSchedule.extcodecopyGas
  | .JUMPDEST => face.evmSchedule.jumpdestGas
  | .SUICIDE => face.evmSchedule.suicideGas +
      if (0 < face.balance ext face.myAddress ∨
          face.evmSchedule.zeroValueTransferChargesNewAccountGas) ∧
          face.evmSchedule.suicideChargesNewAccountGas ∧
          ¬ face.existsAccount ext (asAddress (operand l 0)) then
        face.evmSchedule.callNewAccountGas else 0
  | .CREATE => face.evmSchedule.createGas
  | .CALL => face.evmSchedule.callGas +
      (if ¬ face.existsAccount ext (asAddress (operand l 1)) ∧
          (0 < operand l 2 ∨ face.evmSchedule.zeroValueTransferChargesNewAccountGas) then
        face.evmSchedule.callNewAccountGas else 0) +
      (if 0 < operand l 2 then face.evmSchedule.callValueTransferGas else 0)
  | .CALLCODE => face.evmSchedule.callGas +
      (if 0 < operand l 2 then face.evmSchedule.callValueTransferGas else 0)
  | .DELEGATECALL => face.evmSchedule.callGas
  | op => tierGas face stray (instructionInfo (some op)).gasPriceTier

/-- The price of an instruction, without the gas that a call hands over. -/
def baseCost (face : ExtVMFace W) (stray : UInt32) (op : Instruction) (ext : W) (size : ℕ)
    (l : List Word) : ℕ :=
  fee face stray op ext l + expansion face.evmSchedule size (memoryNeed op l) +
    copyPrice face.evmSchedule (copied op l)

/-- The instruction hands gas over to the code that it calls. -/
def handsOver : Instruction → Bool
  | .CALL => true
  | .CALLCODE => true
  | .DELEGATECALL => true
  | _ => false

/-- The gas that a call hands over: what is asked for, or all but one 64th of what is left. -/
def handed (face : ExtVMFace W) (requested : Word) (left : ℕ) : ℕ :=
  if face.evmSchedule.staticCallDepthLimit then requested.toNat
  else min requested.toNat (left - left / 64)

/-- The price of the instruction for a machine whose operands are on its stack. -/
def cost (face : ExtVMFace W) (stray : UInt32) (op : Instruction) (ext : W) (size gas : ℕ)
    (l : List Word) : ℕ :=
  baseCost face stray op ext size l +
    if handsOver op then handed face (operand l 0) (gas - baseCost face stray op ext size l) else 0

theorem rounded_zero : rounded 0 = 0 := rfl

theorem expansion_zero (es : EVMSchedule) (size : ℕ) : expansion es size 0 = 0 := by
  rw [expansion, rounded_zero, Nat.max_zero, Nat.sub_self]

theorem copyPrice_zero (es : EVMSchedule) : copyPrice es 0 = 0 := Nat.mul_zero _

end Costs

section Exponents

theorem byteCount_of_lt {n k : ℕ} (hlt : n < 256 ^ (k + 1)) (hle : 256 ^ k ≤ n) :
    byteCount n = k + 1 := by
  have hne : n ≠ 0 := by
    rintro rfl
    exact absurd hle (Nat.not_le.mpr (pow_pos (by norm_num) k))
  rw [byteCount, Nat.length_digits 256 n (by norm_num) hne,
    Nat.log_eq_of_pow_le_of_lt_pow hle hlt]

/-- The zero bits in front tell the number of bytes. -/
theorem firstBitSet_fixedBytes {k n : ℕ} (hn : n < 256 ^ k) :
    k - firstBitSet (Rlp.fixedBytes k n) / 8 = byteCount n := by
  induction k with
  | zero =>
    obtain rfl : n = 0 := by simpa using hn
    simp [byteCount]
  | succ k ih =>
    rw [Rlp.fixedBytes_succ, firstBitSet]
    have hdiv : n / 256 ^ k < 256 := Nat.div_lt_of_lt_mul (by rwa [← pow_succ])
    by_cases hlt : n < 256 ^ k
    · rw [Nat.div_eq_of_lt hlt, if_pos (show UInt8.ofNat 0 = 0 from rfl), ← ih hlt]
      omega
    · have hle := Nat.not_lt.mp hlt
      have hpos : 1 ≤ n / 256 ^ k := (Nat.one_le_div_iff (pow_pos (by norm_num) k)).mpr hle
      have hne : UInt8.ofNat (n / 256 ^ k) ≠ 0 := by
        intro h
        have hnat := congrArg UInt8.toNat h
        rw [UInt8.toNat_ofNat', Nat.mod_eq_of_lt hdiv] at hnat
        simp only [UInt8.toNat_zero] at hnat
        omega
      rw [if_neg hne, byteCount_of_lt hn hle]
      omega

theorem exponent_bytes (w : Word) : 32 - firstBitSet (toBytes w) / 8 = byteCount w.toNat :=
  firstBitSet_fixedBytes (lt_of_lt_of_eq w.isLt (by norm_num))

theorem byteCount_le (w : Word) : byteCount w.toNat ≤ 32 := by
  rw [← exponent_bytes]
  exact Nat.sub_le _ _

end Exponents

section Cases

theorem runs_item_exact {i : ℕ} {Q : Word → VM W → Prop} (hi : i < s.sp.length)
    (h : Q (operand s.sp i) s) : Runs (item i) s Q E := by
  have hget : s.sp[i]? = some (operand s.sp i) := by
    rw [operand, List.getD_eq_getElem?_getD, List.getElem?_eq_getElem hi]
    rfl
  exact runs_of_ok (item_ok hget) h

theorem runs_setTop_exact {w x : Word} {rest : List Word} {Q : Unit → VM W → Prop}
    (hspp : s.spp = x :: rest) (h : Q () { s with spp := w :: rest }) : Runs (setTop w) s Q E :=
  runs_of_ok (setTop_ok hspp) h

theorem runs_slice_exact {b : Bytes} {offset size : ℕ} {Q : Bytes → VM W → Prop}
    (hfits : size = 0 ∨ offset + size ≤ b.length) (h : Q ((b.drop offset).take size) s) :
    Runs (slice b offset size) s Q E := by
  rw [slice, if_pos hfits]
  exact h

theorem runs_memSlice_exact {offset size : ℕ} {Q : Bytes → VM W → Prop}
    (hfits : size = 0 ∨ offset + size ≤ s.mem.length) (h : Q ((s.mem.drop offset).take size) s) :
    Runs (memSlice offset size) s Q E :=
  runs_bind (runs_get (runs_slice_exact hfits h))

theorem runs_memWrite_exact {offset : ℕ} {b : Bytes} {Q : Unit → VM W → Prop}
    (hfits : b.length = 0 ∨ offset + b.length ≤ s.mem.length)
    (h : Q () { s with mem := overwrite s.mem offset b }) : Runs (memWrite offset b) s Q E := by
  refine runs_bind (runs_get ?_)
  rw [if_pos hfits]
  exact runs_set h

theorem runs_nextPC {n : ℕ} {Q : Bounce → VM W → Prop}
    (h : Q .interpretCases { s with pc := s.pc + n }) : Runs (nextPC n) s Q E :=
  runs_bind (runs_modify (runs_pure h))

theorem runs_ordinary {e : Exec W Word} {w x : Word} {rest : List Word} {Q : Bounce → VM W → Prop}
    (hspp : s.spp = x :: rest)
    (he : e { s with ioGas := s.ioGas - s.runGas } = .ok w { s with ioGas := s.ioGas - s.runGas })
    (hQ : s.runGas ≤ s.ioGas → Q .interpretCases
      { s with ioGas := s.ioGas - s.runGas, spp := w :: rest, pc := s.pc + 1 })
    (hE : s.ioGas < s.runGas → E .OutOfGas s) : Runs (ordinary e) s Q E := by
  refine runs_bind (runs_updateIOGas_exact (fun hle => ?_) hE)
  have hread : Runs e { s with ioGas := s.ioGas - s.runGas }
      (fun a t => a = w ∧ t = { s with ioGas := s.ioGas - s.runGas }) E :=
    runs_of_ok he ⟨rfl, rfl⟩
  refine runs_bind (hread.imp fun a t ha => ?_)
  obtain ⟨rfl, rfl⟩ := ha
  exact runs_bind (runs_setTop_exact hspp (runs_nextPC (hQ hle)))

theorem runs_priced {e : Exec W Word} {gas : ℕ} {w x : Word} {rest : List Word}
    {Q : Bounce → VM W → Prop} (hio : s.ioGas ≤ maxInt63) (hspp : s.spp = x :: rest)
    (he : e { s with ioGas := s.ioGas - gas, runGas := gas } =
      .ok w { s with ioGas := s.ioGas - gas, runGas := gas })
    (hQ : gas ≤ s.ioGas → Q .interpretCases
      { s with ioGas := s.ioGas - gas, runGas := gas, spp := w :: rest, pc := s.pc + 1 })
    (hE : s.ioGas < gas → ∀ t, E .OutOfGas t) : Runs (priced gas e) s Q E := by
  refine runs_bind (runs_toInt63_exact (fun _ => ?_) fun hlarge => hE (by omega) s)
  exact runs_bind (runs_setRunGas (runs_ordinary hspp he hQ fun hlt => hE hlt _))

theorem Reads.exists_ok {m : Exec W α} (h : Reads m s) : ∃ a, m s = .ok a s := by
  have hrun : Runs m s (fun _ t => t = s) fun _ _ => False := h.runs fun _ => rfl
  obtain ⟨a, t, hm, rfl⟩ := hrun.exists_ok
  exact ⟨a, hm⟩

end Cases

section Memory

/-- The machine that is about to run a case. -/
structure Ready (face : ExtVMFace W) (s : VM W) : Prop where
  tabled : face.evmSchedule.Tabled
  paid : MemoryPaid face s
  runGas : s.runGas ≤ 100000
  copyMemSize : s.copyMemSize = 0

/-- A machine that has set the price of its own. -/
theorem Ready.paid_with (h : Ready face s) (gas copy : ℕ) :
    MemoryPaid face { s with runGas := gas, copyMemSize := copy } := ⟨h.paid.whole, h.paid.paid⟩

theorem due_of_zero {need : ℕ} (h : s.copyMemSize = 0) :
    due face need s = s.runGas + expansion face.evmSchedule s.mem.length need := by
  rw [due, h, copyPrice_zero, Nat.add_zero]

theorem ofList_grow (mem : Bytes) (need : ℕ) : ofList (grow mem need) = ofList mem :=
  ofList_append_zeros _ _

variable {x : Word} {rest : List Word} {Q : Bounce → VM W → Prop}

theorem Ready.small (h : Ready face s) :
    s.runGas + copyPrice face.evmSchedule s.copyMemSize ≤ 2 ^ 63 := by
  have hrun := h.runGas
  rw [h.copyMemSize, copyPrice_zero]
  omega

/-- The access is cut to 32 bits, which never leads out of the memory. -/
theorem Ready.mload (h : Ready face s) (hargs : 0 < s.sp.length) (hspp : s.spp = x :: rest)
    (hQ : due face ((operand s.sp 0).toNat + 32) s ≤ s.ioGas → Q .interpretCases
      { paidFor face ((operand s.sp 0).toNat + 32) s with
        spp := ofBytes (load (ofList s.mem) ((operand s.sp 0).toNat % 2 ^ 32) 32) :: rest
        pc := s.pc + 1 })
    (hE : s.ioGas < due face ((operand s.sp 0).toNat + 32) s → ∀ t, E .OutOfGas t) :
    Runs (mload face) s Q E := by
  have hlen := need_le_grow s.mem ((operand s.sp 0).toNat + 32)
  have hcut := Nat.mod_le (operand s.sp 0).toNat (2 ^ 32)
  have hfits : (operand s.sp 0).toNat % 2 ^ 32 + 32 ≤
      (grow s.mem ((operand s.sp 0).toNat + 32)).length := by omega
  rw [← ofList_grow s.mem ((operand s.sp 0).toNat + 32), load_ofList hfits] at hQ
  refine runs_bind (runs_item_exact hargs ?_)
  refine runs_reach h.tabled h.paid le_rfl h.small (fun hle => ?_) hE
  refine runs_bind (runs_memSlice_exact (Or.inr hfits) ?_)
  exact runs_bind (runs_setTop_exact hspp (runs_nextPC (hQ hle)))

/-- What a store leaves in the memory. -/
structure Stored (mem : Bytes) (offset need : ℕ) (b mem' : Bytes) : Prop where
  length : mem'.length = max mem.length (rounded need)
  cells : ofList mem' = store (ofList mem) offset b

theorem stored_overwrite {mem b : Bytes} {offset need : ℕ}
    (hfits : b.length = 0 ∨ offset + b.length ≤ (grow mem need).length) :
    Stored mem offset need b (overwrite (grow mem need) offset b) where
  length := by rw [length_overwrite hfits, length_grow]
  cells := by rw [ofList_overwrite hfits, ofList_grow]

theorem length_toBytes (w : Word) : (toBytes w).length = 32 := (H256.ofNat w.toNat).size

theorem Ready.mstore (h : Ready face s) (hargs : 1 < s.sp.length)
    (hQ : ∀ mem, due face ((operand s.sp 0).toNat + 32) s ≤ s.ioGas →
      Stored s.mem ((operand s.sp 0).toNat % 2 ^ 32) ((operand s.sp 0).toNat + 32)
        (toBytes (operand s.sp 1)) mem →
      Q .interpretCases
        { paidFor face ((operand s.sp 0).toNat + 32) s with mem := mem, pc := s.pc + 1 })
    (hE : s.ioGas < due face ((operand s.sp 0).toNat + 32) s → ∀ t, E .OutOfGas t) :
    Runs (mstore face) s Q E := by
  have hlen := need_le_grow s.mem ((operand s.sp 0).toNat + 32)
  have hcut := Nat.mod_le (operand s.sp 0).toNat (2 ^ 32)
  have hfits : (operand s.sp 0).toNat % 2 ^ 32 + (toBytes (operand s.sp 1)).length ≤
      (grow s.mem ((operand s.sp 0).toNat + 32)).length := by
    rw [length_toBytes]
    omega
  refine runs_bind (runs_item_exact (by omega) ?_)
  refine runs_reach h.tabled h.paid le_rfl h.small (fun hle => ?_) hE
  refine runs_bind (runs_item_exact hargs ?_)
  refine runs_bind (runs_memWrite_exact (Or.inr hfits) (runs_nextPC ?_))
  exact hQ _ hle (stored_overwrite (Or.inr hfits))

theorem Ready.mstore8 (h : Ready face s) (hargs : 1 < s.sp.length)
    (hQ : ∀ mem, due face ((operand s.sp 0).toNat + 1) s ≤ s.ioGas →
      Stored s.mem ((operand s.sp 0).toNat % 2 ^ 32) ((operand s.sp 0).toNat + 1)
        [UInt8.ofNat (operand s.sp 1).toNat] mem →
      Q .interpretCases
        { paidFor face ((operand s.sp 0).toNat + 1) s with mem := mem, pc := s.pc + 1 })
    (hE : s.ioGas < due face ((operand s.sp 0).toNat + 1) s → ∀ t, E .OutOfGas t) :
    Runs (mstore8 face) s Q E := by
  have hlen := need_le_grow s.mem ((operand s.sp 0).toNat + 1)
  have hcut := Nat.mod_le (operand s.sp 0).toNat (2 ^ 32)
  have hfits : (operand s.sp 0).toNat % 2 ^ 32 + [UInt8.ofNat (operand s.sp 1).toNat].length ≤
      (grow s.mem ((operand s.sp 0).toNat + 1)).length := by
    rw [List.length_singleton]
    omega
  refine runs_bind (runs_item_exact (by omega) ?_)
  refine runs_reach h.tabled h.paid (by norm_num) h.small (fun hle => ?_) hE
  refine runs_bind (runs_item_exact hargs ?_)
  refine runs_bind (runs_memWrite_exact (Or.inr hfits) (runs_nextPC ?_))
  exact hQ _ hle (stored_overwrite (Or.inr hfits))

theorem needed_fits {offset size : Word} {mem : Bytes} (hneed : needed offset size ≤ maxInt63)
    (hmem : needed offset size ≤ mem.length) :
    u64 size.toNat = size.toNat ∧ (size.toNat ≠ 0 → u64 offset.toNat = offset.toNat) ∧
      (size.toNat = 0 ∨ offset.toNat + size.toNat ≤ mem.length) := by
  unfold maxInt63 at hneed
  by_cases hsize : size = 0
  · subst hsize
    exact ⟨rfl, fun h => absurd rfl h, Or.inl rfl⟩
  · rw [needed, if_pos hsize] at hneed hmem
    exact ⟨u64_of_lt (by omega), fun _ => u64_of_lt (by omega), Or.inr hmem⟩

theorem needed_slice {offset size : Word} {mem : Bytes} (hneed : needed offset size ≤ maxInt63)
    (hmem : needed offset size ≤ mem.length) :
    u64 size.toNat = 0 ∨ u64 offset.toNat + u64 size.toNat ≤ mem.length := by
  obtain ⟨hsize, hoffset, hfits⟩ := needed_fits hneed hmem
  rw [hsize]
  by_cases hnone : size.toNat = 0
  · exact Or.inl hnone
  · rw [hoffset hnone]
    exact hfits

/-- Copying is reading from the source with zeros behind its end. -/
theorem runs_copyDataToMemory_exact {data : Bytes} {i : ℕ} {Q : Unit → VM W → Prop}
    (hargs : i + 2 < s.sp.length) (hdata : data.length < 2 ^ 64)
    (hneed : needed (operand s.sp i) (operand s.sp (i + 2)) ≤ maxInt63)
    (hmem : needed (operand s.sp i) (operand s.sp (i + 2)) ≤ s.mem.length)
    (hQ : ∀ mem : Bytes, mem.length = s.mem.length →
      ofList mem = store (ofList s.mem) (operand s.sp i).toNat (load (ofList data)
        (operand s.sp (i + 1)).toNat (operand s.sp (i + 2)).toNat) → Q () { s with mem := mem }) :
    Runs (copyDataToMemory data i) s Q E := by
  obtain ⟨hsize, hoffset, hfits⟩ := needed_fits hneed hmem
  refine runs_bind (runs_item_exact (by omega) ?_)
  refine runs_bind (runs_item_exact (by omega) ?_)
  refine runs_bind (runs_item_exact hargs ?_)
  generalize operand s.sp i = a at *
  generalize operand s.sp (i + 1) = bigIndex at *
  generalize operand s.sp (i + 2) = n at *
  rw [hsize]
  have hcopied : (if bigIndex.toNat + n.toNat > data.length then
      (if data.length < bigIndex.toNat then 0 else data.length - u64 bigIndex.toNat)
      else n.toNat) = min n.toNat (data.length - bigIndex.toNat) := by
    by_cases hover : bigIndex.toNat + n.toNat > data.length
    · rw [if_pos hover]
      by_cases hpast : data.length < bigIndex.toNat
      · rw [if_pos hpast]
        omega
      · rw [if_neg hpast, u64_of_lt (by omega)]
        omega
    · rw [if_neg hover]
      omega
  simp only [hcopied]
  have hindex : (data.drop (u64 bigIndex.toNat)).take (min n.toNat (data.length - bigIndex.toNat)) =
      (data.drop bigIndex.toNat).take (min n.toNat (data.length - bigIndex.toNat)) := by
    by_cases hzero : min n.toNat (data.length - bigIndex.toNat) = 0
    · rw [hzero, List.take_zero, List.take_zero]
    · rw [u64_of_lt (by omega)]
  have hread : min n.toNat (data.length - bigIndex.toNat) = 0 ∨
      u64 bigIndex.toNat + min n.toNat (data.length - bigIndex.toNat) ≤ data.length := by
    by_cases hzero : min n.toNat (data.length - bigIndex.toNat) = 0
    · exact Or.inl hzero
    · rw [u64_of_lt (by omega)]
      omega
  refine runs_bind (runs_slice_exact hread ?_)
  rw [hindex]
  have hfirst : ((data.drop bigIndex.toNat).take
      (min n.toNat (data.length - bigIndex.toNat))).length =
      min n.toNat (data.length - bigIndex.toNat) := by
    rw [List.length_take, List.length_drop]
    omega
  have hwindow := load_ofList_clamped data bigIndex.toNat n.toNat
  by_cases hnone : n.toNat = 0
  · -- Nothing is copied, wherever to.
    rw [hnone, Nat.zero_min] at hwindow ⊢
    rw [List.take_zero]
    refine runs_bind (runs_memWrite_exact (Or.inl rfl) (runs_memWrite_exact (Or.inl rfl) ?_))
    refine hQ _ ?_ ?_
    · simp only [Nat.sub_zero, List.replicate_zero, overwrite_nil]
    · simp only [Nat.sub_zero, List.replicate_zero, overwrite_nil, hnone]
      exact (store_nil _ _).symm
  · rw [hoffset hnone]
    have hin := hfits.resolve_left hnone
    have hfit₁ : a.toNat + ((data.drop bigIndex.toNat).take
        (min n.toNat (data.length - bigIndex.toNat))).length ≤ s.mem.length := by
      rw [hfirst]
      omega
    have hlen₁ := length_overwrite (Or.inr hfit₁)
    have hfit₂ : a.toNat + min n.toNat (data.length - bigIndex.toNat) +
        (List.replicate (n.toNat - min n.toNat (data.length - bigIndex.toNat)) (0 : UInt8)).length ≤
        (overwrite s.mem a.toNat ((data.drop bigIndex.toNat).take
          (min n.toNat (data.length - bigIndex.toNat)))).length := by
      rw [hlen₁, List.length_replicate]
      omega
    refine runs_bind (runs_memWrite_exact (Or.inr hfit₁) (runs_memWrite_exact (Or.inr hfit₂) ?_))
    refine hQ _ ((length_overwrite (Or.inr hfit₂)).trans hlen₁) ?_
    rw [ofList_overwrite (Or.inr hfit₂), ofList_overwrite (Or.inr hfit₁), hwindow]
    have happend : store (store (ofList s.mem) a.toNat _) (a.toNat + _) _ = _ := store_append
      ((data.drop bigIndex.toNat).take (min n.toNat (data.length - bigIndex.toNat)))
      (List.replicate (n.toNat - min n.toNat (data.length - bigIndex.toNat)) (0 : UInt8))
    rw [hfirst] at happend
    exact happend

theorem needed_large (offset : Word) {size : Word} (h : maxInt63 < size.toNat) :
    maxInt63 < needed offset size := by
  have hsize : size ≠ 0 := by
    rintro rfl
    exact absurd h (by decide)
  rw [needed, if_pos hsize]
  omega

theorem copyPrice_le {es : EVMSchedule} (hes : es.Tabled) {n : ℕ} (hn : n ≤ maxInt63) :
    copyPrice es n ≤ 2 ^ 62 := by
  unfold maxInt63 at hn
  rw [copyPrice, hes.copyGas]
  omega

/-- The copying instructions; `b` is the source. -/
theorem Ready.copyCase {i : ℕ} {data : Exec W Bytes} {b : Bytes} (h : Ready face s)
    (hargs : i + 2 < s.sp.length) (hb : b.length < 2 ^ 64)
    (hdata : ∀ t : VM W, t.sp = s.sp → t.ext = s.ext → data t = .ok b t)
    (hQ : ∀ mem : Bytes,
      due face (needed (operand s.sp i) (operand s.sp (i + 2)))
        { s with copyMemSize := (operand s.sp (i + 2)).toNat } ≤ s.ioGas →
      Stored s.mem (operand s.sp i).toNat (needed (operand s.sp i) (operand s.sp (i + 2)))
        (load (ofList b) (operand s.sp (i + 1)).toNat (operand s.sp (i + 2)).toNat) mem →
      Q .interpretCases
        { paidFor face (needed (operand s.sp i) (operand s.sp (i + 2)))
            { s with copyMemSize := (operand s.sp (i + 2)).toNat } with
          mem := mem
          pc := s.pc + 1 })
    (hE : s.ioGas < due face (needed (operand s.sp i) (operand s.sp (i + 2)))
      { s with copyMemSize := (operand s.sp (i + 2)).toNat } → ∀ t, E .OutOfGas t) :
    Runs (copyCase face i data) s Q E := by
  have hrun := h.runGas
  refine runs_bind (runs_item_exact hargs ?_)
  refine runs_bind (runs_toInt63_exact (fun hcopy => ?_) fun hlarge => hE ?_ s)
  · refine runs_bind (runs_modify (runs_bind (runs_item_exact (show i < s.sp.length by omega) ?_)))
    have hcopyPrice := copyPrice_le h.tabled hcopy
    refine runs_span h.tabled (h.paid_with _ _) (by simp only; omega) (fun hneed hle => ?_) hE
    refine runs_bind (runs_of_ok (hdata _ rfl rfl) ?_)
    refine runs_bind (runs_copyDataToMemory_exact hargs hb hneed (need_le_grow _ _)
      fun mem hlen hcells => runs_nextPC (hQ mem hle ⟨hlen.trans (length_grow _ _), ?_⟩))
    rw [hcells]
    exact congrArg (fun m => store m _ _) (ofList_grow _ _)
  · have hexp := h.paid.expansion_large h.tabled (needed_large (operand s.sp i) hlarge)
    show s.ioGas < s.runGas + expansion face.evmSchedule s.mem.length _ + _
    omega

end Memory

end VM
end XChain
