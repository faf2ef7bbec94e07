import XChain.VM

/-!
# Rules for the parts of an instruction

What each read, write and payment of the machine needs and leaves behind. A rule
takes the assertion after the part at the state the part ends in, so that a case of
the switch is run by applying the rules in the order of the source.
-/
namespace XChain
namespace VM

open Machine

variable {W : Type} {face : ExtVMFace W} {s : VM W} {E : VMException → VM W → Prop}

section Numbers

theorem u64_of_lt {n : ℕ} (hn : n < 2 ^ 64) : u64 n = n := Nat.mod_eq_of_lt hn

theorem u32_of_lt {n : ℕ} (hn : n < 2 ^ 32) : u32 n = n := Nat.mod_eq_of_lt hn

theorem u512_of_lt {n : ℕ} (hn : n < 2 ^ 512) : u512 n = n := Nat.mod_eq_of_lt hn

variable {es : EVMSchedule}

/-- The prices that are computed from the operands fit the types they are computed in. -/
theorem exp_price (hs : es.Priced) {k : ℕ} (hk : k ≤ 32) :
    u32 (es.expGas + u32 (es.expByteGas * k)) = es.expGas + es.expByteGas * k := by
  have hbase := hs.small es.expGas (by simp)
  have hbyte := Nat.mul_le_mul (hs.small es.expByteGas (by simp)) hk
  rw [u32_of_lt (show es.expByteGas * k < 2 ^ 32 by omega), u32_of_lt (by omega)]

theorem sha3_price (hs : es.Priced) (size : Word) :
    u512 (es.sha3Gas + u512 (u512 (size.toNat + 31) / 32 * es.sha3WordGas)) =
      es.sha3Gas + (size.toNat + 31) / 32 * es.sha3WordGas := by
  have hsize := size.isLt
  have hbase := hs.small es.sha3Gas (by simp)
  have hwords : (size.toNat + 31) / 32 ≤ 2 ^ 256 := by omega
  have hword := Nat.mul_le_mul hwords (hs.small es.sha3WordGas (by simp))
  rw [u512_of_lt (show size.toNat + 31 < 2 ^ 512 by omega),
    u512_of_lt (show (size.toNat + 31) / 32 * es.sha3WordGas < 2 ^ 512 by omega),
    u512_of_lt (by omega)]

theorem log_price (hs : es.Priced) {n : ℕ} (hn : n < 5) (size : Word) :
    u512 (u32 (es.logGas + u32 (es.logTopicGas * n)) + u512 (es.logDataGas * size.toNat)) =
      es.logGas + es.logTopicGas * n + es.logDataGas * size.toNat := by
  have hbase := hs.small es.logGas (by simp)
  have htopic := Nat.mul_le_mul (hs.small es.logTopicGas (by simp)) hn.le
  have hdata := Nat.mul_le_mul (hs.small es.logDataGas (by simp)) size.isLt.le
  rw [u32_of_lt (show es.logTopicGas * n < 2 ^ 32 by omega), u32_of_lt (by omega),
    u512_of_lt (show es.logDataGas * size.toNat < 2 ^ 512 by omega), u512_of_lt (by omega)]

end Numbers

section Access

theorem runs_item {i : ℕ} {Q : Word → VM W → Prop} (hi : i < s.sp.length)
    (h : ∀ w, s.sp[i]? = some w → Q w s) : Runs (item i) s Q E := by
  have hw : s.sp[i]? = some s.sp[i] := List.getElem?_eq_getElem hi
  unfold item
  refine runs_bind (runs_get ?_)
  rw [hw]
  exact runs_pure (h _ hw)

theorem runs_top {Q : Word → VM W → Prop} (hspp : 0 < s.spp.length) (h : ∀ w, Q w s) :
    Runs top s Q E := by
  unfold top
  refine runs_bind (runs_get ?_)
  rw [List.getElem?_eq_getElem hspp]
  exact runs_pure (h _)

theorem runs_setTop {w : Word} {Q : Unit → VM W → Prop} (hspp : 0 < s.spp.length)
    (h : ∀ l, l.length = s.spp.length → Q () { s with spp := l }) : Runs (setTop w) s Q E := by
  unfold setTop
  refine runs_bind (runs_get ?_)
  cases hs : s.spp with
  | nil => simp [hs] at hspp
  | cons x rest => exact runs_set (h _ (by simp [hs]))

theorem runs_codeByte {pc : ℕ} {Q : UInt8 → VM W → Prop} (hpc : pc < s.code.length)
    (h : ∀ b, s.code[pc]? = some b → Q b s) : Runs (codeByte pc) s Q E := by
  have hb : s.code[pc]? = some s.code[pc] := List.getElem?_eq_getElem hpc
  unfold codeByte
  refine runs_bind (runs_get ?_)
  rw [hb]
  exact runs_pure (h _ hb)

theorem runs_slice {b : Bytes} {offset size : ℕ} {Q : Bytes → VM W → Prop}
    (hb : size = 0 ∨ offset + size ≤ b.length) (h : ∀ c, c.length = size → Q c s) :
    Runs (slice b offset size) s Q E := by
  unfold slice
  rw [if_pos hb]
  refine runs_pure (h _ ?_)
  rw [List.length_take, List.length_drop]
  omega

theorem runs_memSlice {offset size : ℕ} {Q : Bytes → VM W → Prop}
    (hb : size = 0 ∨ offset + size ≤ s.mem.length) (h : ∀ c, Q c s) :
    Runs (memSlice offset size) s Q E := by
  unfold memSlice
  exact runs_bind (runs_get (runs_slice hb fun c _ => h c))

theorem runs_memWrite {offset : ℕ} {b : Bytes} {Q : Unit → VM W → Prop}
    (hb : b.length = 0 ∨ offset + b.length ≤ s.mem.length)
    (h : ∀ m, m.length = s.mem.length → Q () { s with mem := m }) :
    Runs (memWrite offset b) s Q E := by
  unfold memWrite
  refine runs_bind (runs_get ?_)
  rw [if_pos hb]
  refine runs_set (h _ ?_)
  simp only [List.length_append, List.length_take, List.length_drop]
  omega

/-- A program that only reads, and does not fail. -/
def Reads {α : Type} (m : Exec W α) (s : VM W) : Prop :=
  Runs m s (fun _ s' => s' = s) fun _ _ => False

theorem Reads.runs {α : Type} {m : Exec W α} {Q : α → VM W → Prop} (hm : Reads m s)
    (h : ∀ a, Q a s) : Runs m s Q E := by
  refine Runs.mono hm ?_ ?_
  · intro a s' hs
    rw [hs]
    exact h a
  · intro e s' hfalse
    exact hfalse.elim

theorem reads_item {i : ℕ} (hi : i < s.sp.length) : Reads (item i) s :=
  runs_item hi fun _ _ => rfl

theorem reads_nullary {f : VM W → Word} : Reads (nullary f) s := runs_bind (runs_get rfl)

theorem reads_unary {f : VM W → Word → Word} (hargs : 1 ≤ s.sp.length) : Reads (unary f) s := by
  unfold unary
  refine runs_bind (runs_get (runs_bind (runs_item hargs fun a _ => ?_)))
  exact runs_pure rfl

theorem reads_binary {f : Word → Word → Word} (hargs : 2 ≤ s.sp.length) : Reads (binary f) s := by
  unfold binary
  refine runs_bind (runs_item (by omega) fun a _ => ?_)
  refine runs_bind (runs_item (by omega) fun b _ => ?_)
  exact runs_pure rfl

theorem reads_ternary {f : Word → Word → Word → Word} (hargs : 3 ≤ s.sp.length) :
    Reads (ternary f) s := by
  unfold ternary
  refine runs_bind (runs_item (by omega) fun a _ => ?_)
  refine runs_bind (runs_item (by omega) fun b _ => ?_)
  refine runs_bind (runs_item (by omega) fun c _ => ?_)
  exact runs_pure rfl

theorem reads_calldataload (hargs : 1 ≤ s.sp.length) : Reads (calldataload face) s := by
  unfold calldataload
  refine runs_bind (runs_item hargs fun a _ => ?_)
  have hdata := face.size_data
  have ha := a.isLt
  refine runs_ite (fun hlt => ?_) fun _ => ?_
  · rw [u512_of_lt (by omega)] at hlt
    rw [u64_of_lt (by omega)]
    refine runs_bind (runs_slice (Or.inr (by omega)) fun b _ => ?_)
    exact runs_pure rfl
  · exact runs_ite (fun _ => runs_pure rfl) fun _ => runs_pure rfl

theorem reads_topics {n : ℕ} (hargs : n + 2 ≤ s.sp.length) : Reads (topics n) s := by
  induction n with
  | zero => exact runs_pure rfl
  | succ n ih =>
    refine runs_bind ((ih (by omega)).runs fun ts => ?_)
    refine runs_bind (runs_item (by omega) fun t _ => ?_)
    exact runs_pure rfl

end Access

section Metering

/-- The largest size and price. -/
def maxInt63 : ℕ := 0x7FFFFFFFFFFFFFFF

theorem runs_toInt63 {v : ℕ} {Q : ℕ → VM W → Prop} (hQ : v ≤ maxInt63 → Q v s)
    (hE : E .OutOfGas s) : Runs (toInt63 v) s Q E := by
  unfold toInt63
  refine runs_ite (fun _ => runs_throw hE) fun hv => runs_pure (hQ ?_)
  unfold maxInt63
  omega

theorem runs_memNeed {offset size : Word} {Q : ℕ → VM W → Prop}
    (hQ : ∀ need ≤ maxInt63, (size ≠ 0 → offset.toNat + size.toNat ≤ need) → Q need s)
    (hE : E .OutOfGas s) : Runs (memNeed offset size) s Q E := by
  unfold memNeed
  refine runs_toInt63 (fun hv => hQ _ hv fun hsize => ?_) hE
  rw [if_pos hsize, u512_of_lt (by omega)]

theorem runs_setRunGas {gas : ℕ} {Q : Unit → VM W → Prop} (hQ : Q () { s with runGas := gas }) :
    Runs (setRunGas gas) s Q E := runs_modify hQ

theorem runs_updateIOGas {Q : Unit → VM W → Prop}
    (hQ : s.runGas ≤ s.ioGas → Q () { s with ioGas := s.ioGas - s.runGas })
    (hE : E .OutOfGas s) : Runs updateIOGas s Q E := by
  unfold updateIOGas
  refine runs_bind (runs_get ?_)
  refine runs_ite (fun _ => runs_throw hE) fun hle => runs_set (hQ (by omega))

/-- What is paid for the bytes that are copied. -/
def copyCost (face : ExtVMFace W) (s : VM W) : ℕ :=
  u64 (face.evmSchedule.copyGas * ((s.copyMemSize + 31) / 32))

/-- The price only grows unless it is near 2^63 before. -/
theorem runs_updateGas {Q : Unit → VM W → Prop}
    (hQ : ∀ r, (s.runGas + copyCost face s ≤ 2 ^ 63 → s.runGas ≤ r) → Q () { s with runGas := r })
    (hE : ∀ r, E .OutOfGas { s with runGas := r }) : Runs (updateGas face) s Q E := by
  -- What follows the price of the new memory `d`.
  have hrest : ∀ d ≤ maxInt63, Runs (do
      modify fun s => { s with runGas := u64 (s.runGas + copyCost face s) }
      let s ← get
      if s.ioGas < s.runGas then throw .OutOfGas else pure ())
      { s with runGas := u64 (s.runGas + d) } Q E := by
    intro d hd
    refine runs_bind (runs_modify (runs_bind (runs_get ?_)))
    refine runs_ite (fun _ => runs_throw (hE _)) fun _ => runs_pure (hQ _ fun hsmall => ?_)
    unfold maxInt63 at hd
    show s.runGas ≤ u64 (u64 (s.runGas + d) + copyCost face s)
    rw [u64_of_lt (show s.runGas + d < 2 ^ 64 by omega), u64_of_lt (by omega)]
    omega
  unfold updateGas
  refine runs_bind (runs_get (runs_bind ?_))
  refine runs_ite (fun _ => ?_) fun _ => ?_
  · unfold gasForMem
    refine runs_bind (runs_toInt63 (fun _ => ?_) (hE s.runGas))
    refine runs_bind (runs_toInt63 (fun _ => ?_) (hE s.runGas))
    refine runs_bind (runs_toInt63 (fun hd => ?_) (hE s.runGas))
    exact runs_modify (hrest _ hd)
  · refine runs_pure (runs_bind (runs_modify (runs_bind (runs_get ?_))))
    refine runs_ite (fun _ => runs_throw (hE _)) fun _ => runs_pure (hQ _ fun hsmall => ?_)
    show s.runGas ≤ u64 (s.runGas + copyCost face s)
    rw [u64_of_lt (by omega)]
    omega

theorem runs_updateMem {newMem : ℕ} {Q : Unit → VM W → Prop} (hnew : newMem ≤ maxInt63 + 32)
    (hQ : ∀ r m (mem : Bytes), newMem ≤ mem.length →
      (s.runGas + copyCost face s ≤ 2 ^ 63 → s.runGas ≤ r) →
      Q () { s with runGas := r, newMemSize := m, mem := mem })
    (hE : ∀ r m, E .OutOfGas { s with runGas := r, newMemSize := m }) :
    Runs (updateMem face newMem) s Q E := by
  unfold updateMem
  refine runs_bind (runs_modify (runs_bind (runs_updateGas (fun r hr => ?_) fun r => hE r _)))
  refine runs_modify (hQ r _ _ ?_ hr)
  unfold maxInt63 at hnew
  rw [List.length_append, List.length_replicate]
  show newMem ≤ s.mem.length + (u64 (newMem + 31) / 32 * 32 - s.mem.length)
  rw [u64_of_lt (by omega)]
  omega

theorem copyCost_zero (h : s.copyMemSize = 0) : copyCost face s = 0 := by
  simp [copyCost, u64, h]

/-- Pays for the memory and for the instruction, and goes on with the gas `g`. -/
theorem runs_pay {α : Type} {rest : Exec W α} {newMem : ℕ} {Q : α → VM W → Prop}
    (hnew : newMem ≤ maxInt63 + 32)
    (hQ : ∀ r m (mem : Bytes) g, newMem ≤ mem.length → g ≤ s.ioGas →
      (s.runGas + copyCost face s ≤ 2 ^ 63 → g + s.runGas ≤ s.ioGas) →
      Runs rest { s with runGas := r, newMemSize := m, mem := mem, ioGas := g } Q E)
    (hE : ∀ t : VM W, t.ioGas = s.ioGas → E .OutOfGas t) :
    Runs (do
      updateMem face newMem
      updateIOGas
      rest) s Q E := by
  refine runs_bind (runs_updateMem hnew (fun r m mem hmem hr => ?_) fun r m => hE _ rfl)
  refine runs_bind (runs_updateIOGas (fun hle => ?_) (hE _ rfl))
  have hle' : r ≤ s.ioGas := hle
  refine hQ r m mem (s.ioGas - r) hmem (by omega) fun hsmall => ?_
  have h1 := hr hsmall
  omega

theorem runs_verifyJumpDest {dest : Word} {Q : ℕ → VM W → Prop}
    (hQ : ∀ pc ∈ s.jumpDests, Q pc s) (hE : E .BadJumpDestination s) :
    Runs (verifyJumpDest dest) s Q E := by
  unfold verifyJumpDest
  refine runs_bind (runs_get ?_)
  refine runs_ite (fun h => runs_pure (hQ _ ?_)) fun _ => runs_throw hE
  have hhead := h.2
  simp only [binarySearch, beq_iff_eq] at hhead
  have hmem := List.mem_of_head? hhead
  exact (List.dropWhile_sublist _).subset hmem

end Metering

end VM
end XChain
