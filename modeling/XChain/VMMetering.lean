import XChain.VMRuns

/-!
# What is paid for

The exact prices of the memory. A machine has paid for its memory, so that the price of a
larger one is never near 2^64 when it can still be paid: the 64-bit sums of the source are
the sums of the numbers, or the instruction runs out of gas.
-/
namespace XChain

/-- What the schedules that are defined have in common. -/
structure EVMSchedule.Tabled (s : EVMSchedule) : Prop extends s.Priced where
  memoryGas : s.memoryGas = 3
  quadCoeffDiv : s.quadCoeffDiv = 512
  jumpdestGas : s.jumpdestGas = 1
  fees : ∀ price ∈ [s.sloadGas, s.sstoreSetGas,
    s.sstoreResetGas, s.logGas, s.logDataGas, s.logTopicGas, s.extcodesizeGas, s.balanceGas],
    price ≤ 100000

theorem tabled_of_mem {s : EVMSchedule} (hs : s ∈ schedules) : s.Tabled := by
  refine { toPriced := priced_of_mem hs, memoryGas := ?_, quadCoeffDiv := ?_, jumpdestGas := ?_,
           fees := ?_ } <;>
    simp only [schedules, List.mem_cons, List.not_mem_nil, or_false] at hs <;>
    rcases hs with rfl | rfl | rfl | rfl | rfl | rfl <;> decide

namespace VM

open Machine

variable {W : Type} {α : Type} {face : ExtVMFace W} {s : VM W} {E : VMException → VM W → Prop}

section Prices

/-- The price of a memory of whole words, as a number. -/
def memoryCost (es : EVMSchedule) (size : ℕ) : ℕ :=
  es.memoryGas * (size / 32) + size / 32 * (size / 32) / es.quadCoeffDiv

/-- The size of the words that hold so many bytes. -/
def rounded (n : ℕ) : ℕ := (n + 31) / 32 * 32

/-- The price of a memory of the given size for reaching up to `need`. -/
def expansion (es : EVMSchedule) (size need : ℕ) : ℕ :=
  memoryCost es (max size (rounded need)) - memoryCost es size

/-- The price of the words that are copied. -/
def copyPrice (es : EVMSchedule) (n : ℕ) : ℕ := es.copyGas * ((n + 31) / 32)

/-- The memory after it was extended to reach up to `need`. -/
def grow (mem : Bytes) (need : ℕ) : Bytes := mem ++ List.replicate (rounded need - mem.length) 0

theorem memoryCost_mono (es : EVMSchedule) {m n : ℕ} (h : m ≤ n) :
    memoryCost es m ≤ memoryCost es n := by
  have hwords : m / 32 ≤ n / 32 := Nat.div_le_div_right h
  exact Nat.add_le_add (Nat.mul_le_mul_left _ hwords)
    (Nat.div_le_div_right (Nat.mul_le_mul hwords hwords))

theorem expansion_add (es : EVMSchedule) (size need : ℕ) :
    expansion es size need + memoryCost es size = memoryCost es (max size (rounded need)) :=
  Nat.sub_add_cancel (memoryCost_mono es (le_max_left _ _))

theorem le_rounded (n : ℕ) : n ≤ rounded n := by
  unfold rounded
  omega

theorem length_grow (mem : Bytes) (need : ℕ) :
    (grow mem need).length = max mem.length (rounded need) := by
  rw [grow, List.length_append, List.length_replicate]
  omega

theorem need_le_grow (mem : Bytes) (need : ℕ) : need ≤ (grow mem need).length := by
  rw [length_grow]
  exact (le_rounded need).trans (le_max_right _ _)

/-- The price of a memory fits 512 bits. -/
theorem gasForMem_eq {es : EVMSchedule} (hes : es.Tabled) {n : ℕ} (hn : n < 2 ^ 65) :
    u512 (u512 (es.memoryGas * (n / 32)) + u512 (n / 32 * (n / 32)) / es.quadCoeffDiv) =
      memoryCost es n := by
  have hwords : n / 32 ≤ 2 ^ 60 := by omega
  have hsquare : n / 32 * (n / 32) ≤ 2 ^ 60 * 2 ^ 60 := Nat.mul_le_mul hwords hwords
  rw [memoryCost, hes.memoryGas, hes.quadCoeffDiv, u512_of_lt (show 3 * (n / 32) < 2 ^ 512 by omega),
    u512_of_lt (show n / 32 * (n / 32) < 2 ^ 512 by omega), u512_of_lt (by omega)]

/-- A memory of 2^63 bytes costs more than any gas. -/
theorem memoryCost_large {es : EVMSchedule} (hes : es.Tabled) {n : ℕ} (hn : maxInt63 < n) :
    maxInt63 < memoryCost es n := by
  have hwords : 2 ^ 58 ≤ n / 32 := by
    unfold maxInt63 at hn
    omega
  have hsquare : 2 ^ 58 * 2 ^ 58 ≤ n / 32 * (n / 32) := Nat.mul_le_mul hwords hwords
  have hquad := Nat.div_le_div_right (c := 512) hsquare
  rw [memoryCost, hes.quadCoeffDiv]
  unfold maxInt63
  omega

end Prices

section Paying

/-- The memory is of whole words and was paid for from less than 2^63 units of gas. -/
structure MemoryPaid (face : ExtVMFace W) (s : VM W) : Prop where
  whole : s.mem.length % 32 = 0
  paid : memoryCost face.evmSchedule s.mem.length + s.ioGas ≤ maxInt63

theorem MemoryPaid.ioGas_le (h : MemoryPaid face s) : s.ioGas ≤ maxInt63 :=
  (Nat.le_add_left _ _).trans h.paid

theorem MemoryPaid.expansion_large (h : MemoryPaid face s) (hes : face.evmSchedule.Tabled)
    {need : ℕ} (hneed : maxInt63 < need) :
    s.ioGas < expansion face.evmSchedule s.mem.length need := by
  have hcost : maxInt63 < memoryCost face.evmSchedule (max s.mem.length (rounded need)) :=
    memoryCost_large hes (hneed.trans_le ((le_rounded need).trans (le_max_right _ _)))
  have hadd := expansion_add face.evmSchedule s.mem.length need
  have hpaid := h.paid
  omega

/-- What is to be paid: the price so far, the memory and the words that are copied. -/
def due (face : ExtVMFace W) (need : ℕ) (s : VM W) : ℕ :=
  s.runGas + expansion face.evmSchedule s.mem.length need +
    copyPrice face.evmSchedule s.copyMemSize

theorem runs_toInt63_exact {v : ℕ} {Q : ℕ → VM W → Prop} (hQ : v ≤ maxInt63 → Q v s)
    (hE : maxInt63 < v → E .OutOfGas s) : Runs (toInt63 v) s Q E := by
  unfold toInt63
  refine runs_ite (fun hv => runs_throw (hE hv)) fun hv => runs_pure (hQ ?_)
  exact Nat.not_lt.mp hv

theorem runs_updateIOGas_exact {Q : Unit → VM W → Prop}
    (hQ : s.runGas ≤ s.ioGas → Q () { s with ioGas := s.ioGas - s.runGas })
    (hE : s.ioGas < s.runGas → E .OutOfGas s) : Runs updateIOGas s Q E := by
  unfold updateIOGas
  refine runs_bind (runs_get ?_)
  exact runs_ite (fun hlt => runs_throw (hE hlt)) fun hle => runs_set (hQ (Nat.not_lt.mp hle))

/-- The sums of `updateGas` do not wrap. -/
theorem runs_updateGas_exact {need : ℕ} {Q : Unit → VM W → Prop} (hes : face.evmSchedule.Tabled)
    (hpaid : MemoryPaid face s) (hsize : s.newMemSize = rounded need)
    (hneed : need ≤ maxInt63 + 32)
    (hrun : s.runGas + copyPrice face.evmSchedule s.copyMemSize ≤ 2 ^ 63)
    (hQ : due face need s ≤ s.ioGas → Q () { s with runGas := due face need s })
    (hE : s.ioGas < due face need s → ∀ r, E .OutOfGas { s with runGas := r }) :
    Runs (updateGas face) s Q E := by
  have hadd := expansion_add face.evmSchedule s.mem.length need
  have hio := hpaid.paid
  have hdue : due face need s = s.runGas + expansion face.evmSchedule s.mem.length need +
    copyPrice face.evmSchedule s.copyMemSize := rfl
  have hmax : maxInt63 = 2 ^ 63 - 1 := rfl
  -- What follows the price of the new memory, which is the expansion.
  have hrest : expansion face.evmSchedule s.mem.length need ≤ maxInt63 → Runs (do
      modify fun s =>
        { s with runGas := u64 (s.runGas + u64 (copyPrice face.evmSchedule s.copyMemSize)) }
      let s ← get
      if s.ioGas < s.runGas then throw .OutOfGas else pure ())
      { s with runGas := s.runGas + expansion face.evmSchedule s.mem.length need } Q E := by
    intro hexp
    have hsum : u64 (s.runGas + expansion face.evmSchedule s.mem.length need +
        u64 (copyPrice face.evmSchedule s.copyMemSize)) = due face need s := by
      rw [u64_of_lt (show copyPrice face.evmSchedule s.copyMemSize < 2 ^ 64 by omega),
        u64_of_lt (by omega), hdue]
    refine runs_bind (runs_modify (runs_bind (runs_get ?_)))
    show Runs (if s.ioGas < u64 _ then throw .OutOfGas else pure ()) { s with runGas := u64 _ } Q E
    rw [hsum]
    exact runs_ite (fun hlt => runs_throw (hE hlt _)) fun hle => runs_pure (hQ (Nat.not_lt.mp hle))
  unfold updateGas
  refine runs_bind (runs_get (runs_bind ?_))
  refine runs_ite (fun hlt => ?_) fun hge => ?_
  · rw [hsize] at hlt ⊢
    have hgrows : max s.mem.length (rounded need) = rounded need := max_eq_right hlt.le
    rw [hgrows] at hadd
    have hold : memoryCost face.evmSchedule s.mem.length ≤ maxInt63 := by omega
    have hlen : s.mem.length ≤ maxInt63 := by
      by_contra hlarge
      exact absurd hold (Nat.not_le.mpr (memoryCost_large hes (Nat.not_le.mp hlarge)))
    have hround : rounded need < 2 ^ 65 := by
      unfold rounded
      omega
    unfold gasForMem
    rw [gasForMem_eq hes hround, gasForMem_eq hes (hlt.trans hround)]
    refine runs_bind (runs_toInt63_exact (fun hnew => ?_) fun hlarge => hE ?_ s.runGas)
    · have hnew' : memoryCost face.evmSchedule (rounded need) ≤ maxInt63 := hnew
      refine runs_bind (runs_toInt63_exact (fun _ => ?_) fun hlarge => ?_)
      · have hdiff : u64 (memoryCost face.evmSchedule (rounded need) + 2 ^ 64 -
            memoryCost face.evmSchedule s.mem.length) =
            expansion face.evmSchedule s.mem.length need := by
          unfold u64
          omega
        show Runs (toInt63 (u64 (memoryCost face.evmSchedule (rounded need) + 2 ^ 64 -
          memoryCost face.evmSchedule s.mem.length)) >>= _) s _ E
        rw [hdiff]
        refine runs_bind (runs_toInt63_exact (fun hexp => runs_modify ?_) fun hlarge => ?_)
        · rw [u64_of_lt (show s.runGas + expansion face.evmSchedule s.mem.length need < 2 ^ 64 by
            omega)]
          exact hrest hexp
        · omega
      · have hlarge' : maxInt63 < memoryCost face.evmSchedule s.mem.length := hlarge
        omega
    · have hlarge' : maxInt63 < memoryCost face.evmSchedule (rounded need) := hlarge
      omega
  · rw [hsize] at hge
    rw [max_eq_left (Nat.not_lt.mp hge)] at hadd
    have hzero : expansion face.evmSchedule s.mem.length need = 0 := by omega
    have hsame : s = { s with runGas := s.runGas + expansion face.evmSchedule s.mem.length need } := by
      rw [hzero]
      rfl
    refine runs_pure ?_
    rw [hsame]
    exact hrest (by omega)

theorem runs_updateMem_exact {need : ℕ} {Q : Unit → VM W → Prop} (hes : face.evmSchedule.Tabled)
    (hpaid : MemoryPaid face s) (hneed : need ≤ maxInt63 + 32)
    (hrun : s.runGas + copyPrice face.evmSchedule s.copyMemSize ≤ 2 ^ 63)
    (hQ : due face need s ≤ s.ioGas → Q () { s with
      runGas := due face need s, newMemSize := rounded need, mem := grow s.mem need })
    (hE : s.ioGas < due face need s → ∀ r m, E .OutOfGas { s with runGas := r, newMemSize := m }) :
    Runs (updateMem face need) s Q E := by
  have hround : u64 (need + 31) / 32 * 32 = rounded need := by
    unfold maxInt63 at hneed
    rw [u64_of_lt (by omega)]
    rfl
  unfold updateMem
  refine runs_bind (runs_modify ?_)
  rw [hround]
  refine runs_bind (runs_updateGas_exact hes ⟨hpaid.whole, hpaid.paid⟩ rfl hneed hrun (fun hle => ?_)
    fun hlt r => hE hlt r _)
  exact runs_modify (hQ hle)

/-- The machine after it has paid, with its memory extended. -/
def paidFor (face : ExtVMFace W) (need : ℕ) (s : VM W) : VM W :=
  { s with
    ioGas := s.ioGas - due face need s
    runGas := due face need s
    newMemSize := rounded need
    mem := grow s.mem need }

theorem runs_pay_exact {rest : Exec W α} {need : ℕ} {Q : α → VM W → Prop}
    (hes : face.evmSchedule.Tabled) (hpaid : MemoryPaid face s) (hneed : need ≤ maxInt63 + 32)
    (hrun : s.runGas + copyPrice face.evmSchedule s.copyMemSize ≤ 2 ^ 63)
    (hQ : due face need s ≤ s.ioGas → Runs rest (paidFor face need s) Q E)
    (hE : s.ioGas < due face need s → ∀ t, E .OutOfGas t) :
    Runs (do
      updateMem face need
      updateIOGas
      rest) s Q E := by
  refine runs_bind (runs_updateMem_exact hes hpaid hneed hrun (fun hle => ?_) fun hlt r m => hE hlt _)
  refine runs_bind (runs_updateIOGas_exact (fun _ => hQ hle) fun hlt => ?_)
  exact absurd hle (Nat.not_le.mpr hlt)

/-- The bytes that an access to `size` bytes needs. -/
def needed (offset size : Word) : ℕ := if size ≠ 0 then offset.toNat + size.toNat else 0

theorem runs_memNeed_exact {offset size : Word} {Q : ℕ → VM W → Prop}
    (hQ : needed offset size ≤ maxInt63 → Q (needed offset size) s)
    (hE : maxInt63 < needed offset size → E .OutOfGas s) : Runs (memNeed offset size) s Q E := by
  have hoffset := offset.isLt
  have hsize := size.isLt
  unfold memNeed
  rw [u512_of_lt (by omega)]
  exact runs_toInt63_exact hQ hE

/-- Pays for an access to `n` bytes. -/
theorem runs_reach {rest : Exec W α} {a : Word} {n : ℕ} {Q : α → VM W → Prop}
    (hes : face.evmSchedule.Tabled) (hpaid : MemoryPaid face s) (hn : n ≤ 32)
    (hrun : s.runGas + copyPrice face.evmSchedule s.copyMemSize ≤ 2 ^ 63)
    (hQ : due face (a.toNat + n) s ≤ s.ioGas → Runs rest (paidFor face (a.toNat + n) s) Q E)
    (hE : s.ioGas < due face (a.toNat + n) s → ∀ t, E .OutOfGas t) :
    Runs (do
      let offset ← toInt63 a.toNat
      updateMem face (u64 (offset + n))
      updateIOGas
      rest) s Q E := by
  refine runs_bind (runs_toInt63_exact (fun ha => ?_) fun hlarge => hE ?_ s)
  · rw [u64_of_lt (show a.toNat + n < 2 ^ 64 by unfold maxInt63 at ha; omega)]
    exact runs_pay_exact hes hpaid (by omega) hrun hQ hE
  · have hexp := hpaid.expansion_large hes (show maxInt63 < a.toNat + n by omega)
    unfold due
    omega

/-- Pays for an access to the bytes between an offset and the size behind it. -/
theorem runs_span {rest : Exec W α} {offset size : Word} {Q : α → VM W → Prop}
    (hes : face.evmSchedule.Tabled) (hpaid : MemoryPaid face s)
    (hrun : s.runGas + copyPrice face.evmSchedule s.copyMemSize ≤ 2 ^ 63)
    (hQ : needed offset size ≤ maxInt63 → due face (needed offset size) s ≤ s.ioGas →
      Runs rest (paidFor face (needed offset size) s) Q E)
    (hE : s.ioGas < due face (needed offset size) s → ∀ t, E .OutOfGas t) :
    Runs (do
      let need ← memNeed offset size
      updateMem face need
      updateIOGas
      rest) s Q E := by
  refine runs_bind (runs_memNeed_exact (fun hneed => ?_) fun hlarge => hE ?_ s)
  · exact runs_pay_exact hes hpaid (by omega) hrun (hQ hneed) hE
  · have hexp := hpaid.expansion_large hes hlarge
    unfold due
    omega

end Paying

end VM
end XChain
