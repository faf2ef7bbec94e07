import XChain.VMFrame
import XChain.VMRules

/-!
# The fetch of an instruction

How the parts of an instruction end, as equations: the fetch, by the height of the stack and
the price, and the reads and writes whose operands are there.
-/
namespace XChain
namespace VM

open Machine

variable {W : Type} {face : ExtVMFace W} {stray : UInt32} {s : VM W}

section Fetch

/-- What a fetch does when it has its byte. -/
def charge (face : ExtVMFace W) (stray : UInt32) (args ret : ℕ) (tier : Tier)
    (op : Option Instruction) : Exec W (Option Instruction) := do
  adjustStack args ret
  let gas ← toInt63 (tierGas face stray tier)
  modify fun s => { s with runGas := gas, newMemSize := s.mem.length, copyMemSize := 0 }
  pure op

theorem codeByte_ok {pc : ℕ} {b : UInt8} (h : s.code[pc]? = some b) :
    (codeByte pc : Exec W UInt8) s = .ok b s := by
  rw [codeByte, get_bind, h]
  rfl

theorem fetchInstruction_eq {b : UInt8} (hb : s.code[s.pc]? = some b) :
    fetchInstruction face stray s =
      charge face stray (instructionInfo (Instruction.ofByte b)).args
        (instructionInfo (Instruction.ofByte b)).ret
        (instructionInfo (Instruction.ofByte b)).gasPriceTier (Instruction.ofByte b) s := by
  exact bind_ok (codeByte_ok hb)

/-- The machine that has fetched. -/
def charged (face : ExtVMFace W) (stray : UInt32) (args ret : ℕ) (tier : Tier) (s : VM W) : VM W :=
  { s with
    sp := s.spp
    spp := List.replicate (ret - args) 0 ++ s.spp.drop (args - ret)
    runGas := tierGas face stray tier
    newMemSize := s.mem.length
    copyMemSize := 0 }

theorem charge_under (face : ExtVMFace W) (stray : UInt32) {args : ℕ} (ret : ℕ) (tier : Tier)
    (op : Option Instruction) (h : s.spp.length < args) :
    charge face stray args ret tier op s =
      .error (.StackUnderflow args ((s.spp.length : ℤ) - args)) { s with sp := s.spp } := by
  have hadjust : adjustStack args ret s =
      .error (.StackUnderflow args ((s.spp.length : ℤ) - args)) { s with sp := s.spp } := by
    show (if (s.spp.length : ℤ) - args < 0 then _ else _ : Exec W Unit) { s with sp := s.spp } = _
    rw [if_pos (by omega)]
    rfl
  exact bind_error hadjust

theorem charge_over {args ret : ℕ} {tier : Tier} {op : Option Instruction}
    (h : args ≤ s.spp.length) (hover : 1024 + args < s.spp.length + ret) :
    charge face stray args ret tier op s =
      .error (.OutOfStack ((ret : ℤ) - args) ((s.spp.length : ℤ) - args + ret))
        { s with sp := s.spp } := by
  have hadjust : adjustStack args ret s =
      .error (.OutOfStack ((ret : ℤ) - args) ((s.spp.length : ℤ) - args + ret))
        { s with sp := s.spp } := by
    show (if (s.spp.length : ℤ) - args < 0 then _ else if (s.spp.length : ℤ) - args + ret > 1024
      then _ else _ : Exec W Unit) { s with sp := s.spp } = _
    rw [if_neg (by omega), if_pos (by omega)]
    rfl
  exact bind_error hadjust

theorem adjustStack_ok {args ret : ℕ} (h : args ≤ s.spp.length)
    (hroom : s.spp.length + ret ≤ 1024 + args) :
    adjustStack args ret s = .ok () { s with
      sp := s.spp
      spp := List.replicate (ret - args) 0 ++ s.spp.drop (args - ret) } := by
  show (if (s.spp.length : ℤ) - args < 0 then _ else if (s.spp.length : ℤ) - args + ret > 1024
    then _ else _ : Exec W Unit) { s with sp := s.spp } = _
  rw [if_neg (by omega), if_neg (by omega)]
  rfl

theorem toInt63_ok {v : ℕ} (h : v ≤ maxInt63) : (toInt63 v : Exec W ℕ) s = .ok v s := by
  unfold toInt63
  rw [if_neg (show ¬ 0x7FFFFFFFFFFFFFFF < v from Nat.not_lt.mpr h)]
  rfl

theorem toInt63_error {v : ℕ} (h : maxInt63 < v) : (toInt63 v : Exec W ℕ) s = .error .OutOfGas s := by
  unfold toInt63
  rw [if_pos (show 0x7FFFFFFFFFFFFFFF < v from h)]
  rfl

theorem charge_dear {args ret : ℕ} {tier : Tier} {op : Option Instruction}
    (h : args ≤ s.spp.length) (hroom : s.spp.length + ret ≤ 1024 + args)
    (hprice : maxInt63 < tierGas face stray tier) :
    charge face stray args ret tier op s = .error .OutOfGas { s with
      sp := s.spp
      spp := List.replicate (ret - args) 0 ++ s.spp.drop (args - ret) } := by
  exact (bind_ok (adjustStack_ok h hroom)).trans (bind_error (toInt63_error hprice))

theorem charge_ok {args ret : ℕ} {tier : Tier} {op : Option Instruction}
    (h : args ≤ s.spp.length) (hroom : s.spp.length + ret ≤ 1024 + args)
    (hprice : tierGas face stray tier ≤ maxInt63) :
    charge face stray args ret tier op s = .ok op (charged face stray args ret tier s) := by
  exact (bind_ok (adjustStack_ok h hroom)).trans (bind_ok (toInt63_ok hprice))

/-- How a fetch ends, by the height of the stack and the price. -/
theorem charge_cases (face : ExtVMFace W) (stray : UInt32) (args ret : ℕ) (tier : Tier) (s : VM W) :
    (∃ e t, t.ioGas = s.ioGas ∧ t.ext = s.ext ∧ ¬ (args ≤ s.spp.length ∧
        s.spp.length + ret ≤ 1024 + args ∧ tierGas face stray tier ≤ maxInt63) ∧
      ∀ op, charge face stray args ret tier op s = .error e t) ∨
    (args ≤ s.spp.length ∧ s.spp.length + ret ≤ 1024 + args ∧ tierGas face stray tier ≤ maxInt63 ∧
      ∀ op, charge face stray args ret tier op s = .ok op (charged face stray args ret tier s)) := by
  by_cases hargs : args ≤ s.spp.length
  · by_cases hroom : s.spp.length + ret ≤ 1024 + args
    · by_cases hprice : tierGas face stray tier ≤ maxInt63
      · exact Or.inr ⟨hargs, hroom, hprice, fun op => charge_ok hargs hroom hprice⟩
      · refine Or.inl ⟨_, _, ?_, ?_, fun hall => hprice hall.2.2, fun op =>
          charge_dear hargs hroom (Nat.not_le.mp hprice)⟩ <;> rfl
    · refine Or.inl ⟨_, _, ?_, ?_, fun hall => hroom hall.2.1, fun op =>
        charge_over hargs (Nat.not_le.mp hroom)⟩ <;> rfl
  · refine Or.inl ⟨_, _, ?_, ?_, fun hall => hargs hall.1, fun op =>
      charge_under face stray ret tier op (Nat.not_le.mp hargs)⟩ <;> rfl

theorem blind_charge {args ret : ℕ} {tier : Tier} {op : Option Instruction} :
    Blind (charge face stray args ret tier op) := by
  intro c s
  by_cases hargs : args ≤ s.spp.length
  · by_cases hroom : s.spp.length + ret ≤ 1024 + args
    · by_cases hprice : tierGas face stray tier ≤ maxInt63
      · rw [charge_ok hargs hroom hprice]
        exact charge_ok (s := withCode c s) hargs hroom hprice
      · rw [charge_dear hargs hroom (Nat.not_le.mp hprice)]
        exact charge_dear (s := withCode c s) hargs hroom (Nat.not_le.mp hprice)
    · rw [charge_over hargs (Nat.not_le.mp hroom)]
      exact charge_over (s := withCode c s) hargs (Nat.not_le.mp hroom)
  · rw [charge_under face stray ret tier op (Nat.not_le.mp hargs)]
    exact charge_under (s := withCode c s) face stray ret tier op (Nat.not_le.mp hargs)

end Fetch

section Access

theorem updateIOGas_error (h : s.ioGas < s.runGas) :
    (updateIOGas : Exec W Unit) s = .error .OutOfGas s := by
  show (if s.ioGas < s.runGas then _ else _ : Exec W Unit) s = _
  rw [if_pos h]
  rfl

theorem updateIOGas_ok (h : s.runGas ≤ s.ioGas) :
    (updateIOGas : Exec W Unit) s = .ok () { s with ioGas := s.ioGas - s.runGas } := by
  show (if s.ioGas < s.runGas then _ else _ : Exec W Unit) s = _
  rw [if_neg (Nat.not_lt.mpr h)]
  rfl

theorem item_ok {i : ℕ} {w : Word} (h : s.sp[i]? = some w) : (item i : Exec W Word) s = .ok w s := by
  rw [item, get_bind, h]
  rfl

theorem item_error {i : ℕ} (h : s.sp[i]? = none) :
    (item i : Exec W Word) s = .error .outOfBounds s := by
  rw [item, get_bind, h]
  rfl

theorem setTop_ok {w x : Word} {rest : List Word} (h : s.spp = x :: rest) :
    (setTop w : Exec W Unit) s = .ok () { s with spp := w :: rest } := by
  rw [setTop, get_bind, h]
  rfl

theorem top_ok {x : Word} {rest : List Word} (h : s.spp = x :: rest) :
    (top : Exec W Word) s = .ok x s := by
  rw [top, get_bind, h]
  rfl

end Access

end VM
end XChain
