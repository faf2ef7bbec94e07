import XChain.FixedHash

/-!
# Faults

What ends a procedure where it stands, instead of a result. Parts of a buffer are taken only
where they are.
-/
namespace XChain

inductive Fault where
  | assertion
  | exception
  | outOfRange
  deriving DecidableEq

namespace Fault

variable {α β : Type}

/-- A part of a buffer that has to be there. -/
def slice (b : Bytes) (start count : ℕ) : Except Fault Bytes :=
  if start + count ≤ b.length then .ok ((b.drop start).take count) else .error .outOfRange

def byteAt (b : Bytes) (i : ℕ) : Except Fault UInt8 :=
  match b[i]? with
  | some x => .ok x
  | none => .error .outOfRange

/-- There is a result, and it satisfies a predicate. -/
def Settles (S : α → Prop) (r : Except Fault α) : Prop := ∃ a, r = .ok a ∧ S a

variable {S : α → Prop}

@[simp] theorem settles_ok (a : α) : Settles S (.ok a) ↔ S a := by simp [Settles]

@[simp] theorem settles_error (f : Fault) : ¬Settles S (.error f) := by simp [Settles]

@[simp] theorem ok_bind (a : α) (f : α → Except Fault β) : (Except.ok a >>= f) = f a := rfl

@[simp] theorem error_bind (e : Fault) (f : α → Except Fault β) :
    (Except.error e >>= f) = .error e := rfl

@[simp] theorem pure_eq (a : α) : (pure a : Except Fault α) = .ok a := rfl

@[simp] theorem throw_eq (e : Fault) : (throw e : Except Fault α) = .error e := rfl

theorem slice_eq {b : Bytes} {start count : ℕ} (h : start + count ≤ b.length) :
    slice b start count = .ok (cropped b start count) := by
  rw [slice, if_pos h, cropped, if_pos h]

theorem byteAt_eq {b : Bytes} {i : ℕ} (h : i < b.length) : byteAt b i = .ok b[i] := by
  rw [byteAt, List.getElem?_eq_getElem h]

end Fault

end XChain
