import Mathlib.Order.Lattice
import Mathlib.Tactic.SplitIfs

/-!
# Growing arrays

An array that moves to a larger place when it is full. A cursor points into the place
that the array had when the cursor was made; after a move it points to memory that the
array has given back, and nothing can be read through it.
-/
namespace XChain

/-- The items, the room for them, and how often the array has moved. -/
structure Buffer (α : Type) where
  items : List α
  capacity : ℕ
  moves : ℕ
  fits : items.length ≤ capacity

/-- An index into an array, in the place after a number of moves. -/
structure Cursor where
  moves : ℕ
  index : ℕ

namespace Buffer

variable {α : Type} (b : Buffer α)

def empty : Buffer α := ⟨[], 0, 0, le_refl 0⟩

/-- Appends an item; a full array moves to a place with room for `grow` items. -/
def push (grow : ℕ → ℕ) (x : α) : Buffer α :=
  if h : b.items.length < b.capacity then
    ⟨b.items ++ [x], b.capacity, b.moves, by rw [List.length_append]; exact h⟩
  else
    ⟨b.items ++ [x], max (grow b.capacity) (b.items.length + 1), b.moves + 1,
      by rw [List.length_append]; exact le_max_right _ _⟩

/-- All items are removed; the room stays. -/
def clear : Buffer α := ⟨[], b.capacity, b.moves, Nat.zero_le _⟩

def begin : Cursor := ⟨b.moves, 0⟩

/-- Reads through a cursor. -/
def read (c : Cursor) : Option α := if c.moves = b.moves then b.items[c.index]? else none

variable {b} {grow : ℕ → ℕ} {x : α}

@[simp] theorem push_items : (b.push grow x).items = b.items ++ [x] := by
  unfold push
  split <;> rfl

end Buffer
end XChain
