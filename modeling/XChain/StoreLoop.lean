import XChain.StoreProgram

/-!
# Loops of store programs

A loop without a condition ends when its body returns. `Returns` says that a turn
ends in a result, at once or after more turns, while the store stays as it is; a
loop that returns so does it with any fuel that is large enough.
-/
namespace XChain
namespace StoreProg

variable {H B α σ τ : Type}

/-- How a turn of a loop ends: with a result, or in a state for the next turn. -/
inductive Turn (α σ : Type) where
  | ret (a : α)
  | again (s : σ)

def Turn.map (f : σ → τ) : Turn α σ → Turn α τ
  | .ret a => .ret a
  | .again s => .again (f s)

/-- `while (true)`, at most `fuel` turns. -/
def forever (body : σ → StoreProg H B (Turn α σ)) : ℕ → σ → StoreProg H B α
  | 0, _ => .fail
  | fuel + 1, s => do
    let t ← body s
    match t with
    | .ret a => pure a
    | .again s' => forever body fuel s'

/-- A loop whose body does the same on translated states gives the same results. -/
theorem forever_map {body : σ → StoreProg H B (Turn α σ)}
    {body' : τ → StoreProg H B (Turn α τ)} {f : σ → τ}
    (h : ∀ s, body' (f s) = Turn.map f <$> body s) (fuel : ℕ) (s : σ) :
    forever body' fuel (f s) = forever body fuel s := by
  induction fuel generalizing s with
  | zero => rfl
  | succ fuel ih =>
    rw [forever, forever, h, bind_map_left]
    congr 1
    funext t
    cases t with
    | ret a => rfl
    | again s' => exact ih s'

section Returns

variable {D : Type} [ContentStore H B D] {body : σ → StoreProg H B (Turn α σ)} {d : D}
  {m m' : StoreProg H B (Turn α σ)} {a : α} {s : σ}

/-- A turn ends with the result `a`, or a later turn does. -/
inductive Returns (body : σ → StoreProg H B (Turn α σ)) (d : D) :
    StoreProg H B (Turn α σ) → α → Prop where
  | ret {m : StoreProg H B (Turn α σ)} {a : α} :
      m.run d = (some (.ret a), d) → Returns body d m a
  | again {m : StoreProg H B (Turn α σ)} {s : σ} {a : α} :
      m.run d = (some (.again s), d) → Returns body d (body s) a → Returns body d m a

theorem Returns.of_run (h : m.run d = m'.run d) (hr : Returns body d m' a) :
    Returns body d m a := by
  cases hr with
  | ret hrun => exact .ret (h.trans hrun)
  | again hrun hnext => exact .again (h.trans hrun) hnext

/-- A loop that returns needs a bounded number of turns. -/
theorem Returns.run_forever (h : Returns body d (body s) a) :
    ∃ n, ∀ fuel ≥ n, (forever body fuel s).run d = (some a, d) := by
  generalize hm : body s = m at h
  induction h generalizing s with
  | ret hrun =>
    refine ⟨1, fun fuel hfuel => ?_⟩
    obtain ⟨f, rfl⟩ := Nat.exists_eq_add_of_le' hfuel
    rw [forever, run_bind, hm, hrun]
    rfl
  | again hrun _ ih =>
    obtain ⟨n, hn⟩ := ih rfl
    refine ⟨n + 1, fun fuel hfuel => ?_⟩
    obtain ⟨f, rfl⟩ : ∃ f, fuel = f + 1 := ⟨fuel - 1, by omega⟩
    rw [forever, run_bind, hm, hrun]
    exact hn f (by omega)

end Returns

end StoreProg
end XChain
