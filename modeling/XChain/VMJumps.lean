import XChain.UnboundedMemory
import XChain.VMOptRuns
import Mathlib.Data.List.GetD

/-!
# Jump destinations

A scan of the code that skips the data of the pushes comes to every other byte. What it
collects is in increasing order, so a binary search finds all of it.
-/
namespace XChain
namespace VM

open Machine

variable {W : Type} {c : Bytes} {n pc : ℕ}

section Data

/-- The byte at `i` belongs to the data of a push, which need not end within the code. -/
def PushData (c : Bytes) (i : ℕ) : Prop :=
  ∃ p < c.length, Scan c c.length 0 p ∧ p < i ∧ i < after c p

/-- A place to jump to. -/
def JumpDest (code : Bytes) (d : ℕ) : Prop := code[d]? = some 0x5b ∧ ¬ PushData code d

theorem scan_of_not_data {i p : ℕ} (hi : i < c.length) (hp : p ≤ i) (hscan : Scan c c.length 0 p)
    (hdata : ¬ PushData c i) : Scan c c.length 0 i := by
  by_cases heq : p = i
  · exact heq ▸ hscan
  · have hnext : after c p ≤ i := by
      by_contra hover
      exact hdata ⟨p, by omega, hscan, by omega, Nat.not_le.mp hover⟩
    have hlt := lt_after c p
    exact scan_of_not_data hi hnext (hscan.next (by omega)) hdata
termination_by i - p

/-- The scan comes to the bytes that are not in the data of a push. -/
theorem scan_iff {i : ℕ} (hi : i < c.length) : Scan c c.length 0 i ↔ ¬ PushData c i := by
  constructor
  · rintro hscan ⟨p, -, hp, hlt, hin⟩
    have hown := lt_after c i
    rcases hscan.order hp with hsame | hle | hle
    · omega
    · omega
    · omega
  · exact scan_of_not_data hi (Nat.zero_le i) (.here 0)

end Data

section Table

/-- What a scan from `pc` on collects. -/
structure Table (c : Bytes) (n pc : ℕ) (found : List ℕ) : Prop where
  sorted : found.Pairwise (· < ·)
  low : ∀ d ∈ found, pc ≤ d
  mem : ∀ d, d ∈ found ↔ d < n ∧ Scan c n pc d ∧ c.getD d 0 = 0x5b

theorem table_nil (hpc : n ≤ pc) : Table c n pc [] := by
  refine ⟨.nil, fun d hd => absurd hd List.not_mem_nil, fun d => ⟨fun hd => absurd hd List.not_mem_nil, ?_⟩⟩
  rintro ⟨hlt, hscan, -⟩
  have hle := hscan.le
  omega

theorem scan_cases {d : ℕ} (hpc : pc < n) : Scan c n pc d ↔ d = pc ∨ Scan c n (after c pc) d := by
  constructor
  · intro h
    cases h with
    | here => exact Or.inl rfl
    | later _ h => exact Or.inr h
  · rintro (rfl | h)
    · exact .here d
    · exact .later hpc h

/-- Anything but a `JUMPDEST` is passed over. -/
theorem Table.skip {found : List ℕ} (h : Table c n (after c pc) found) (hpc : pc < n)
    (hbyte : c.getD pc 0 ≠ 0x5b) : Table c n pc found := by
  refine ⟨h.sorted, fun d hd => (lt_after c pc).le.trans (h.low d hd), fun d => ?_⟩
  rw [h.mem, scan_cases hpc]
  constructor
  · rintro ⟨hlt, hscan, hdest⟩
    exact ⟨hlt, Or.inr hscan, hdest⟩
  · rintro ⟨hlt, rfl | hscan, hdest⟩
    · exact absurd hdest hbyte
    · exact ⟨hlt, hscan, hdest⟩

theorem Table.collect {found : List ℕ} (h : Table c n (after c pc) found) (hpc : pc < n)
    (hbyte : c.getD pc 0 = 0x5b) : Table c n pc (pc :: found) := by
  have hlow : ∀ d ∈ found, pc < d := fun d hd => (lt_after c pc).trans_le (h.low d hd)
  refine ⟨List.pairwise_cons.mpr ⟨hlow, h.sorted⟩, fun d hd => ?_, fun d => ?_⟩
  · rcases List.mem_cons.mp hd with rfl | hd
    · exact le_rfl
    · exact (hlow d hd).le
  · rw [List.mem_cons, h.mem, scan_cases hpc]
    constructor
    · rintro (rfl | ⟨hlt, hscan, hdest⟩)
      · exact ⟨hpc, Or.inl rfl, hbyte⟩
      · exact ⟨hlt, Or.inr hscan, hdest⟩
    · rintro ⟨hlt, rfl | hscan, hdest⟩
      · exact Or.inl rfl
      · exact Or.inr ⟨hlt, hscan, hdest⟩

/-- The scan reads no byte that it has changed. -/
theorem optimizeLoop_table {fuel : ℕ} {code : Bytes} {dests : List ℕ}
    (hsame : ∀ i, pc ≤ i → code.getD i 0 = c.getD i 0) (hfuel : n ≤ pc + fuel) :
    ∃ found, (optimizeLoop n fuel pc code dests).2 = dests ++ found ∧ Table c n pc found := by
  induction fuel generalizing pc code dests with
  | zero => exact ⟨[], (List.append_nil dests).symm, table_nil hfuel⟩
  | succ fuel ih =>
    unfold optimizeLoop
    by_cases hpc : pc < n
    swap
    · rw [if_neg hpc]
      exact ⟨[], (List.append_nil dests).symm, table_nil (Nat.not_lt.mp hpc)⟩
    rw [if_pos hpc, hsame pc le_rfl]
    obtain ⟨code', hcode'⟩ : ∃ code', code' = if c.getD pc 0 = 0xac ∨ c.getD pc 0 = 0xad ∨
        c.getD pc 0 = 0xae then code.set pc 0xaf else code := ⟨_, rfl⟩
    simp only [← hcode']
    have hlt := lt_after c pc
    have hsame' : ∀ i, after c pc ≤ i → code'.getD i 0 = c.getD i 0 := by
      intro i hi
      rw [hcode', ← hsame i (by omega)]
      split_ifs
      · exact getD_set_ne _ (by omega)
      · rfl
    -- Without data the next instruction is at the next byte.
    have hplain : ¬ (0x60 ≤ c.getD pc 0 ∧ c.getD pc 0 ≤ 0x7f) → pc + 1 = after c pc := by
      intro hno
      rw [after, nPush_of_not hno]
    split_ifs with hdest hpush
    · rw [hplain (by rw [hdest]; decide)]
      obtain ⟨found, hfound, htable⟩ := @ih (after c pc) code' (dests ++ [pc]) hsame' (by omega)
      exact ⟨pc :: found, by rw [hfound, List.append_assoc]; rfl, htable.collect hpc hdest⟩
    · rw [show pc + 1 + ((c.getD pc 0).toNat - 0x60 + 1) = after c pc by rw [after, nPush_pos hpush]]
      obtain ⟨found, hfound, htable⟩ := @ih (after c pc) code' dests hsame' (by omega)
      exact ⟨found, hfound, htable.skip hpc hdest⟩
    · rw [hplain hpush]
      obtain ⟨found, hfound, htable⟩ := @ih (after c pc) code' dests hsame' (by omega)
      exact ⟨found, hfound, htable.skip hpc hdest⟩

/-- The padding is not scanned. -/
theorem optimize_table (c : Bytes) : Table c c.length 0 (optimize c).2 := by
  have hsame : ∀ i, 0 ≤ i → (c ++ List.replicate 33 (0 : UInt8)).getD i 0 = c.getD i 0 :=
    fun i _ => congrFun (UnboundedMemory.ofList_append_zeros c 33) i
  obtain ⟨found, hfound, htable⟩ := @optimizeLoop_table c c.length 0 c.length
    (c ++ List.replicate 33 0) [] hsame (by omega)
  rw [optimize, hfound]
  exact htable

theorem mem_optimize {d : ℕ} : d ∈ (optimize c).2 ↔ JumpDest c d := by
  rw [(optimize_table c).mem, JumpDest]
  constructor
  · rintro ⟨hlt, hscan, hdest⟩
    rw [List.getD_eq_getElem c 0 hlt] at hdest
    exact ⟨by rw [List.getElem?_eq_getElem hlt, hdest], (scan_iff hlt).mp hscan⟩
  · rintro ⟨hdest, hdata⟩
    obtain ⟨hlt, hbyte⟩ := List.getElem?_eq_some_iff.mp hdest
    exact ⟨hlt, (scan_iff hlt).mpr hdata, by rw [List.getD_eq_getElem c 0 hlt, hbyte]⟩

end Table

section Search

theorem binarySearch_iff {l : List ℕ} (hl : l.Pairwise (· < ·)) (x : ℕ) :
    binarySearch l x = true ↔ x ∈ l := by
  induction l with
  | nil => exact ⟨fun h => (by cases h), fun h => absurd h List.not_mem_nil⟩
  | cons a l ih =>
    obtain ⟨hhead, htail⟩ := List.pairwise_cons.mp hl
    unfold binarySearch at ih ⊢
    by_cases hlt : a < x
    · rw [List.dropWhile_cons_of_pos (by simpa using hlt), ih htail, List.mem_cons]
      exact ⟨Or.inr, fun h => h.resolve_left (by omega)⟩
    · rw [List.dropWhile_cons_of_neg (by simpa using hlt), List.mem_cons]
      simp only [List.head?_cons, beq_iff_eq, Option.some.injEq]
      refine ⟨fun h => Or.inl h.symm, ?_⟩
      rintro (rfl | hx)
      · rfl
      · have := hhead x hx
        omega

theorem isJumpDest_iff {l : List ℕ} (hl : l.Pairwise (· < ·)) (hsmall : ∀ d ∈ l, d ≤ maxInt63)
    (dest : Word) : isJumpDest l dest = true ↔ dest.toNat ∈ l := by
  rw [isJumpDest, Bool.and_eq_true, decide_eq_true_iff, binarySearch_iff hl]
  exact ⟨fun h => h.2, fun h => ⟨hsmall _ h, h⟩⟩

theorem verifyJumpDest_error {s : VM W} {dest : Word} (h : isJumpDest s.jumpDests dest = false) :
    (verifyJumpDest dest : Exec W ℕ) s = .error .BadJumpDestination s := by
  show (if dest.toNat ≤ maxInt63 ∧ binarySearch s.jumpDests dest.toNat = true then _ else _ :
    Exec W ℕ) s = _
  rw [if_neg]
  · rfl
  · rintro ⟨hsmall, hfound⟩
    rw [isJumpDest, hfound, Bool.and_true, decide_eq_false_iff_not] at h
    exact h hsmall

/-- The table of a machine, wherever its run is, is in increasing order and has the places to
jump to; these are what a jump accepts. A vector has at most 2^63 - 1 bytes. -/
theorem jumpDests_exact (sha3 : Bytes → H256) (face : ExtVMFace W)
    (hsize : face.code.length ≤ 2 ^ 63 - 1) (stray : UInt32) (gas : Word) (ext : W) (s : VM W)
    (h : Reaches (step sha3 face stray) (initEntry face gas ext) s) :
    s.jumpDests.Pairwise (· < ·) ∧ (∀ d, d ∈ s.jumpDests ↔ JumpDest face.code d) ∧
      ∀ dest : Word,
        (JumpDest face.code dest.toNat → verifyJumpDest dest s = .ok dest.toNat s) ∧
        (¬ JumpDest face.code dest.toNat →
          verifyJumpDest dest s = .error .BadJumpDestination s) ∧
        (isJumpDest s.jumpDests dest = true ↔ JumpDest face.code dest.toNat) := by
  rw [(reaches_tracked h).jumpDests]
  have htable := optimize_table face.code
  have hsmall : ∀ d ∈ (optimize face.code).2, d ≤ maxInt63 := fun d hd =>
    ((htable.mem d).mp hd).1.le.trans hsize
  have hdest : ∀ dest : Word, isJumpDest (optimize face.code).2 dest = true ↔
      JumpDest face.code dest.toNat := fun dest =>
    (isJumpDest_iff htable.sorted hsmall dest).trans mem_optimize
  refine ⟨htable.sorted, fun d => mem_optimize, fun dest => ⟨fun hd => ?_, fun hd => ?_, hdest dest⟩⟩
  · apply verifyJumpDest_ok
    rw [(reaches_tracked h).jumpDests]
    exact (hdest dest).mpr hd
  · apply verifyJumpDest_error
    rw [(reaches_tracked h).jumpDests]
    exact Bool.eq_false_iff.mpr fun hd' => hd ((hdest dest).mp hd')

/-- A jump destination, and the same byte in the data of a push that runs past the end. -/
def shadowed : ExtVMFace Unit := stillFace [0x5b, 0x61, 0x5b] (by decide)

theorem jumpDests_exact_shadowed :
    (initEntry shadowed 0 ()).jumpDests.Pairwise (· < ·) ∧
      (∀ d, d ∈ (initEntry shadowed 0 ()).jumpDests ↔ JumpDest shadowed.code d) ∧
      ∀ dest : Word,
        (JumpDest shadowed.code dest.toNat →
          verifyJumpDest dest (initEntry shadowed 0 ()) = .ok dest.toNat (initEntry shadowed 0 ())) ∧
        (¬ JumpDest shadowed.code dest.toNat → verifyJumpDest dest (initEntry shadowed 0 ()) =
          .error .BadJumpDestination (initEntry shadowed 0 ())) ∧
        (isJumpDest (initEntry shadowed 0 ()).jumpDests dest = true ↔
          JumpDest shadowed.code dest.toNat) :=
  jumpDests_exact (fun _ => H256.ofNat 0) shadowed (by decide) 0 0 () _ .start

end Search

end VM
end XChain
