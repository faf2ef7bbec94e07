import XChain.VMFrame
import XChain.VMRuns
import Mathlib.Logic.Function.Basic

/-!
# The first pass of the optimizer

The build that optimizes goes through the code a second time. A push of two or more
bytes becomes `PUSHC` with an index into a pool of constants, and a jump right behind a
push of a jump destination becomes `JUMPC` or `JUMPCI`. The switches for both are
defined as `false`, but they are asked with `#ifdef`, so both are on.

Both scans visit the bytes at which an instruction starts. At each of them the first
pass leaves the instruction as it was or puts one of the three in its place.
-/
namespace XChain
namespace VM

variable {W : Type}

section Pool

def FNV_PRIME1 : UInt32 := 2166136261

def FNV_PRIME2 : UInt32 := 16777619

def hashByte (hash : UInt32) (b : UInt8) : UInt32 := (hash ^^^ b.toUInt32) * FNV_PRIME2

/-- The hash folded into a byte. -/
def getHash (hash : UInt32) : UInt8 := (((hash >>> 8) ^^^ hash) &&& 0xff).toUInt8

/-- A hash table of up to 256 constants. -/
structure hash256 where
  table : UInt8 → Word
  empty : UInt8 → Bool

/-- The table of the scan before its first push. -/
def hash256.new : hash256 := ⟨fun _ => 0, fun _ => true⟩

/-- Puts a value at its index; `false` for a collision. -/
def hash256.insertVal (pool : hash256) (hash : UInt8) (val : Word) : Bool × hash256 :=
  if pool.empty hash then
    (true, ⟨Function.update pool.table hash val, Function.update pool.empty hash false⟩)
  else (pool.table hash == val, pool)

end Pool

section FirstPass

/-- How many bytes an opcode pushes. -/
def nPush (op : UInt8) : ℕ := if 0x60 ≤ op ∧ op ≤ 0x7f then op.toNat - 0x60 + 1 else 0

/-- The bytes that belong to the instruction at `p`. -/
def dataAt (c : Bytes) (p : ℕ) : Bytes := (c.drop (p + 1)).take (nPush (c.getD p 0))

def shiftIn (val : Word) (b : UInt8) : Word := (val <<< 8) ||| BitVec.ofNat 256 b.toNat

/-- The value that bytes push, as the scan decodes it. -/
def pushedVal : Bytes → Word
  | [] => 0
  | b :: bs => bs.foldl shiftIn (BitVec.ofNat 256 b.toNat)

/-- The index of the bytes of a push; the first one is not hashed. -/
def poolIndex (data : Bytes) : UInt8 := getHash (data.tail.foldl hashByte FNV_PRIME1)

/-- `0 <= verifyJumpDest(val, false)`. -/
def isJumpDest (jumpDests : List ℕ) (val : Word) : Bool :=
  decide (val.toNat ≤ 0x7FFFFFFFFFFFFFFF) && binarySearch jumpDests val.toNat

/-- Replaces the push of the `n` bytes `data` at `pc` unless it is of one byte or its index
is taken. -/
def poolPush (pc n : ℕ) (data : Bytes) (code : Bytes) (pool : hash256) : Bytes × hash256 :=
  if 1 < n then
    let (fits, pool) := pool.insertVal (poolIndex data) (pushedVal data)
    if fits then
      (((code.set pc 0xac).set (pc + 1) (poolIndex data)).set (pc + 2)
        (UInt8.ofNat (n - 1)), pool)
    else (code, pool)
  else (code, pool)

/-- Replaces the jump at `i` if `val` is a jump destination. -/
def replaceJump (jumpDests : List ℕ) (val : Word) (i : ℕ) (code : Bytes) : Bytes :=
  let op := code.getD i 0
  if op = 0x56 then
    (if isJumpDest jumpDests val then code.set i 0xad else code)
  else if op = 0x57 then
    (if isJumpDest jumpDests val then code.set i 0xae else code)
  else code

/-- The second scan of `optimize` from `pc` on. -/
def firstPassLoop (jumpDests : List ℕ) (nBytes : ℕ) :
    ℕ → ℕ → Bytes → hash256 → Bytes × hash256
  | 0, _, code, pool => (code, pool)
  | fuel + 1, pc, code, pool =>
    if pc < nBytes then
      let op := code.getD pc 0
      if 0x60 ≤ op ∧ op ≤ 0x7f then
        let data := dataAt code pc
        let (code, pool) := poolPush pc (nPush op) data code pool
        let i := pc + nPush op + 1
        firstPassLoop jumpDests nBytes fuel i (replaceJump jumpDests (pushedVal data) i code) pool
      else firstPassLoop jumpDests nBytes fuel (pc + 1) code pool
    else (code, pool)

/-- The code and the pool of constants after both scans. -/
def firstPass (code : Bytes) : Bytes × hash256 :=
  firstPassLoop (optimize code).2 code.length code.length 0 (optimize code).1 hash256.new

end FirstPass

section Interpreter

variable (sha3 : Bytes → H256) (face : ExtVMFace W) (pool : hash256)

/-- `m_SPP[0] = m_pool[m_code[++m_PC]]; m_PC += m_code[m_PC]`. -/
def pushc : Exec W Bounce := do
  updateIOGas
  modify fun s => { s with pc := s.pc + 1 }
  let s ← get
  let b ← codeByte s.pc
  setTop (pool.table b)
  let b ← codeByte s.pc
  modify fun s => { s with pc := s.pc + b.toNat }
  pure .interpretCases

def jumpc : Exec W Bounce := do
  updateIOGas
  let a ← item 0
  modify fun s => { s with pc := u64 a.toNat }
  pure .interpretCases

def jumpci : Exec W Bounce := do
  updateIOGas
  let condition ← item 1
  if condition ≠ 0 then do
    let a ← item 0
    modify fun s => { s with pc := u64 a.toNat }
    pure .interpretCases
  else nextPC 1

/-- One case of the switch in the build that optimizes. -/
def interpretOptimized : Option Instruction → Exec W Bounce
  | some .PUSHC => pushc pool
  | some .JUMPC => jumpc
  | some .JUMPCI => jumpci
  | op => interpretCase sha3 face op

/-- One instruction in the build that optimizes. -/
def stepOptimized (stray : UInt32) : Exec W Bool := do
  let op ← fetchInstruction face stray
  let bounce ← interpretOptimized sha3 face pool op
  trampoline face op bounce

/-- The machine after `initEntry` in the build that optimizes. -/
def initEntryOptimized (ioGas : Word) (ext : W) : VM W :=
  { initEntry face ioGas ext with code := (firstPass face.code).1 }

/-- A run of at most `fuel` instructions in the build that optimizes. -/
def execOptimized (stray : UInt32) (fuel : ℕ) (ioGas : Word) (ext : W) :
    Option (EStateM.Result VMException (VM W) Unit) :=
  Machine.runFor (stepOptimized sha3 face (firstPass face.code).2 stray) fuel
    (initEntryOptimized face ioGas ext)

end Interpreter

section Scan

/-- Where the instruction behind the one at `p` starts. -/
def after (c : Bytes) (p : ℕ) : ℕ := p + 1 + nPush (c.getD p 0)

theorem lt_after (c : Bytes) (p : ℕ) : p < after c p := by
  unfold after
  omega

/-- A scan of the first `n` bytes that is at `p` comes to `q`. -/
inductive Scan (c : Bytes) (n : ℕ) : ℕ → ℕ → Prop where
  | here (p : ℕ) : Scan c n p p
  | later {p q : ℕ} (hp : p < n) (h : Scan c n (after c p) q) : Scan c n p q

namespace Scan

variable {c : Bytes} {n p q r : ℕ}

theorem le (h : Scan c n p q) : p ≤ q := by
  induction h with
  | here p => exact le_rfl
  | @later p q hp _ ih => exact (lt_after c p).le.trans ih

theorem next (h : Scan c n p q) (hq : q < n) : Scan c n p (after c q) := by
  induction h with
  | here p => exact .later hq (.here _)
  | later hp _ ih => exact .later hp (ih hq)

/-- Of two places of a scan one is behind the instruction at the other. -/
theorem order (h : Scan c n p q) (h' : Scan c n p r) :
    q = r ∨ after c q ≤ r ∨ after c r ≤ q := by
  induction h with
  | here p =>
    cases h' with
    | here => exact Or.inl rfl
    | later _ h' => exact Or.inr (Or.inl h'.le)
  | later _ h ih =>
    cases h' with
    | here => exact Or.inr (Or.inr h.le)
    | later _ h' => exact ih h'

/-- Two places of a scan with the same place behind them are the same. -/
theorem eq_of_after (h : Scan c n p q) (h' : Scan c n p r) (heq : after c q = after c r) :
    q = r := by
  have hq := lt_after c q
  have hr := lt_after c r
  rcases h.order h' with hsame | hle | hle
  · exact hsame
  · omega
  · omega

theorem of_le (h : Scan c n p q) (hp : n ≤ p) : q = p := by
  cases h with
  | here => rfl
  | later hlt _ => omega

end Scan

theorem getD_set_ne {c : Bytes} {i j : ℕ} (b : UInt8) (h : i ≠ j) :
    (c.set i b).getD j 0 = c.getD j 0 := by
  rw [List.getD_eq_getElem?_getD, List.getD_eq_getElem?_getD, List.getElem?_set_ne h]

theorem getD_set_self {c : Bytes} {i : ℕ} (b : UInt8) (h : i < c.length) :
    (c.set i b).getD i 0 = b := by
  rw [List.getD_eq_getElem?_getD, List.getElem?_set_self h]
  rfl

/-- The opcodes that are the interpreter's own. -/
def Synthetic (op : UInt8) : Prop := op = 0xac ∨ op = 0xad ∨ op = 0xae

theorem nPush_of_not {op : UInt8} (h : ¬ (0x60 ≤ op ∧ op ≤ 0x7f)) : nPush op = 0 := if_neg h

theorem nPush_pos {op : UInt8} (h : 0x60 ≤ op ∧ op ≤ 0x7f) : nPush op = op.toNat - 0x60 + 1 :=
  if_pos h

theorem nPush_le (op : UInt8) : nPush op ≤ 32 := by
  by_cases h : 0x60 ≤ op ∧ op ≤ 0x7f
  · rw [nPush_pos h]
    have hle : op.toNat ≤ 0x7f := h.2
    omega
  · rw [nPush_of_not h]
    exact Nat.zero_le _

theorem nPush_pos_iff {op : UInt8} : 0 < nPush op ↔ 0x60 ≤ op ∧ op ≤ 0x7f := by
  constructor
  · intro h
    by_contra hno
    rw [nPush_of_not hno] at h
    exact absurd h (by decide)
  · intro h
    rw [nPush_pos h]
    exact Nat.succ_pos _

/-- What the first scan gives from `pc` on: it collects places of the scan that hold
`JUMPDEST`, and leaves none of the interpreter's own opcodes at a place of the scan. -/
structure Collected (n pc : ℕ) (code : Bytes) (dests : List ℕ) (r : Bytes × List ℕ) : Prop where
  before : ∀ i < pc, r.1.getD i 0 = code.getD i 0
  dests : ∀ d ∈ r.2, d ∈ dests ∨ Scan r.1 n pc d ∧ r.1.getD d 0 = 0x5b
  places : ∀ q < n, Scan r.1 n pc q → ¬ Synthetic (r.1.getD q 0)

theorem collected_end {n pc : ℕ} (hpc : n ≤ pc) (code : Bytes) (dests : List ℕ) :
    Collected n pc code dests (code, dests) := by
  refine ⟨fun _ _ => rfl, fun d hd => Or.inl hd, fun q hq hscan => ?_⟩
  have hle := hscan.le
  omega

/-- One instruction of the first scan; `code'` is what the code is behind it. -/
theorem Collected.step {n pc : ℕ} {code code' : Bytes} {dests : List ℕ} (dests' : List ℕ)
    {r : Bytes × List ℕ} (h : Collected n (pc + 1 + nPush (code.getD pc 0)) code' dests' r)
    (hpc : pc < n) (hkept : ∀ i < pc, code'.getD i 0 = code.getD i 0)
    (hsyn : ¬ Synthetic (code'.getD pc 0))
    (hsize : nPush (code'.getD pc 0) = nPush (code.getD pc 0))
    (hdests : ∀ d ∈ dests', d ∈ dests ∨ d = pc ∧ code'.getD pc 0 = 0x5b) :
    Collected n pc code dests r := by
  have hbyte := h.before pc (by omega)
  have hafter : after r.1 pc = pc + 1 + nPush (code.getD pc 0) := by
    rw [after, hbyte, hsize]
  constructor
  · intro i hi
    exact (h.before i (by omega)).trans (hkept i hi)
  · intro d hd
    rcases h.dests d hd with hmem | ⟨hscan, hdest⟩
    · rcases hdests d hmem with hold | ⟨rfl, hdest⟩
      · exact Or.inl hold
      · exact Or.inr ⟨.here d, hbyte.trans hdest⟩
    · exact Or.inr ⟨.later hpc (hafter.symm ▸ hscan), hdest⟩
  · intro q hq hscan
    cases hscan with
    | here =>
      rw [hbyte]
      exact hsyn
    | later _ hscan =>
      rw [hafter] at hscan
      exact h.places q hq hscan

theorem optimizeLoop_collected {n fuel pc : ℕ} {code : Bytes} {dests : List ℕ}
    (hfuel : n ≤ pc + fuel) (hlen : n ≤ code.length) :
    Collected n pc code dests (optimizeLoop n fuel pc code dests) := by
  induction fuel generalizing pc code dests with
  | zero => exact collected_end (by omega) code dests
  | succ fuel ih =>
    unfold optimizeLoop
    by_cases hpc : pc < n
    · rw [if_pos hpc]
      obtain ⟨code', hcode'⟩ : ∃ code', code' = if code.getD pc 0 = 0xac ∨ code.getD pc 0 = 0xad ∨
          code.getD pc 0 = 0xae then code.set pc 0xaf else code := ⟨_, rfl⟩
      have hcode : n ≤ code'.length ∧ (∀ i < pc, code'.getD i 0 = code.getD i 0) ∧
          ¬ Synthetic (code'.getD pc 0) ∧ nPush (code'.getD pc 0) = nPush (code.getD pc 0) ∧
          (code.getD pc 0 = 0x5b → code'.getD pc 0 = 0x5b) := by
        rw [hcode']
        by_cases hsyn : code.getD pc 0 = 0xac ∨ code.getD pc 0 = 0xad ∨ code.getD pc 0 = 0xae
        · rw [if_pos hsyn, getD_set_self _ (hpc.trans_le hlen), List.length_set]
          refine ⟨hlen, fun i hi => getD_set_ne _ (by omega), by unfold Synthetic; decide, ?_⟩
          rcases hsyn with h | h | h <;> rw [h] <;> decide
        · rw [if_neg hsyn]
          exact ⟨hlen, fun _ _ => rfl, hsyn, rfl, id⟩
      obtain ⟨hlen', hkept, hsyn, hsize, hdest'⟩ := hcode
      simp only [← hcode']
      by_cases hdest : code.getD pc 0 = 0x5b
      · rw [if_pos hdest]
        refine Collected.step (dests ++ [pc]) ?_ hpc hkept hsyn hsize fun d hd => ?_
        · rw [hdest]
          exact ih (by omega) hlen'
        · rcases List.mem_append.mp hd with hd | hd
          · exact Or.inl hd
          · exact Or.inr ⟨List.mem_singleton.mp hd, hdest' hdest⟩
      · rw [if_neg hdest]
        refine Collected.step dests ?_ hpc hkept hsyn hsize fun d hd => Or.inl hd
        by_cases hpush : 0x60 ≤ code.getD pc 0 ∧ code.getD pc 0 ≤ 0x7f
        · rw [if_pos hpush, ← nPush_pos hpush]
          exact ih (by omega) hlen'
        · rw [if_neg hpush, nPush_of_not hpush]
          exact ih (by omega) hlen'
    · rw [if_neg hpc]
      exact collected_end (by omega) code dests

end Scan

section Placed

variable (c : Bytes) (dests : List ℕ) (n : ℕ)

/-- The instruction right before `q` pushes the jump destination `val`. -/
def PushedBefore (q : ℕ) (val : Word) : Prop :=
  ∃ p < n, Scan c n 0 p ∧ 0 < nPush (c.getD p 0) ∧ after c p = q ∧
    pushedVal (dataAt c p) = val ∧ isJumpDest dests val = true

/-- What the first pass has put in the place of the instruction at `q` of the code `c`. -/
inductive Placed (c' : Bytes) (pool : hash256) (q : ℕ) : Prop where
  | kept (h : ∀ i ≤ nPush (c.getD q 0), c'.getD (q + i) 0 = c.getD (q + i) 0)
  | pooled (hsize : 1 < nPush (c.getD q 0)) (hop : c'.getD q 0 = 0xac)
      (hindex : c'.getD (q + 1) 0 = poolIndex (dataAt c q))
      (hval : pool.table (poolIndex (dataAt c q)) = pushedVal (dataAt c q))
  | jump {val : Word} (hop : c.getD q 0 = 0x56) (hop' : c'.getD q 0 = 0xad)
      (hbefore : PushedBefore c dests n q val)
  | jumpi {val : Word} (hop : c.getD q 0 = 0x57) (hop' : c'.getD q 0 = 0xae)
      (hbefore : PushedBefore c dests n q val)

/-- The values that are in the pool stay there. -/
def hash256.Extends (pool pool' : hash256) : Prop :=
  ∀ h, pool.empty h = false → pool'.empty h = false ∧ pool'.table h = pool.table h

theorem hash256.insertVal_spec (pool : hash256) (hash : UInt8) (val : Word) :
    pool.Extends (pool.insertVal hash val).2 ∧ ((pool.insertVal hash val).1 = true →
      (pool.insertVal hash val).2.empty hash = false ∧
      (pool.insertVal hash val).2.table hash = val) := by
  unfold insertVal
  by_cases hempty : pool.empty hash = true
  · rw [if_pos hempty]
    constructor
    · intro h hfull
      have hne : h ≠ hash := by
        rintro rfl
        rw [hempty] at hfull
        cases hfull
      exact ⟨(Function.update_of_ne hne _ _).trans hfull, Function.update_of_ne hne _ _⟩
    · intro _
      exact ⟨Function.update_self _ _ _, Function.update_self _ _ _⟩
  · rw [if_neg hempty]
    constructor
    · exact fun h hfull => ⟨hfull, rfl⟩
    · exact fun hsame => ⟨Bool.not_eq_true _ ▸ hempty, eq_of_beq hsame⟩

/-- What becomes of a push. -/
structure Pooled (pc k : ℕ) (data code : Bytes) (pool : hash256) (r : Bytes × hash256) :
    Prop where
  length : r.1.length = code.length
  before : ∀ i < pc, r.1.getD i 0 = code.getD i 0
  behind : r.1.drop (pc + k + 1) = code.drop (pc + k + 1)
  grows : pool.Extends r.2
  place : r.1 = code ∨ 1 < k ∧ r.1.getD pc 0 = 0xac ∧ r.1.getD (pc + 1) 0 = poolIndex data ∧
    r.2.empty (poolIndex data) = false ∧ r.2.table (poolIndex data) = pushedVal data

theorem poolPush_spec {pc k : ℕ} (data : Bytes) {code : Bytes} (pool : hash256)
    (hlen : pc + k + 1 < code.length) : Pooled pc k data code pool (poolPush pc k data code pool) := by
  have hkept : ∀ pool', pool.Extends pool' → Pooled pc k data code pool (code, pool') :=
    fun pool' h => ⟨rfl, fun _ _ => rfl, rfl, h, Or.inl rfl⟩
  unfold poolPush
  by_cases hk : 1 < k
  · rw [if_pos hk]
    obtain ⟨hext, hput⟩ := pool.insertVal_spec (poolIndex data) (pushedVal data)
    cases hinsert : pool.insertVal (poolIndex data) (pushedVal data) with
    | mk fits pool' =>
      rw [hinsert] at hext hput
      cases fits with
      | false => exact hkept pool' hext
      | true =>
        obtain ⟨hfull, hval⟩ := hput rfl
        constructor
        · simp only [if_true, List.length_set]
        · intro i hi
          simp only [if_true]
          rw [getD_set_ne _ (by omega), getD_set_ne _ (by omega), getD_set_ne _ (by omega)]
        · simp only [if_true]
          rw [List.drop_set_of_lt (by omega), List.drop_set_of_lt (by omega),
            List.drop_set_of_lt (by omega)]
        · exact hext
        · refine Or.inr ⟨hk, ?_, ?_, hfull, hval⟩
          · simp only [if_true]
            rw [getD_set_ne _ (by omega), getD_set_ne _ (by omega), getD_set_self _ (by omega)]
          · simp only [if_true]
            rw [getD_set_ne _ (by omega), getD_set_self _ (by rw [List.length_set]; omega)]
  · rw [if_neg hk]
    exact hkept pool fun h hfull => ⟨hfull, rfl⟩

/-- What becomes of the instruction behind a push. -/
structure Replaced (dests : List ℕ) (val : Word) (i : ℕ) (code r : Bytes) : Prop where
  length : r.length = code.length
  before : ∀ j < i, r.getD j 0 = code.getD j 0
  behind : r.drop (i + 1) = code.drop (i + 1)
  place : r.getD i 0 = code.getD i 0 ∨ isJumpDest dests val = true ∧
    (code.getD i 0 = 0x56 ∧ r.getD i 0 = 0xad ∨ code.getD i 0 = 0x57 ∧ r.getD i 0 = 0xae)

theorem replaceJump_spec (val : Word) {i : ℕ} {code : Bytes} (hlen : i < code.length) :
    Replaced dests val i code (replaceJump dests val i code) := by
  have hkept : Replaced dests val i code code := ⟨rfl, fun _ _ => rfl, rfl, Or.inl rfl⟩
  have hset : ∀ b, isJumpDest dests val = true →
      (code.getD i 0 = 0x56 ∧ b = 0xad ∨ code.getD i 0 = 0x57 ∧ b = 0xae) →
      Replaced dests val i code (code.set i b) := by
    intro b hdest hb
    refine ⟨List.length_set, fun j hj => getD_set_ne _ (by omega), ?_, Or.inr ⟨hdest, ?_⟩⟩
    · exact List.drop_set_of_lt (by omega)
    · rwa [getD_set_self _ hlen]
  unfold replaceJump
  dsimp only
  split_ifs with hjump hdest hjumpi hdest
  · exact hset _ hdest (Or.inl ⟨hjump, rfl⟩)
  · exact hkept
  · exact hset _ hdest (Or.inr ⟨hjumpi, rfl⟩)
  · exact hkept
  · exact hkept

/-- What the pass has made of the instruction at `pc` when it gets there. -/
def Met (pc : ℕ) (b : UInt8) : Prop :=
  b = c.getD pc 0 ∨ ∃ val, PushedBefore c dests n pc val ∧
    (c.getD pc 0 = 0x56 ∧ b = 0xad ∨ c.getD pc 0 = 0x57 ∧ b = 0xae)

/-- What the pass gives from `pc` on. -/
structure Passed (pc : ℕ) (code : Bytes) (pool : hash256) (r : Bytes × hash256) : Prop where
  length : r.1.length = code.length
  before : ∀ i < pc, r.1.getD i 0 = code.getD i 0
  grows : pool.Extends r.2
  placed : ∀ q, Scan c n pc q → Placed c dests n r.1 r.2 q

variable {c dests n} {pc fuel : ℕ} {code c' : Bytes} {pool pool' : hash256}

theorem getD_of_drop {k i : ℕ} (h : c'.drop k = c.drop k) (hi : k ≤ i) :
    c'.getD i 0 = c.getD i 0 := by
  obtain ⟨j, rfl⟩ := Nat.exists_eq_add_of_le hi
  rw [List.getD_eq_getElem?_getD, List.getD_eq_getElem?_getD, ← List.getElem?_drop,
    ← List.getElem?_drop, h]

theorem drop_of_drop {k m : ℕ} (h : c'.drop k = c.drop k) (hm : k ≤ m) :
    c'.drop m = c.drop m := by
  obtain ⟨j, rfl⟩ := Nat.exists_eq_add_of_le hm
  rw [← List.drop_drop, ← List.drop_drop, h]

theorem Met.placed (h : Met c dests n pc (c'.getD pc 0))
    (hdata : ∀ i, 0 < i → i ≤ nPush (c.getD pc 0) → c'.getD (pc + i) 0 = c.getD (pc + i) 0) :
    Placed c dests n c' pool pc := by
  rcases h with hsame | ⟨val, hbefore, ⟨hop, hop'⟩ | ⟨hop, hop'⟩⟩
  · refine .kept fun i hi => ?_
    rcases Nat.eq_zero_or_pos i with rfl | hpos
    · exact hsame
    · exact hdata i hpos hi
  · exact .jump hop hop' hbefore
  · exact .jumpi hop hop' hbefore

/-- A byte that the pass does not take for a push stands for no push. -/
theorem Met.nPush_eq {b : UInt8} (h : Met c dests n pc b) : nPush b = nPush (c.getD pc 0) := by
  rcases h with rfl | ⟨val, -, ⟨hop, rfl⟩ | ⟨hop, rfl⟩⟩
  · rfl
  · rw [hop]
    rfl
  · rw [hop]
    rfl

theorem Met.eq_of_push {b : UInt8} (h : Met c dests n pc b) (hb : 0 < nPush b) :
    b = c.getD pc 0 := by
  rcases h with rfl | ⟨val, -, ⟨-, rfl⟩ | ⟨-, rfl⟩⟩
  · rfl
  · exact absurd hb (by decide)
  · exact absurd hb (by decide)

theorem passed_end (hpc : n ≤ pc) (hmet : Met c dests n pc (code.getD pc 0))
    (htail : code.drop (pc + 1) = c.drop (pc + 1)) :
    Passed c dests n pc code pool (code, pool) := by
  refine ⟨rfl, fun _ _ => rfl, fun _ hfull => ⟨hfull, rfl⟩, fun q hscan => ?_⟩
  obtain rfl := hscan.of_le hpc
  exact hmet.placed fun i hi _ => getD_of_drop htail (by omega)

/-- An instruction that pushes nothing. -/
theorem Passed.skip {r : Bytes × hash256} (h : Passed c dests n (pc + 1) code pool r)
    (hmet : Met c dests n pc (code.getD pc 0)) (hop : nPush (code.getD pc 0) = 0) :
    Passed c dests n pc code pool r := by
  have hnone : nPush (c.getD pc 0) = 0 := hmet.nPush_eq.symm.trans hop
  refine ⟨h.length, fun i hi => h.before i (by omega), h.grows, fun q hscan => ?_⟩
  cases hscan with
  | here =>
    rw [← h.before pc (by omega)] at hmet
    exact hmet.placed fun i hpos hi => by omega
  | later _ hscan =>
    rw [after, hnone] at hscan
    exact h.placed q hscan

/-- A push, with what the pass makes of it and of the instruction behind it. -/
theorem Passed.push {code₁ code₂ : Bytes} {r : Bytes × hash256}
    (h : Passed c dests n (after c pc) code₂ pool' r)
    (hop : code.getD pc 0 = c.getD pc 0) (htail : code.drop (pc + 1) = c.drop (pc + 1))
    (hpooled : Pooled pc (nPush (c.getD pc 0)) (dataAt c pc) code pool (code₁, pool'))
    (hreplaced : Replaced dests (pushedVal (dataAt c pc)) (after c pc) code₁ code₂) :
    Passed c dests n pc code pool r := by
  have hlt := lt_after c pc
  -- Up to the next instruction the code is what `poolPush` has left.
  have hbytes : ∀ i < after c pc, r.1.getD i 0 = code₁.getD i 0 := fun i hi =>
    (h.before i hi).trans (hreplaced.before i hi)
  constructor
  · exact h.length.trans (hreplaced.length.trans hpooled.length)
  · intro i hi
    exact (hbytes i (by omega)).trans (hpooled.before i hi)
  · intro hash hfull
    obtain ⟨hfull', hsame⟩ := hpooled.grows hash hfull
    obtain ⟨hfull'', hsame'⟩ := h.grows hash hfull'
    exact ⟨hfull'', hsame'.trans hsame⟩
  · intro q hscan
    cases hscan with
    | later _ hscan => exact h.placed q hscan
    | here =>
      rcases hpooled.place with hcode | ⟨hsize, hop', hindex, hfull, hval⟩
      · have hcode' : code₁ = code := hcode
        refine .kept fun i hi => ?_
        rw [hbytes _ (by unfold after; omega), hcode']
        rcases Nat.eq_zero_or_pos i with rfl | hpos
        · exact hop
        · exact getD_of_drop htail (by omega)
      · refine .pooled hsize ?_ ?_ ((h.grows _ hfull).2.trans hval)
        · exact (hbytes pc hlt).trans hop'
        · exact (hbytes (pc + 1) (by unfold after; omega)).trans hindex

theorem firstPassLoop_passed (hfuel : n ≤ pc + fuel) (hlen : n + 33 ≤ code.length)
    (hscan : Scan c n 0 pc) (hmet : Met c dests n pc (code.getD pc 0))
    (htail : code.drop (pc + 1) = c.drop (pc + 1)) :
    Passed c dests n pc code pool (firstPassLoop dests n fuel pc code pool) := by
  induction fuel generalizing pc code pool with
  | zero => exact passed_end (by omega) hmet htail
  | succ fuel ih =>
    unfold firstPassLoop
    by_cases hpc : pc < n
    · rw [if_pos hpc]
      dsimp only
      by_cases hpush : 0x60 ≤ code.getD pc 0 ∧ code.getD pc 0 ≤ 0x7f
      · rw [if_pos hpush]
        have hop := hmet.eq_of_push (nPush_pos_iff.mpr hpush)
        have hsize : nPush (c.getD pc 0) ≤ 32 := nPush_le _
        have hdata : dataAt code pc = dataAt c pc := by
          rw [dataAt, hop, htail]
          rfl
        have hafter : pc + nPush (c.getD pc 0) + 1 = after c pc := by
          unfold after
          omega
        rw [hop, hdata, hafter]
        have hpooled := poolPush_spec (dataAt c pc) pool
          (show pc + nPush (c.getD pc 0) + 1 < code.length by omega)
        cases hpush' : poolPush pc (nPush (c.getD pc 0)) (dataAt c pc) code pool with
        | mk code₁ pool₁ =>
          rw [hpush'] at hpooled
          have hlength : code₁.length = code.length := hpooled.length
          have hbehind : code₁.drop (after c pc) = c.drop (after c pc) := by
            rw [← hafter]
            exact hpooled.behind.trans (drop_of_drop htail (by omega))
          have hreplaced := replaceJump_spec dests (pushedVal (dataAt c pc))
            (show after c pc < code₁.length by omega)
          have hhere := getD_of_drop hbehind le_rfl
          refine Passed.push (ih (by omega) ?_ (hscan.next hpc) ?_ ?_) hop htail hpooled hreplaced
          · rw [hreplaced.length, hlength]
            exact hlen
          · rcases hreplaced.place with hsame | ⟨hdest, hop'⟩
            · exact Or.inl (hsame.trans hhere)
            · rw [hhere] at hop'
              exact Or.inr ⟨_, ⟨pc, hpc, hscan, by rw [← hop]; exact nPush_pos_iff.mpr hpush, rfl, rfl,
                hdest⟩, hop'⟩
          · exact hreplaced.behind.trans (drop_of_drop hbehind (by omega))
      · rw [if_neg hpush]
        have hop := nPush_of_not hpush
        have hafter : after c pc = pc + 1 := by rw [after, ← hmet.nPush_eq, hop]
        refine Passed.skip (ih (by omega) hlen ?_ ?_ ?_) hmet hop
        · exact hafter ▸ hscan.next hpc
        · exact Or.inl (getD_of_drop htail le_rfl)
        · exact drop_of_drop htail (by omega)
    · rw [if_neg hpc]
      exact passed_end (by omega) hmet htail

theorem optimize_length (code : Bytes) : (optimize code).1.length = code.length + 33 := by
  have hnone : ∀ d ∈ ([] : List ℕ), d < code.length := fun d hd => by cases hd
  have h := (@optimizeLoop_spec code.length code.length 0 (code ++ List.replicate 33 0) [] hnone).1
  rwa [List.length_append, List.length_replicate] at h

/-- The first pass leaves each instruction of the scanned code as it was, or puts one of the
interpreter's own in its place. -/
theorem firstPass_passed (code : Bytes) :
    Passed (optimize code).1 (optimize code).2 code.length 0 (optimize code).1 hash256.new
      (firstPass code) :=
  firstPassLoop_passed (Nat.le_of_eq (Nat.zero_add _).symm) (optimize_length code).ge (.here 0)
    (Or.inl rfl) rfl

/-- The jump destinations are places of the scan that hold `JUMPDEST`, and at the places of
the scan there are none of the interpreter's own opcodes. -/
theorem optimize_collected (code : Bytes) :
    Collected code.length 0 (code ++ List.replicate 33 0) [] (optimize code) := by
  refine optimizeLoop_collected (Nat.le_of_eq (Nat.zero_add _).symm) ?_
  rw [List.length_append]
  exact Nat.le_add_right _ _

end Placed

end VM
end XChain
