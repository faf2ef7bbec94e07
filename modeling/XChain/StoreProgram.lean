import Mathlib.Data.List.Basic
import Mathlib.Data.Set.Function
import Mathlib.Logic.Function.Basic

/-!
# Programs over a reference-counted content store

A program reads, writes and releases contents filed under addresses. It may also
fail, and whatever it wrote before stays written. The store is any type with the
three operations; its laws say that a release forgets no content and how each
operation moves the reference counts. A program is safe on a store when no write
meets a different content under its address: then every content once found is
found for ever.
-/
namespace XChain

/-- Programs over a store with addresses `H` and contents `B`. -/
inductive StoreProg (H B : Type) (α : Type) where
  | ret (a : α)
  | fail
  | lookup (h : H) (next : B → StoreProg H B α)
  | insert (h : H) (b : B) (next : StoreProg H B α)
  | kill (h : H) (next : StoreProg H B α)

/-- The operations a store offers to a program. -/
class ContentStore (H B : outParam Type) (D : Type) where
  lookup : D → H → B
  insert : D → H → B → D
  kill : D → H → D
  refCount : D → H → ℕ

/-- A lookup of an absent address gives `absent`. A release lowers a positive
count and keeps the content. -/
class LawfulContentStore (H B : outParam Type) (D : Type) [DecidableEq H] (absent : outParam B)
    extends ContentStore H B D where
  lookup_insert_self : ∀ d h b, b ≠ absent → lookup (insert d h b) h = b
  lookup_insert_ne : ∀ d h h' b, h ≠ h' → lookup (insert d h b) h' = lookup d h'
  lookup_kill : ∀ d h h', lookup (kill d h) h' = lookup d h'
  refCount_insert : ∀ d h b h', refCount (insert d h b) h' = refCount d h' + if h = h' then 1 else 0
  refCount_kill : ∀ d h h', refCount (kill d h) h' = refCount d h' - if h = h' then 1 else 0

namespace StoreProg

variable {H B α β D : Type}

protected def bind : StoreProg H B α → (α → StoreProg H B β) → StoreProg H B β
  | .ret a, f => f a
  | .fail, _ => .fail
  | .lookup h next, f => .lookup h fun b => (next b).bind f
  | .insert h b next, f => .insert h b (next.bind f)
  | .kill h next, f => .kill h (next.bind f)

instance : Monad (StoreProg H B) where
  pure := .ret
  bind := StoreProg.bind

instance : LawfulMonad (StoreProg H B) := LawfulMonad.mk' (StoreProg H B)
  (fun m => by
    change m.bind .ret = m
    induction m with
    | ret a => rfl
    | fail => rfl
    | lookup h next ih => exact congrArg (StoreProg.lookup h) (funext ih)
    | insert h b next ih => exact congrArg (StoreProg.insert h b) ih
    | kill h next ih => exact congrArg (StoreProg.kill h) ih)
  (fun _ _ => rfl)
  (fun m f g => by
    change (m.bind f).bind g = m.bind fun a => (f a).bind g
    induction m with
    | ret a => rfl
    | fail => rfl
    | lookup h next ih => exact congrArg (StoreProg.lookup h) (funext ih)
    | insert h b next ih => exact congrArg (StoreProg.insert h b) ih
    | kill h next ih => exact congrArg (StoreProg.kill h) ih)

/-- Fails unless the condition holds. -/
def assert (p : Prop) [Decidable p] : StoreProg H B Unit := if p then .ret () else .fail

/-- Fails where there is no value. -/
def ofOption : Option α → StoreProg H B α
  | some a => .ret a
  | none => .fail

section Semantics

variable [ContentStore H B D]

/-- The result and the store a program leaves behind; a failing program has no
result. -/
def run : StoreProg H B α → D → Option α × D
  | .ret a, d => (some a, d)
  | .fail, d => (none, d)
  | .lookup h next, d => (next (ContentStore.lookup d h)).run d
  | .insert h b next, d => next.run (ContentStore.insert d h b)
  | .kill h next, d => next.run (ContentStore.kill d h)

@[simp] theorem run_pure (a : α) (d : D) : (pure a : StoreProg H B α).run d = (some a, d) := rfl

@[simp] theorem run_bind (m : StoreProg H B α) (f : α → StoreProg H B β) (d : D) :
    (m >>= f).run d = match m.run d with
      | (some a, d') => (f a).run d'
      | (none, d') => (none, d') := by
  change (m.bind f).run d = _
  induction m generalizing d with
  | ret a => rfl
  | fail => rfl
  | lookup h next ih => exact ih _ d
  | insert h b next ih => exact ih _
  | kill h next ih => exact ih _

@[simp] theorem run_assert (p : Prop) [Decidable p] (d : D) :
    (assert p : StoreProg H B Unit).run d = (if p then some () else none, d) := by
  unfold assert
  split_ifs <;> rfl

@[simp] theorem run_ofOption (o : Option α) (d : D) :
    (ofOption o : StoreProg H B α).run d = (o, d) := by
  cases o <;> rfl

/-- No write of the program meets another content under its address. -/
def safe [DecidableEq B] (absent : B) : StoreProg H B α → D → Bool
  | .ret _, _ => true
  | .fail, _ => true
  | .lookup h next, d => (next (ContentStore.lookup d h)).safe absent d
  | .insert h b next, d =>
    (b != absent && (ContentStore.lookup d h == absent || ContentStore.lookup d h == b)) &&
      next.safe absent (ContentStore.insert d h b)
  | .kill h next, d => next.safe absent (ContentStore.kill d h)

/-- The contents the program writes. -/
def writes : StoreProg H B α → D → List B
  | .ret _, _ => []
  | .fail, _ => []
  | .lookup h next, d => (next (ContentStore.lookup d h)).writes d
  | .insert h b next, d => b :: next.writes (ContentStore.insert d h b)
  | .kill h next, d => next.writes (ContentStore.kill d h)

variable [DecidableEq B] {absent : B}

/-- A sequence of programs is safe when its parts are, each where it starts. -/
theorem safe_bind (m : StoreProg H B α) (f : α → StoreProg H B β) (d : D) :
    (m >>= f).safe absent d = true ↔
      m.safe absent d = true ∧
        ∀ a d', m.run d = (some a, d') → (f a).safe absent d' = true := by
  change (m.bind f).safe absent d = true ↔ _
  induction m generalizing d with
  | ret a => simp [StoreProg.bind, safe, run]
  | fail => simp [StoreProg.bind, safe, run]
  | lookup h next ih => exact ih _ d
  | insert h b next ih => simp only [StoreProg.bind, safe, run, Bool.and_eq_true, ih, and_assoc]
  | kill h next ih => exact ih _

end Semantics

section Acts

variable {W : H → B → Prop} {K : H → Prop}

/-- Every write of the program is one of `W`, every release one of `K`. -/
def Acts (W : H → B → Prop) (K : H → Prop) : StoreProg H B α → Prop
  | .ret _ => True
  | .fail => True
  | .lookup _ next => ∀ b, (next b).Acts W K
  | .insert h b next => W h b ∧ next.Acts W K
  | .kill h next => K h ∧ next.Acts W K

theorem acts_bind {m : StoreProg H B α} {f : α → StoreProg H B β} (hm : m.Acts W K)
    (hf : ∀ a, (f a).Acts W K) : (m >>= f).Acts W K := by
  change (m.bind f).Acts W K
  induction m with
  | ret a => exact hf a
  | fail => trivial
  | lookup h next ih => exact fun b => ih b (hm b)
  | insert h b next ih => exact ⟨hm.1, ih hm.2⟩
  | kill h next ih => exact ⟨hm.1, ih hm.2⟩

theorem acts_map {m : StoreProg H B α} {f : α → β} (hm : m.Acts W K) : (f <$> m).Acts W K :=
  acts_bind hm fun _ => trivial

theorem acts_assert (p : Prop) [Decidable p] : Acts W K (assert p : StoreProg H B Unit) := by
  unfold assert
  split_ifs <;> trivial

theorem acts_ofOption (o : Option α) : Acts W K (ofOption o : StoreProg H B α) := by
  cases o <;> trivial

theorem acts_ite {p : Prop} [Decidable p] {m m' : StoreProg H B α} (hm : m.Acts W K)
    (hm' : m'.Acts W K) : Acts W K (if p then m else m') := by
  split_ifs
  · exact hm
  · exact hm'

/-- The program files every content under its own address and never writes `absent`. -/
abbrev Filed (addr : B → H) (absent : B) (m : StoreProg H B α) : Prop :=
  m.Acts (fun h b => h = addr b ∧ b ≠ absent) fun _ => True

/-- The program changes nothing. -/
abbrev ReadOnly (m : StoreProg H B α) : Prop := m.Acts (fun _ _ => False) fun _ => False

theorem ReadOnly.safe [ContentStore H B D] [DecidableEq B] {absent : B} {m : StoreProg H B α}
    (hm : m.ReadOnly) (d : D) : m.safe absent d = true := by
  induction m generalizing d with
  | ret a => rfl
  | fail => rfl
  | lookup h next ih => exact ih _ (hm _) d
  | insert h b next ih => exact hm.1.elim
  | kill h next ih => exact hm.1.elim

end Acts

section Laws

variable [DecidableEq H] {absent : B} [LawfulContentStore H B D absent]

/-- Every content found in `d` is found in `d'`. -/
def Extends (absent : B) (d d' : D) : Prop :=
  ∀ h, ContentStore.lookup d h ≠ absent → ContentStore.lookup d' h = ContentStore.lookup d h

@[refl] theorem Extends.refl (d : D) : Extends absent d d := fun _ _ => rfl

theorem Extends.trans {a b c : D} (hab : Extends absent a b) (hbc : Extends absent b c) :
    Extends absent a c := by
  intro h ha
  have hb := hab h ha
  rw [hbc h (by rwa [hb]), hb]

theorem extends_insert (d : D) (h : H) (b : B) (hb : b ≠ absent)
    (hsafe : ContentStore.lookup d h = absent ∨ ContentStore.lookup d h = b) :
    Extends absent d (ContentStore.insert d h b) := by
  intro h' hne
  by_cases heq : h = h'
  · subst heq
    rw [LawfulContentStore.lookup_insert_self d h b hb]
    exact (hsafe.resolve_left hne).symm
  · exact LawfulContentStore.lookup_insert_ne d h h' b heq

/-- A safe program loses no content, whether it succeeds or fails. -/
theorem run_extends [DecidableEq B] (m : StoreProg H B α) (d : D) (hm : m.safe absent d = true) :
    Extends absent d (m.run d).2 := by
  induction m generalizing d with
  | ret a => rfl
  | fail => rfl
  | lookup h next ih => exact ih _ d hm
  | insert h b next ih =>
    simp only [safe, Bool.and_eq_true, bne_iff_ne, ne_eq, Bool.or_eq_true, beq_iff_eq] at hm
    exact (extends_insert d h b hm.1.1 hm.1.2).trans (ih _ hm.2)
  | kill h next ih =>
    have hkill : Extends absent d (ContentStore.kill d h) :=
      fun h' _ => LawfulContentStore.lookup_kill d h h'
    exact hkill.trans (ih _ hm)

/-- Every content in the store belongs to `S` and lies under its own address. -/
def Consistent (addr : B → H) (absent : B) (S : Set B) (d : D) : Prop :=
  ∀ h, ContentStore.lookup d h ≠ absent →
    ContentStore.lookup d h ∈ S ∧ addr (ContentStore.lookup d h) = h

lemma Consistent.insert {addr : B → H} {S : Set B} {d : D} (hd : Consistent addr absent S d) {b : B}
    (hb : b ∈ S) (hne : b ≠ absent) :
    Consistent addr absent S (ContentStore.insert d (addr b) b) := by
  intro h hh
  by_cases heq : addr b = h
  · subst heq
    rw [LawfulContentStore.lookup_insert_self d _ b hne]
    exact ⟨hb, rfl⟩
  · rw [LawfulContentStore.lookup_insert_ne d _ h b heq] at hh ⊢
    exact hd h hh

lemma Consistent.kill {addr : B → H} {S : Set B} {d : D} (hd : Consistent addr absent S d) (h : H) :
    Consistent addr absent S (ContentStore.kill d h) := by
  intro h' hh
  rw [LawfulContentStore.lookup_kill d h h'] at hh ⊢
  exact hd h' hh

/-- When no two contents in play share an address, a program that files contents
under their addresses is safe, and it leaves a consistent store. -/
theorem safe_of_injOn [DecidableEq B] {addr : B → H} {S : Set B} (hinj : Set.InjOn addr S)
    {m : StoreProg H B α} (hm : m.Filed addr absent) {d : D} (hd : Consistent addr absent S d)
    (hw : ∀ b ∈ m.writes d, b ∈ S) :
    m.safe absent d = true ∧ Consistent addr absent S (m.run d).2 := by
  induction m generalizing d with
  | ret a => exact ⟨rfl, hd⟩
  | fail => exact ⟨rfl, hd⟩
  | lookup h next ih => exact ih _ (hm _) hd hw
  | insert h b next ih =>
    obtain ⟨⟨rfl, hne⟩, hnext⟩ := hm
    have hb : b ∈ S := hw b List.mem_cons_self
    obtain ⟨hsafe, hcons⟩ := ih hnext (hd.insert hb hne)
      fun b' hb' => hw b' (List.mem_cons_of_mem _ hb')
    refine ⟨?_, hcons⟩
    simp only [safe, Bool.and_eq_true, bne_iff_ne, ne_eq, Bool.or_eq_true, beq_iff_eq]
    refine ⟨⟨hne, ?_⟩, hsafe⟩
    by_cases hold : ContentStore.lookup d (addr b) = absent
    · exact Or.inl hold
    · exact Or.inr (hinj (hd _ hold).1 hb (hd _ hold).2)
  | kill h next ih => exact ih hm.2 (hd.kill h) hw

/-- When safe, the program succeeds with a result and a store as described. -/
def Ensures [DecidableEq B] (absent : B) (m : StoreProg H B α) (d : D) (Q : α → D → Prop) : Prop :=
  m.safe absent d = true → ∃ a d', m.run d = (some a, d') ∧ Q a d'

section Rules

variable [DecidableEq B] {d : D} {Q : α → D → Prop}

theorem Ensures.mono {m : StoreProg H B α} {P : α → D → Prop} (h : Ensures absent m d P)
    (hPQ : ∀ a d', Extends absent d d' → P a d' → Q a d') : Ensures absent m d Q := by
  intro hs
  obtain ⟨a, d', hrun, hP⟩ := h hs
  have hext := run_extends m d hs
  rw [hrun] at hext
  exact ⟨a, d', hrun, hPQ a d' hext hP⟩

theorem Ensures.and {m : StoreProg H B α} {P : α → D → Prop} (hP : Ensures absent m d P)
    (hQ : Ensures absent m d Q) : Ensures absent m d fun a d' => P a d' ∧ Q a d' := by
  intro hs
  obtain ⟨a, d', hrun, ha⟩ := hP hs
  obtain ⟨b, e, hrun', hb⟩ := hQ hs
  rw [hrun] at hrun'
  cases hrun'
  exact ⟨a, d', hrun, ha, hb⟩

/-- The result described is the one the program has. -/
theorem Ensures.with_run {m : StoreProg H B α} (h : Ensures absent m d Q) :
    Ensures absent m d fun a d' => m.run d = (some a, d') ∧ Q a d' := by
  intro hs
  obtain ⟨a, d', hrun, hQ⟩ := h hs
  exact ⟨a, d', hrun, hrun, hQ⟩

theorem ensures_pure {a : α} (h : Q a d) : Ensures absent (pure a : StoreProg H B α) d Q :=
  fun _ => ⟨a, d, rfl, h⟩

theorem ensures_bind {m : StoreProg H B α} {f : α → StoreProg H B β} {Q : β → D → Prop}
    (h : Ensures absent m d fun a d' => Extends absent d d' → Ensures absent (f a) d' Q) :
    Ensures absent (m >>= f) d Q := by
  intro hs
  obtain ⟨hm, hf⟩ := (safe_bind m f d).mp hs
  obtain ⟨a, d', hrun, hnext⟩ := h hm
  have hext := run_extends m d hm
  rw [hrun] at hext
  obtain ⟨b, d'', hrun', hQ⟩ := hnext hext (hf a d' hrun)
  exact ⟨b, d'', by rw [run_bind, hrun]; exact hrun', hQ⟩

theorem ensures_map {m : StoreProg H B α} {f : α → β} {Q : β → D → Prop}
    (h : Ensures absent m d fun a d' => Q (f a) d') : Ensures absent (f <$> m) d Q :=
  ensures_bind (h.mono fun _ _ _ hQ _ => ensures_pure hQ)

theorem ensures_ofOption {o : Option α} {a : α} (ho : o = some a) (h : Q a d) :
    Ensures absent (ofOption o : StoreProg H B α) d Q := by
  subst ho
  exact fun _ => ⟨a, d, rfl, h⟩

theorem ensures_assert {p : Prop} [Decidable p] {Q : Unit → D → Prop} (hp : p) (h : Q () d) :
    Ensures absent (assert p : StoreProg H B Unit) d Q := by
  rw [assert, if_pos hp]
  exact fun _ => ⟨(), d, rfl, h⟩

theorem ensures_lookup {h : H} {next : B → StoreProg H B α}
    (hnext : Ensures absent (next (ContentStore.lookup d h)) d Q) :
    Ensures absent (.lookup h next) d Q := hnext

/-- A write is found afterwards. -/
theorem ensures_insert {h : H} {b : B} {next : StoreProg H B α}
    (hnext : ContentStore.lookup (ContentStore.insert d h b) h = b →
      Ensures absent next (ContentStore.insert d h b) Q) :
    Ensures absent (.insert h b next) d Q := by
  intro hs
  simp only [safe, Bool.and_eq_true, bne_iff_ne, ne_eq] at hs
  exact hnext (LawfulContentStore.lookup_insert_self d h b hs.1.1) hs.2

theorem ensures_kill {h : H} {next : StoreProg H B α}
    (hnext : Ensures absent next (ContentStore.kill d h) Q) :
    Ensures absent (.kill h next) d Q := hnext

end Rules

end Laws

end StoreProg
end XChain
