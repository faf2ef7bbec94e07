import XChain.ClientBase
import XChain.Assoc

/-!
# Watches

Filters are kept by their hash, watches by a number. What a filter finds is collected at
the filter first. A caller that appends notes the filters that found something, and hands
them over when it is done; the watches on these filters then receive what was collected,
and every filter is cleared.
-/
namespace XChain

def PendingChangedFilter : H256 := .ofNat 0

def ChainChangedFilter : H256 := .ofNat 1

/-- An entry of a log, or the hash of a new transaction or block. -/
inductive Change where
  | log (e : LocalisedLogEntry)
  | special (hash : H256)

structure InstalledFilter (Filter : Type) where
  filter : Filter
  refCount : BitVec 32 := 1
  changes : List LocalisedLogEntry := []

structure ClientWatch where
  id : H256
  changes : List Change := []

/-- The filters and watches of a client. -/
structure Watches (Filter : Type) where
  m_filters : H256 → Option (InstalledFilter Filter)
  m_specialFilters : H256 → Option (List H256)
  m_watches : AList fun _ : ℕ => ClientWatch

namespace Watches

variable {Filter : Type} (hash : Filter → H256)
  (matchesReceipt : Filter → TransactionReceipt → List LogEntry) (c : BlockChain)
  (s : Watches Filter)

/-- No filters except for the special ones, and no watches. -/
def init : Watches Filter where
  m_filters _ := none
  m_specialFilters h := if h = PendingChangedFilter ∨ h = ChainChangedFilter then some [] else none
  m_watches := ∅

/-- One more than the last number, as an unsigned word of 32 bits. -/
def nextWatch : ℕ :=
  match s.m_watches.keys.max? with
  | some last => (last + 1) % 2 ^ 32
  | none => 0

def installHash (h : H256) : Watches Filter :=
  { s with m_watches := s.m_watches.insert s.nextWatch { id := h } }

def addFilter (h : H256) (f : Filter) : Watches Filter :=
  { s with m_filters := Function.update s.m_filters h (some { filter := f }) }

/-- A filter that is there already is taken as it is. -/
def installWatch (f : Filter) : Watches Filter :=
  let s := if (s.m_filters (hash f)).isSome then s else s.addFilter (hash f) f
  s.installHash (hash f)

def uninstallWatch (i : ℕ) : Watches Filter :=
  match s.m_watches.lookup i with
  | none => s
  | some w =>
    let s := { s with m_watches := s.m_watches.erase i }
    match s.m_filters w.id with
    | none => s
    | some f =>
      let left : Option (InstalledFilter Filter) :=
        if f.refCount - 1 = 0 then none else some { f with refCount := f.refCount - 1 }
      { s with m_filters := Function.update s.m_filters w.id left }

/-- Hands out what a watch has received; nothing for a number without a watch. -/
def checkWatch (i : ℕ) : Option (Watches Filter × List Change) :=
  (s.m_watches.lookup i).map fun w =>
    ({ s with m_watches := s.m_watches.insert i { w with changes := [] } }, w.changes)

/-- What was collected for a hash. -/
def filterChanges (h : H256) : List Change :=
  match s.m_filters h with
  | some f => f.changes.map .log
  | none => ((s.m_specialFilters h).getD []).map .special

/-- Only watches on the given filters receive something, but every filter is cleared. -/
def noteChanged (filters : H256 → Bool) : Watches Filter where
  m_filters h := (s.m_filters h).map fun f => { f with changes := [] }
  m_specialFilters h := (s.m_specialFilters h).map fun _ => []
  m_watches := mapValues (fun w => if filters w.id then
    { w with changes := w.changes ++ s.filterChanges w.id } else w) s.m_watches

/-- One hash for a special filter and what each filter finds. The filters that find
something are added to the changed ones. -/
def append (special x : H256) (found : Filter → List LocalisedLogEntry) (io_changed : H256 → Bool) :
    Watches Filter × (H256 → Bool) :=
  ({ s with
      m_filters := fun h => (s.m_filters h).map fun f =>
        { f with changes := f.changes ++ found f.filter }
      m_specialFilters := fun h => (s.m_specialFilters h).map fun l =>
        if h = special then l ++ [x] else l },
    fun h => io_changed h || h = special ||
      (s.m_filters h).any fun f => !(found f.filter).isEmpty)

def pendingEntries (receipt : TransactionReceipt) (f : Filter) : List LocalisedLogEntry :=
  (matchesReceipt f receipt).map fun l => ⟨l, none⟩

def appendFromNewPending (receipt : TransactionReceipt) (sha3 : H256) (io_changed : H256 → Bool) :
    Watches Filter × (H256 → Bool) :=
  s.append PendingChangedFilter sha3 (pendingEntries matchesReceipt receipt) io_changed

def blockEntries (block : H256) (polarity : BlockPolarity) (f : Filter) : List LocalisedLogEntry :=
  (c.receipts block).zipIdx.flatMap fun r => (matchesReceipt f r.1).map fun l => ⟨l, some
    { blockHash := block
      blockNumber := c.numberOf block
      transactionHash := c.transactionHash block r.2
      transactionIndex := r.2
      logIndex := 0
      polarity := polarity }⟩

def appendFromBlock (block : H256) (polarity : BlockPolarity) (io_changed : H256 → Bool) :
    Watches Filter × (H256 → Bool) :=
  s.append ChainChangedFilter block (blockEntries matchesReceipt c block polarity) io_changed

/-- Nothing is passed on when the pending block is given up. -/
def clearPending (pending : Bool) : Watches Filter :=
  if pending then s.noteChanged fun _ => false else s

section Counting

/-- The number of watches on a filter. -/
def watchesOn (h : H256) : ℕ := countValues (fun w => w.id = h) s.m_watches

def Ordinary (h : H256) : Prop := h ≠ PendingChangedFilter ∧ h ≠ ChainChangedFilter

/-- Filters are there as long as watches refer to them. -/
structure Counted : Prop where
  present : ∀ h, Ordinary h → ((s.m_filters h).isSome ↔ ∃ i w, s.m_watches.lookup i = some w ∧ w.id = h)
  refCount : ∀ h f, Ordinary h → s.m_filters h = some f → f.refCount.toNat = s.watchesOn h
  others : ∀ i j w, i ≠ j → s.m_watches.lookup j = some w → Ordinary w.id →
    ((s.uninstallWatch i).m_filters w.id).isSome

inductive InstallOp (Filter : Type) where
  | installWatch (f : Filter)
  | installHash (h : H256)
  | uninstallWatch (i : ℕ)

def installStep : InstallOp Filter → Watches Filter
  | .installWatch f => s.installWatch hash f
  | .installHash h => s.installHash h
  | .uninstallWatch i => s.uninstallWatch i

def installRun (ops : List (InstallOp Filter)) : Watches Filter := ops.foldl (installStep hash) s

/-- The count of a filter, zero when it is not there. -/
def refs (h : H256) : ℕ :=
  match s.m_filters h with
  | some f => f.refCount.toNat
  | none => 0

/-- The filter of the watch whose number is given away again. -/
def overwritten : Option H256 := (s.m_watches.lookup s.nextWatch).map ClientWatch.id

/-- An installation that leaves the counts right: the filter is a new one or a special one,
and no watch on an ordinary filter is overwritten, unless by one on the same filter. -/
def Fresh (h : H256) (byFilter : Prop) : Prop :=
  s.overwritten = some h ∨
    (∀ h', s.overwritten = some h' → ¬ Ordinary h') ∧ (Ordinary h → byFilter ∧ s.watchesOn h = 0)

def Fits : InstallOp Filter → Prop
  | .installWatch f => s.Fresh (hash f) True
  | .installHash h => s.Fresh h False
  | .uninstallWatch _ => True

/-- The counts of the filters are those of the watches. -/
def Balanced : Prop :=
  ∀ h, Ordinary h → s.refs h = s.watchesOn h ∧ ((s.m_filters h).isSome → 0 < s.refs h)

variable {s} {hash}

theorem watchesOn_pos {h : H256} :
    0 < s.watchesOn h ↔ ∃ i w, s.m_watches.lookup i = some w ∧ w.id = h := by
  simp [watchesOn, countValues_pos]

theorem Balanced.isSome_iff (hs : s.Balanced) {h : H256} (ho : Ordinary h) :
    (s.m_filters h).isSome ↔ 0 < s.watchesOn h := by
  obtain ⟨hrefs, hpos⟩ := hs h ho
  constructor
  · intro hsome
    rw [← hrefs]
    exact hpos hsome
  · intro hwatch
    rw [← hrefs, refs] at hwatch
    cases hf : s.m_filters h with
    | some f => rfl
    | none =>
      rw [hf] at hwatch
      exact absurd hwatch (lt_irrefl 0)

/-- The watch that is erased is counted no longer. -/
theorem watchesOn_erase {i : ℕ} {w : ClientWatch} (hw : s.m_watches.lookup i = some w) (h : H256) :
    s.watchesOn h =
      countValues (fun w => decide (w.id = h)) (s.m_watches.erase i) + (if w.id = h then 1 else 0) := by
  rw [watchesOn, countValues_erase _ _ _ hw]
  simp

/-- Uninstalling takes one from the number of watches and from the count. -/
theorem Balanced.uninstallWatch (hs : s.Balanced) (i : ℕ) : (s.uninstallWatch i).Balanced := by
  intro h ho
  cases hw : s.m_watches.lookup i with
  | none =>
    rw [Watches.uninstallWatch, hw]
    exact hs h ho
  | some w =>
    have hcount := watchesOn_erase hw h
    by_cases hid : w.id = h
    · rw [if_pos hid] at hcount
      have hwatches : (s.uninstallWatch i).watchesOn h = s.watchesOn h - 1 := by
        rw [hcount, Nat.add_sub_cancel]
        simp only [Watches.uninstallWatch, hw]
        cases hf : s.m_filters w.id <;> rfl
      obtain ⟨hrefs, -⟩ := hs h ho
      cases hf : s.m_filters h with
      | none =>
        simp only [refs, hf] at hrefs
        omega
      | some f =>
        simp only [refs, hf] at hrefs
        have hpred : (f.refCount - 1).toNat = f.refCount.toNat - 1 := by
          have hle : (1 : BitVec 32) ≤ f.refCount := by
            rw [BitVec.le_def]
            simp
            omega
          rw [BitVec.toNat_sub_of_le hle]
          rfl
        have hfilters : (s.uninstallWatch i).m_filters h =
            if f.refCount - 1 = 0 then none else some { f with refCount := f.refCount - 1 } := by
          simp only [Watches.uninstallWatch, hw, hid, hf, Function.update_self]
        rw [refs, hfilters, hwatches]
        by_cases hleft : f.refCount - 1 = 0
        · have hzero : (f.refCount - 1).toNat = 0 := by rw [hleft]; rfl
          rw [if_pos hleft]
          exact ⟨by show 0 = _; omega, fun h => absurd h (by simp)⟩
        · have hmore : (f.refCount - 1).toNat ≠ 0 := fun h0 => hleft (BitVec.eq_of_toNat_eq h0)
          rw [if_neg hleft]
          exact ⟨by show (f.refCount - 1).toNat = _; omega, fun _ => by
            show 0 < (f.refCount - 1).toNat
            omega⟩
    · rw [if_neg hid, Nat.add_zero] at hcount
      have hfilters : (s.uninstallWatch i).m_filters h = s.m_filters h := by
        simp only [Watches.uninstallWatch, hw]
        cases hf : s.m_filters w.id with
        | none => rfl
        | some f => exact Function.update_of_ne (Ne.symm hid) _ _
      have hwatches : (s.uninstallWatch i).watchesOn h = s.watchesOn h := by
        rw [hcount]
        simp only [Watches.uninstallWatch, hw]
        cases hf : s.m_filters w.id <;> rfl
      simp only [refs, hfilters, hwatches]
      exact hs h ho

/-- A new watch is counted, and the one that it overwrites is not. -/
theorem watchesOn_installHash (h h' : H256) :
    (s.installHash h).watchesOn h' + (if s.overwritten = some h' then 1 else 0) =
      s.watchesOn h' + (if h = h' then 1 else 0) := by
  have hnew : (s.installHash h).watchesOn h' =
      countValues (fun w => decide (w.id = h')) (s.m_watches.erase s.nextWatch) +
        (if h = h' then 1 else 0) := by
    rw [watchesOn, installHash, countValues_insert]
    simp
  cases hold : s.m_watches.lookup s.nextWatch with
  | none =>
    rw [hnew, erase_of_lookup_eq_none _ _ hold, overwritten, hold]
    simp [watchesOn]
  | some w =>
    have hcount := watchesOn_erase hold h'
    rw [hnew, overwritten, hold]
    simp only [Option.map_some, Option.some.injEq]
    omega

/-- The counts after an installation, given what it did to the counts and to the filters. -/
theorem Balanced.install_iff (hs : s.Balanced) {t : Watches Filter} {h : H256} {byFilter : Prop}
    (hwatches : ∀ h', t.watchesOn h' = (s.installHash h).watchesOn h')
    (hothers : ∀ h', h' ≠ h → t.m_filters h' = s.m_filters h')
    (hself : Ordinary h → (byFilter ∧ s.m_filters h = none ∧ t.refs h = 1) ∨
      ((byFilter → (s.m_filters h).isSome) ∧ t.m_filters h = s.m_filters h)) :
    t.Balanced ↔ s.Fresh h byFilter := by
  have hcount := fun h' => watchesOn_installHash (s := s) h h'
  simp only [← hwatches] at hcount
  have hrefs : ∀ h', h' ≠ h → t.refs h' = s.refs h' := fun h' hne => by
    rw [refs, refs, hothers h' hne]
  constructor
  · intro ht
    -- No other ordinary filter may have lost a watch.
    have hlost : ∀ h', s.overwritten = some h' → h' ≠ h → ¬ Ordinary h' := by
      intro h' hold hne ho
      have h1 := (hs h' ho).1
      have h2 := (ht h' ho).1
      have h3 := hcount h'
      have h4 := hrefs h' hne
      rw [if_pos hold, if_neg (Ne.symm hne)] at h3
      omega
    by_cases hsame : s.overwritten = some h
    · exact Or.inl hsame
    · refine Or.inr ⟨fun h' hold => ?_, fun ho => ?_⟩
      · exact hlost h' hold fun heq => hsame (heq ▸ hold)
      · have h1 := (hs h ho).1
        have h2 := (ht h ho).1
        have h3 := hcount h
        rw [if_neg hsame, if_pos rfl] at h3
        rcases hself ho with ⟨hby, hnone, -⟩ | ⟨-, hfilter⟩
        · have hzero : s.refs h = 0 := by rw [refs, hnone]
          exact ⟨hby, by omega⟩
        · have hkeep : t.refs h = s.refs h := by rw [refs, refs, hfilter]
          omega
  · intro hfresh h' ho
    have h1 := hs h' ho
    have h3 := hcount h'
    by_cases heq : h' = h
    · subst heq
      rw [if_pos rfl] at h3
      rcases hfresh with hsame | ⟨hold, hnew⟩
      · rw [if_pos hsame] at h3
        have hlive : 0 < s.watchesOn h' := by
          obtain ⟨w, hw, hid⟩ := Option.map_eq_some_iff.mp hsame
          exact watchesOn_pos.mpr ⟨_, w, hw, hid⟩
        rcases hself ho with ⟨-, hnone, -⟩ | ⟨-, hfilter⟩
        · have hsome := (hs.isSome_iff ho).mpr hlive
          rw [hnone] at hsome
          exact absurd hsome (by simp)
        · rw [refs, hfilter, ← refs]
          exact ⟨by omega, h1.2⟩
      · obtain ⟨hby, hzero⟩ := hnew ho
        rw [if_neg fun h => hold h' h ho] at h3
        rcases hself ho with ⟨-, -, hone⟩ | ⟨hsome, -⟩
        · exact ⟨by omega, fun _ => by omega⟩
        · have hpos := (hs.isSome_iff ho).mp (hsome hby)
          omega
    · rw [if_neg (Ne.symm heq)] at h3
      have hkeep : ¬ s.overwritten = some h' := by
        intro hold
        rcases hfresh with hsame | ⟨hspecial, -⟩
        · exact heq (Option.some.inj (hold.symm.trans hsame))
        · exact hspecial h' hold ho
      rw [if_neg hkeep] at h3
      rw [refs, hothers h' heq, ← refs]
      exact ⟨by omega, h1.2⟩

theorem Balanced.step_iff (hs : s.Balanced) (op : InstallOp Filter) :
    (s.installStep hash op).Balanced ↔ s.Fits hash op := by
  cases op with
  | installWatch f =>
    by_cases hf : (s.m_filters (hash f)).isSome
    · have hstep : s.installStep hash (.installWatch f) = s.installHash (hash f) := by
        simp only [installStep, installWatch, if_pos hf]
      rw [hstep]
      exact hs.install_iff (fun _ => rfl) (fun _ _ => rfl) fun _ => Or.inr ⟨fun _ => hf, rfl⟩
    · have hstep : s.installStep hash (.installWatch f) =
          (s.addFilter (hash f) f).installHash (hash f) := by
        simp only [installStep, installWatch, if_neg hf]
      rw [hstep]
      refine hs.install_iff (fun _ => rfl) (fun h' hne => Function.update_of_ne hne _ _) fun _ => ?_
      refine Or.inl ⟨trivial, Option.not_isSome_iff_eq_none.mp hf, ?_⟩
      simp [installHash, addFilter, refs]
  | installHash h =>
    exact hs.install_iff (fun _ => rfl) (fun _ _ => rfl) fun _ => Or.inr ⟨False.elim, rfl⟩
  | uninstallWatch i =>
    exact iff_of_true (hs.uninstallWatch i) trivial

theorem counted_iff : s.Counted ↔ s.Balanced := by
  constructor
  · intro hs h ho
    have hpresent := hs.present h ho
    rw [← watchesOn_pos] at hpresent
    cases hf : s.m_filters h with
    | some f =>
      have hcount := hs.refCount h f ho hf
      rw [hf] at hpresent
      have hpos := hpresent.mp rfl
      simp only [refs, hf]
      exact ⟨hcount, fun _ => by omega⟩
    | none =>
      rw [hf] at hpresent
      have hzero : ¬ 0 < s.watchesOn h := fun hpos => absurd (hpresent.mpr hpos) (by simp)
      simp only [refs, hf]
      exact ⟨by omega, by simp⟩
  · intro hs
    have hpresent : ∀ h, Ordinary h →
        ((s.m_filters h).isSome ↔ ∃ i w, s.m_watches.lookup i = some w ∧ w.id = h) := by
      intro h ho
      rw [hs.isSome_iff ho, watchesOn_pos]
    refine ⟨hpresent, fun h f ho hf => ?_, fun i j w hne hw ho => ?_⟩
    · have hrefs := (hs h ho).1
      rwa [refs, hf] at hrefs
    · have hafter := hs.uninstallWatch i
      rw [hafter.isSome_iff ho, watchesOn_pos]
      refine ⟨j, w, ?_, rfl⟩
      cases hi : s.m_watches.lookup i with
      | none =>
        rw [Watches.uninstallWatch, hi]
        exact hw
      | some v =>
        have herase : (s.m_watches.erase i).lookup j = some w := by
          rw [AList.lookup_erase_ne (Ne.symm hne), hw]
        simp only [Watches.uninstallWatch, hi]
        cases hv : s.m_filters v.id <;> exact herase

theorem balanced_init : (init : Watches Filter).Balanced := by
  intro h ho
  exact ⟨rfl, fun hsome => absurd hsome (by simp [init])⟩

/-- The counts are right in every state that is reached if and only if every installation
is one of a filter that no watch refers to yet. -/
theorem counted_exact (ops : List (InstallOp Filter)) :
    (∀ pre post, ops = pre ++ post → (installRun hash init pre).Counted) ↔
      ∀ pre op post, ops = pre ++ op :: post → (installRun hash init pre).Fits hash op := by
  have hsnoc : ∀ pre op, installRun hash (init : Watches Filter) (pre ++ [op]) =
      (installRun hash init pre).installStep hash op := fun pre op => List.foldl_concat _ _ _ _
  constructor
  · intro h pre op post hops
    have hpre := counted_iff.mp (h pre (op :: post) hops)
    have hnext := counted_iff.mp (h (pre ++ [op]) post (by rw [hops, List.append_assoc]; rfl))
    rw [hsnoc] at hnext
    exact (hpre.step_iff op).mp hnext
  · intro h pre
    induction pre using List.reverseRecOn with
    | nil =>
      intro post _
      exact counted_iff.mpr balanced_init
    | append_singleton pre op ih =>
      intro post hops
      rw [List.append_assoc] at hops
      have hpre := counted_iff.mp (ih (op :: post) hops)
      rw [hsnoc, counted_iff, hpre.step_iff]
      exact h pre op post hops

/-- Two watches on one filter, one of which is uninstalled. -/
theorem shared_filter_lost :
    ¬ ∀ (Filter : Type) (hash : Filter → H256) (ops : List (InstallOp Filter)),
      (installRun hash init ops).Counted := by
  intro h
  have hcounted := h Unit (fun _ => .ofNat 2) [.installWatch (), .installWatch (), .uninstallWatch 0]
  have hgone := (hcounted.present (.ofNat 2) (by unfold Ordinary; decide)).mpr
    ⟨1, { id := .ofNat 2 }, rfl, rfl⟩
  exact absurd hgone (by decide)

end Counting

end Watches
end XChain
