import XChain.Watches

/-!
# Delivery to watches

Several callers append and hand over the filters they changed, in any order. As all filters
are cleared at once, a caller also clears what others have not handed over yet. What was
appended for a watch is delivered to it once and in order if and only if this never happens
to its filter.
-/
namespace XChain

/-- The watches of a client, with the filters that each caller has changed. -/
structure Client (Filter : Type) where
  base : Watches Filter
  changeds : ℕ → H256 → Bool

inductive ClientOp where
  | appendFromNewPending (caller : ℕ) (receipt : TransactionReceipt) (sha3 : H256)
  | appendFromBlock (caller : ℕ) (block : H256) (polarity : BlockPolarity)
  | noteChanged (caller : ℕ)
  | clearPending (pending : Bool)
  | checkWatch (i : ℕ)

namespace Client

variable {Filter : Type} (matchesReceipt : Filter → TransactionReceipt → List LogEntry)
  (c : BlockChain) (s : Client Filter)

/-- The state after a step, and what the step hands out. -/
def step : ClientOp → Client Filter × List Change
  | .appendFromNewPending caller receipt sha3 =>
    let (base, io_changed) :=
      s.base.appendFromNewPending matchesReceipt receipt sha3 (s.changeds caller)
    ({ base := base, changeds := Function.update s.changeds caller io_changed }, [])
  | .appendFromBlock caller block polarity =>
    let (base, io_changed) :=
      s.base.appendFromBlock matchesReceipt c block polarity (s.changeds caller)
    ({ base := base, changeds := Function.update s.changeds caller io_changed }, [])
  | .noteChanged caller =>
    ({ base := s.base.noteChanged (s.changeds caller)
       changeds := Function.update s.changeds caller fun _ => false }, [])
  | .clearPending pending => ({ s with base := s.base.clearPending pending }, [])
  | .checkWatch i =>
    match s.base.checkWatch i with
    | some (base, changes) => ({ s with base := base }, changes)
    | none => (s, [])

def run (ops : List ClientOp) : Client Filter :=
  ops.foldl (fun s op => (s.step matchesReceipt c op).1) s

/-- What a step appends for a hash. -/
def appends (h : H256) : ClientOp → List Change
  | .appendFromNewPending _ receipt sha3 =>
    match s.base.m_filters h with
    | some f => (Watches.pendingEntries matchesReceipt receipt f.filter).map .log
    | none => if (s.base.m_specialFilters h).isSome ∧ h = PendingChangedFilter then [.special sha3] else []
  | .appendFromBlock _ block polarity =>
    match s.base.m_filters h with
    | some f => (Watches.blockEntries matchesReceipt c block polarity f.filter).map .log
    | none => if (s.base.m_specialFilters h).isSome ∧ h = ChainChangedFilter then [.special block] else []
  | _ => []

/-- What a step hands out to the owner of a watch. -/
def handsOut (i : ℕ) (op : ClientOp) : List Change :=
  match op with
  | .checkWatch j => if j = i then (s.step matchesReceipt c op).2 else []
  | _ => []

/-- All that is appended for a hash during a run. -/
def appended (h : H256) : List ClientOp → Client Filter → List Change
  | [], _ => []
  | op :: ops, s =>
    s.appends matchesReceipt c h op ++ appended h ops (s.step matchesReceipt c op).1

/-- All that is handed out to the owner of a watch during a run. -/
def delivered (i : ℕ) : List ClientOp → Client Filter → List Change
  | [], _ => []
  | op :: ops, s =>
    s.handsOut matchesReceipt c i op ++ delivered i ops (s.step matchesReceipt c op).1

/-- What a step clears without giving it to the watches on the filter. -/
def drops (h : H256) : ClientOp → List Change
  | .noteChanged caller => if s.changeds caller h then [] else s.base.filterChanges h
  | .clearPending pending => if pending then s.base.filterChanges h else []
  | _ => []

/-- What a watch has received, and what was collected for it. -/
def waiting (w : ClientWatch) : List Change := w.changes ++ s.base.filterChanges w.id

/-- All that is cleared without being given to the watches on a filter. -/
def dropped (h : H256) : List ClientOp → Client Filter → List Change
  | [], _ => []
  | op :: ops, s => s.drops h op ++ dropped h ops (s.step matchesReceipt c op).1

/-- What was appended for a watch is delivered exactly once and in order: it has been
handed out or it waits, and a poll after the filters were handed over leaves nothing. -/
structure Delivery (i : ℕ) (w : ClientWatch) (ops : List ClientOp) : Prop where
  once : ∀ pre post, ops = pre ++ post → ∃ w',
    (s.run matchesReceipt c pre).base.m_watches.lookup i = some w' ∧ w'.id = w.id ∧
      delivered matchesReceipt c i pre s ++ (s.run matchesReceipt c pre).waiting w' =
        s.waiting w ++ appended matchesReceipt c w.id pre s
  polled : ∀ pre caller mid post, ops = pre ++ .noteChanged caller :: mid ++ .checkWatch i :: post →
    s.waiting w ++ appended matchesReceipt c w.id pre s <+:
      delivered matchesReceipt c i (pre ++ .noteChanged caller :: mid ++ [.checkWatch i]) s

section Steps

variable {matchesReceipt c s} {i : ℕ} {w : ClientWatch}

theorem filterChanges_append (base : Watches Filter) (special x h : H256)
    (found : Filter → List LocalisedLogEntry) (io : H256 → Bool) :
    (base.append special x found io).1.filterChanges h = base.filterChanges h ++
      match base.m_filters h with
      | some f => (found f.filter).map .log
      | none => if (base.m_specialFilters h).isSome ∧ h = special then [.special x] else [] := by
  simp only [Watches.filterChanges, Watches.append]
  cases hf : base.m_filters h with
  | some f => simp
  | none =>
    cases hl : base.m_specialFilters h with
    | none => simp
    | some l =>
      by_cases heq : h = special
      · simp [heq]
      · simp [heq]

theorem filterChanges_noteChanged (base : Watches Filter) (filters : H256 → Bool) (h : H256) :
    (base.noteChanged filters).filterChanges h = [] := by
  simp only [Watches.filterChanges, Watches.noteChanged]
  cases hf : base.m_filters h with
  | some f => simp
  | none => cases hl : base.m_specialFilters h <;> simp

/-- A watch receives what was collected if its filter is among those handed over. -/
theorem lookup_noteChanged (base : Watches Filter) (filters : H256 → Bool)
    (hw : base.m_watches.lookup i = some w) :
    ∃ w', (base.noteChanged filters).m_watches.lookup i = some w' ∧ w'.id = w.id ∧
      w'.changes = w.changes ++ if filters w.id then base.filterChanges w.id else [] := by
  by_cases h : filters w.id
  · exact ⟨{ w with changes := w.changes ++ base.filterChanges w.id },
      by simp [Watches.noteChanged, hw, h], rfl, by simp [h]⟩
  · exact ⟨w, by simp [Watches.noteChanged, hw, h], rfl, by simp [h]⟩

/-- What a step does to a watch and to its filter: something is given from the filter to
the watch, something is handed out, something is dropped. -/
theorem step_watch (hw : s.base.m_watches.lookup i = some w) (op : ClientOp) :
    ∃ w' given, (s.step matchesReceipt c op).1.base.m_watches.lookup i = some w' ∧ w'.id = w.id ∧
      s.handsOut matchesReceipt c i op ++ w'.changes = w.changes ++ given ∧
      given ++ s.drops w.id op ++ (s.step matchesReceipt c op).1.base.filterChanges w.id =
        s.base.filterChanges w.id ++ s.appends matchesReceipt c w.id op := by
  cases op with
  | appendFromNewPending caller receipt sha3 =>
    refine ⟨w, [], hw, rfl, by simp [handsOut], ?_⟩
    simp only [step, drops, appends, List.nil_append]
    exact filterChanges_append s.base _ _ _ _ _
  | appendFromBlock caller block polarity =>
    refine ⟨w, [], hw, rfl, by simp [handsOut], ?_⟩
    simp only [step, drops, appends, List.nil_append]
    exact filterChanges_append s.base _ _ _ _ _
  | noteChanged caller =>
    obtain ⟨w', hlook, hid, hchanges⟩ := lookup_noteChanged s.base (s.changeds caller) hw
    refine ⟨w', _, hlook, hid, by simpa [handsOut] using hchanges, ?_⟩
    simp only [step, drops, appends, filterChanges_noteChanged]
    by_cases h : s.changeds caller w.id
    · simp [h]
    · simp [h]
  | clearPending pending =>
    cases pending with
    | false =>
      exact ⟨w, [], hw, rfl, by simp [handsOut],
        by simp [step, drops, appends, Watches.clearPending]⟩
    | true =>
      obtain ⟨w', hlook, hid, hchanges⟩ := lookup_noteChanged s.base (fun _ => false) hw
      refine ⟨w', [], hlook, hid, by simpa [handsOut] using hchanges, ?_⟩
      simp [step, drops, appends, Watches.clearPending, filterChanges_noteChanged]
  | checkWatch j =>
    by_cases hj : j = i
    · subst hj
      refine ⟨{ w with changes := [] }, [], ?_, rfl, ?_, ?_⟩
      · simp [step, Watches.checkWatch, hw]
      · simp [handsOut, step, Watches.checkWatch, hw]
      · simp [step, drops, appends, Watches.checkWatch, hw, Watches.filterChanges]
    · refine ⟨w, [], ?_, rfl, by simp [handsOut, hj], ?_⟩
      · cases hlook : s.base.m_watches.lookup j with
        | none => simpa [step, Watches.checkWatch, hlook] using hw
        | some v => simpa [step, Watches.checkWatch, hlook, AList.lookup_insert_ne (Ne.symm hj)] using hw
      · cases hlook : s.base.m_watches.lookup j with
        | none => simp [step, drops, appends, Watches.checkWatch, hlook]
        | some v => simp [step, drops, appends, Watches.checkWatch, hlook, Watches.filterChanges]

/-- The same for a whole run. What is dropped is counted only. -/
theorem run_watch (ops : List ClientOp) (s : Client Filter) (w : ClientWatch)
    (hw : s.base.m_watches.lookup i = some w) :
    ∃ w' given, (s.run matchesReceipt c ops).base.m_watches.lookup i = some w' ∧ w'.id = w.id ∧
      delivered matchesReceipt c i ops s ++ w'.changes = w.changes ++ given ∧
      given.length + (dropped matchesReceipt c w.id ops s).length +
          ((s.run matchesReceipt c ops).base.filterChanges w.id).length =
        (s.base.filterChanges w.id).length + (appended matchesReceipt c w.id ops s).length ∧
      (dropped matchesReceipt c w.id ops s = [] →
        given ++ (s.run matchesReceipt c ops).base.filterChanges w.id =
          s.base.filterChanges w.id ++ appended matchesReceipt c w.id ops s) := by
  induction ops generalizing s w with
  | nil => exact ⟨w, [], hw, rfl, by simp [delivered], by simp [dropped, appended, run],
      fun _ => by simp [appended, run]⟩
  | cons op ops ih =>
    obtain ⟨w₁, g₁, hw₁, hid₁, hhand, hgive⟩ := @step_watch _ matchesReceipt c s i w hw op
    obtain ⟨w₂, g₂, hw₂, hid₂, hdel, hlen, heq⟩ := ih _ w₁ hw₁
    rw [hid₁] at hid₂ hlen heq
    have hrun : s.run matchesReceipt c (op :: ops) =
        (s.step matchesReceipt c op).1.run matchesReceipt c ops := rfl
    rw [hrun]
    refine ⟨w₂, g₁ ++ g₂, hw₂, hid₂, ?_, ?_, ?_⟩
    · simp only [delivered]
      rw [List.append_assoc, hdel, ← List.append_assoc, hhand, List.append_assoc]
    · have hcount := congrArg List.length hgive
      simp only [dropped, appended, List.length_append] at hcount hlen ⊢
      omega
    · intro hnone
      simp only [dropped, List.append_eq_nil_iff] at hnone
      rw [hnone.1, List.append_nil] at hgive
      simp only [appended]
      rw [List.append_assoc, heq hnone.2, ← List.append_assoc, hgive, List.append_assoc]

theorem run_append (pre post : List ClientOp) :
    s.run matchesReceipt c (pre ++ post) = (s.run matchesReceipt c pre).run matchesReceipt c post :=
  List.foldl_append

theorem delivered_append (pre post : List ClientOp) (s : Client Filter) :
    delivered matchesReceipt c i (pre ++ post) s = delivered matchesReceipt c i pre s ++
      delivered matchesReceipt c i post (s.run matchesReceipt c pre) := by
  induction pre generalizing s with
  | nil => rfl
  | cons op pre ih =>
    simp only [List.cons_append, delivered, ih, List.append_assoc]
    rfl

theorem dropped_append (h : H256) (pre post : List ClientOp) (s : Client Filter) :
    dropped matchesReceipt c h (pre ++ post) s = dropped matchesReceipt c h pre s ++
      dropped matchesReceipt c h post (s.run matchesReceipt c pre) := by
  induction pre generalizing s with
  | nil => rfl
  | cons op pre ih =>
    simp only [List.cons_append, dropped, ih, List.append_assoc]
    rfl

/-- A run drops nothing if and only if no step of it does. -/
theorem dropped_eq_nil {h : H256} {ops : List ClientOp} :
    dropped matchesReceipt c h ops s = [] ↔
      ∀ pre op post, ops = pre ++ op :: post → (s.run matchesReceipt c pre).drops h op = [] := by
  constructor
  · rintro hnone pre op post rfl
    rw [dropped_append, List.append_eq_nil_iff] at hnone
    exact (List.append_eq_nil_iff.mp hnone.2).1
  · intro hsteps
    induction ops generalizing s with
    | nil => rfl
    | cons op ops ih =>
      have hhead := hsteps [] op ops rfl
      have htail := ih (s := (s.step matchesReceipt c op).1) fun pre o post hops =>
        hsteps (op :: pre) o post (by rw [hops]; rfl)
      rw [dropped, htail, List.append_nil]
      exact hhead

/-- When a caller hands over the filter of a watch, all of it is received. -/
theorem noted_delivered {pre mid : List ClientOp} {caller : ℕ} {h : H256}
    (hw : s.base.m_watches.lookup i = some w) (hh : w.id = h)
    (hnone : dropped matchesReceipt c h (pre ++ [.noteChanged caller]) s = []) :
    s.waiting w ++ appended matchesReceipt c h pre s <+:
      delivered matchesReceipt c i (pre ++ .noteChanged caller :: mid ++ [.checkWatch i]) s := by
  subst hh
  -- The state before the filters are handed over, and the one after it.
  rw [dropped_append, List.append_eq_nil_iff] at hnone
  obtain ⟨w₀, g₀, hw₀, hid₀, hdel₀, -, heq₀⟩ := run_watch pre s w hw
  obtain ⟨w₁, g₁, hw₁, hid₁, hhand₁, hgive₁⟩ :=
    @step_watch _ matchesReceipt c _ i w₀ hw₀ (.noteChanged caller)
  have hdrop₁ : (s.run matchesReceipt c pre).drops w.id (.noteChanged caller) = [] :=
    (List.append_eq_nil_iff.mp hnone.2).1
  have hcleared : ((s.run matchesReceipt c pre).step matchesReceipt c
      (.noteChanged caller)).1.base.filterChanges w.id = [] := filterChanges_noteChanged _ _ _
  rw [hid₀, hdrop₁, hcleared] at hgive₁
  simp only [appends, List.append_nil] at hgive₁
  simp only [handsOut, List.nil_append] at hhand₁
  have hreceived : delivered matchesReceipt c i pre s ++ w₁.changes =
      s.waiting w ++ appended matchesReceipt c w.id pre s := by
    rw [hhand₁, hgive₁, ← List.append_assoc, hdel₀, List.append_assoc, heq₀ hnone.1, waiting,
      List.append_assoc]
  -- Until the poll nothing is taken back from the watch.
  obtain ⟨w₂, g₂, hw₂, hid₂, hdel₂, -, -⟩ := @run_watch _ matchesReceipt c i mid _ w₁ hw₁
  have hpoll : ((s.run matchesReceipt c (pre ++ .noteChanged caller :: mid))).handsOut
      matchesReceipt c i (.checkWatch i) = w₂.changes := by
    rw [run_append]
    have hlook : (((s.run matchesReceipt c pre).run matchesReceipt c
        (.noteChanged caller :: mid))).base.m_watches.lookup i = some w₂ := hw₂
    simp [handsOut, step, Watches.checkWatch, hlook]
  have hlast : delivered matchesReceipt c i (pre ++ .noteChanged caller :: mid ++ [.checkWatch i]) s =
      delivered matchesReceipt c i pre s ++ (w₁.changes ++ g₂) := by
    have hone : delivered matchesReceipt c i [.checkWatch i]
        (s.run matchesReceipt c (pre ++ .noteChanged caller :: mid)) = w₂.changes := by
      rw [delivered, delivered, List.append_nil, hpoll]
    rw [delivered_append, hone, delivered_append, delivered, List.append_assoc]
    simp only [handsOut, List.nil_append]
    rw [hdel₂]
  rw [hlast, ← List.append_assoc, hreceived]
  exact List.prefix_append _ _

/-- Nothing is dropped if all is delivered, by counting. -/
theorem Delivery.dropped_eq_nil {ops : List ClientOp} (hw : s.base.m_watches.lookup i = some w)
    (h : s.Delivery matchesReceipt c i w ops) : dropped matchesReceipt c w.id ops s = [] := by
  obtain ⟨w', hlook, hid, honce⟩ := h.once ops [] (by simp)
  obtain ⟨v, given, hv, hvid, hdel, hlen, -⟩ := @run_watch _ matchesReceipt c i ops s w hw
  obtain rfl : w' = v := Option.some.inj (hlook.symm.trans hv)
  have h1 := congrArg List.length honce
  have h2 := congrArg List.length hdel
  simp only [waiting, List.length_append, hid] at h1 h2
  exact List.length_eq_zero_iff.mp (by omega)

end Steps

/-- What is appended for a watch is delivered exactly once if and only if its filter is
never cleared before what it has collected is handed over. -/
theorem delivered_exact (s : Client Filter) (i : ℕ) (w : ClientWatch)
    (hw : s.base.m_watches.lookup i = some w) (ops : List ClientOp) :
    s.Delivery matchesReceipt c i w ops ↔
      ∀ pre op post, ops = pre ++ op :: post → (s.run matchesReceipt c pre).drops w.id op = [] := by
  rw [← dropped_eq_nil]
  constructor
  · intro h
    exact h.dropped_eq_nil hw
  · intro hnone
    refine ⟨?_, ?_⟩
    · rintro pre post rfl
      rw [dropped_append, List.append_eq_nil_iff] at hnone
      obtain ⟨w', given, hw', hid, hdel, -, heq⟩ := @run_watch _ matchesReceipt c i pre s w hw
      refine ⟨w', hw', hid, ?_⟩
      rw [waiting, hid, ← List.append_assoc, hdel, List.append_assoc, heq hnone.1, waiting,
        List.append_assoc]
    · rintro pre caller mid post rfl
      refine noted_delivered hw rfl ?_
      have hsplit : pre ++ .noteChanged caller :: mid ++ .checkWatch i :: post =
          (pre ++ [.noteChanged caller]) ++ (mid ++ .checkWatch i :: post) := by simp
      rw [hsplit, dropped_append, List.append_eq_nil_iff] at hnone
      exact hnone.1

/-- A client with one watch, on a filter that lets every entry pass. -/
def oneWatch : Client Unit where
  base :=
    { m_filters := fun h => if h = .ofNat 2 then some { filter := () } else none
      m_specialFilters := (Watches.init : Watches Unit).m_specialFilters
      m_watches := AList.singleton 0 { id := .ofNat 2 } }
  changeds _ _ := false

def oneReceipt : TransactionReceipt := ⟨.zero, 0, 0, [BlockChain.firstOfTwo]⟩

/-- One caller appends, hands over its filters and the watch is polled. -/
theorem delivered_exact_one :
    oneWatch.Delivery (fun _ r => r.log) (BlockChain.single 0 BlockChain.firstOfTwo) 0
      { id := .ofNat 2 } [.appendFromNewPending 0 oneReceipt .zero, .noteChanged 0, .checkWatch 0] := by
  have hnone : dropped (fun _ r => r.log) (BlockChain.single 0 BlockChain.firstOfTwo) (.ofNat 2)
      [.appendFromNewPending 0 oneReceipt .zero, .noteChanged 0, .checkWatch 0] oneWatch = [] := rfl
  exact (delivered_exact _ _ oneWatch 0 { id := .ofNat 2 } rfl _).mpr (dropped_eq_nil.mp hnone)

/-- The pending block is given up before the caller hands over what it changed. -/
theorem cleared_before_noted :
    ¬ ∀ (Filter : Type) (matchesReceipt : Filter → TransactionReceipt → List LogEntry)
      (c : BlockChain) (s : Client Filter) (i : ℕ) (w : ClientWatch),
      s.base.m_watches.lookup i = some w → ∀ ops, s.Delivery matchesReceipt c i w ops := by
  intro h
  have hdelivery := h Unit (fun _ r => r.log) (BlockChain.single 0 BlockChain.firstOfTwo) oneWatch 0
    { id := .ofNat 2 } rfl
    [.appendFromNewPending 0 oneReceipt .zero, .clearPending true, .noteChanged 0, .checkWatch 0]
  have hnone := congrArg List.length (hdelivery.dropped_eq_nil rfl)
  exact absurd hnone (by decide)

end Client
end XChain
