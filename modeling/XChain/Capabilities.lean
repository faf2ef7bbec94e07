import Mathlib.Data.BitVec
import Mathlib.Data.List.Sort
import Mathlib.Order.Nat

/-!
# Capabilities of a session

Each side of a session drops from the capabilities of the other one those that it does not
have and those of which both have a higher version. It lays out the packets of the others
one after another, and finds the capability of a packet by the window that its type is in.
-/
namespace XChain

namespace P2P

/-- A name and a version. -/
abbrev CapDesc (Name : Type) := Name × BitVec 256

def c_protocolVersion : ℕ := 4

def UserPacket : ℕ := 0x10

variable {Name : Type} [LinearOrder Name]

namespace CapDesc

/-- The order of a map from descriptions. -/
def Before (a b : CapDesc Name) : Prop := a.1 < b.1 ∨ a.1 = b.1 ∧ a.2 < b.2

instance : DecidableRel (@Before Name _) := fun _ _ => inferInstanceAs (Decidable (_ ∨ _))

theorem before_irrefl (a : CapDesc Name) : ¬ Before a a := by
  rintro (h | ⟨-, h⟩)
  · exact lt_irrefl _ h
  · rw [BitVec.lt_def] at h
    exact lt_irrefl _ h

theorem Before.asymm {a b : CapDesc Name} (h : Before a b) : ¬ Before b a := by
  rintro (h' | ⟨heq, h'⟩)
  · rcases h with h | ⟨heq, -⟩
    · exact lt_asymm h h'
    · exact h'.ne heq.symm
  · rcases h with h | ⟨-, h⟩
    · exact h.ne heq.symm
    · rw [BitVec.lt_def] at h h'
      omega

end CapDesc

/-- The places to be overwritten after an element was moved to the first of them. -/
def nextGap {α : Type} (movedFrom : α → α) (r : α) : List α → List α
  | [] => []
  | _ :: gap => gap ++ [movedFrom r]

/-- The elements that do not satisfy a test, moved to the front one by one. The test sees
the whole sequence as it is at that time: what was kept, what will be overwritten, and what
is still to come. -/
def removeIf {α : Type} (test : List α → α → Bool) (movedFrom : α → α) :
    List α → List α → List α → List α
  | kept, _, [] => kept
  | kept, gap, r :: rest =>
    if test (kept ++ gap ++ r :: rest) r then removeIf test movedFrom kept (gap ++ [r]) rest
    else removeIf test movedFrom (kept ++ [r]) (nextGap movedFrom r gap) rest

structure Capability where
  c_protocolID : ℕ
  m_idOffset : ℕ
  messageCount : ℕ
  m_enabled : Bool := true
  deriving DecidableEq

/-- The byte in front of a packet. -/
def Capability.prep (p : Capability) (id : ℕ) : UInt8 := UInt8.ofNat (id + p.m_idOffset)

/-- Where a packet goes. -/
inductive Dispatch (Name : Type) where
  | interpret (t : ℕ)
  | capability (c : CapDesc Name) (t : ℕ)
  | disabled
  | unknown

structure Session (Name : Type) where
  protocolVersion : ℕ
  m_capabilities : List (CapDesc Name × Capability)

namespace Session

def isFramingAllowedForVersion (version : ℕ) : Bool := 4 < version

/-- Enters a capability at its place. -/
def insertCapability (desc : CapDesc Name) (p : Capability) :
    List (CapDesc Name × Capability) → List (CapDesc Name × Capability)
  | [] => [(desc, p)]
  | (d, q) :: rest =>
    if d = desc then (desc, p) :: rest
    else if desc.Before d then (desc, p) :: (d, q) :: rest
    else (d, q) :: insertCapability desc p rest

def registerCapability (s : Session Name) (desc : CapDesc Name) (p : Capability) : Session Name :=
  { s with m_capabilities := insertCapability desc p s.m_capabilities }

def readPacket (s : Session Name) (capId t : ℕ) : Dispatch Name :=
  if capId = 0 ∧ t < UserPacket then .interpret t
  else if isFramingAllowedForVersion s.protocolVersion then
    match s.m_capabilities.find? fun i => i.2.c_protocolID = capId with
    | some i => if i.2.m_enabled then .capability i.1 t else .disabled
    | none => .unknown
  else
    match s.m_capabilities.find? fun i =>
      i.2.m_idOffset ≤ t ∧ t - i.2.m_idOffset < i.2.messageCount with
    | some i => if i.2.m_enabled then .capability i.1 (t - i.2.m_idOffset) else .disabled
    | none => .unknown

end Session

/-- The capabilities of a host with their numbers of messages, in their order. -/
structure Host (Name : Type) [LinearOrder Name] where
  m_capabilities : List (CapDesc Name × ℕ)
  sorted : m_capabilities.Pairwise fun a b => CapDesc.Before a.1 b.1

namespace Host

variable (h : Host Name)

def caps : List (CapDesc Name) := h.m_capabilities.map Prod.fst

def haveCapability (c : CapDesc Name) : Bool := c ∈ h.caps

def messageCount (c : CapDesc Name) : Option ℕ :=
  (h.m_capabilities.find? fun i => i.1 = c).map Prod.snd

/-- Whether a capability of the peer is left out. -/
def leavesOut (caps : List (CapDesc Name)) (r : CapDesc Name) : Bool :=
  !h.haveCapability r ||
    caps.any fun o => decide (r.1 = o.1) && decide (r.2 < o.2) && h.haveCapability o

/-- The capabilities one after another, each behind the packets of those before. -/
def newPeerCapabilities : List (CapDesc Name) → ℕ → ℕ → Session Name → Option (Session Name)
  | [], _, _, s => some s
  | i :: rest, offset, cnt, s =>
    match h.messageCount i with
    | none => none
    | some n =>
      if Session.isFramingAllowedForVersion s.protocolVersion then
        newPeerCapabilities rest offset ((cnt + 1) % 2 ^ 16) (s.registerCapability i ⟨cnt, 0, n, true⟩)
      else
        newPeerCapabilities rest ((offset + n) % 2 ^ 32) cnt (s.registerCapability i ⟨0, offset, n, true⟩)

/-- The session with a peer, unless it is disconnected because it has an old version or no
capability in common. A name that was moved away is empty. -/
def startPeerSession [OrderBot Name] (protocolVersion : ℕ) (peerCaps : List (CapDesc Name)) :
    Option (Session Name) :=
  let caps := removeIf h.leavesOut (fun r => (⊥, r.2)) [] [] peerCaps
  if protocolVersion < c_protocolVersion - 1 then none
  else if caps.isEmpty then none
  else h.newPeerCapabilities caps UserPacket 1 ⟨protocolVersion, []⟩

/-- The capabilities that both hosts have, in no higher version, with the numbers of
messages of the first one. -/
def mutualCaps (a b : Host Name) : List (CapDesc Name × ℕ) :=
  a.m_capabilities.filter fun i => b.haveCapability i.1 && !a.leavesOut b.caps i.1

/-- Both hosts have it, and neither has a higher version that the other one has. -/
structure Highest (a b : Host Name) (c : CapDesc Name) : Prop where
  left : c ∈ a.caps
  right : c ∈ b.caps
  highest : ∀ o, o ∈ a.caps → o ∈ b.caps → o.1 = c.1 → ¬ c.2 < o.2

theorem sorted_caps : h.caps.Pairwise CapDesc.Before := List.pairwise_map.mpr h.sorted

end Host

section Removing

variable {α : Type} {test : List α → α → Bool} {movedFrom : α → α} {P : α → α → Prop}

/-- A test that does not mind what is in front of an element sees the same before and
after that was moved. -/
theorem removeIf_eq_filter
    (hskip : ∀ front r rest, (∀ x ∈ front, P x r) → test (front ++ r :: rest) r = test (r :: rest) r)
    (hmoved : ∀ x r, P x r → P (movedFrom x) r) (l : List α) :
    ∀ rest done kept gap : List α, l = done ++ rest → (∀ x ∈ done, ∀ r ∈ rest, P x r) →
      (∀ x ∈ kept ++ gap, ∀ r ∈ rest, P x r) → rest.Pairwise P →
      removeIf test movedFrom kept gap rest = kept ++ rest.filter fun r => !test l r := by
  intro rest
  induction rest with
  | nil =>
    intro done kept gap _ _ _ _
    simp [removeIf]
  | cons r rest ih =>
    intro done kept gap hl hdone hfront hrest
    obtain ⟨hhead, htail⟩ := List.pairwise_cons.mp hrest
    have hsame : test (kept ++ gap ++ r :: rest) r = test l r := by
      rw [hl, hskip _ r rest fun x hx => hfront x hx r List.mem_cons_self,
        hskip done r rest fun x hx => hdone x hx r List.mem_cons_self]
    have hl' : l = (done ++ [r]) ++ rest := by rw [hl, List.append_assoc]; rfl
    have hdone' : ∀ x ∈ done ++ [r], ∀ y ∈ rest, P x y := by
      intro x hx y hy
      rcases List.mem_append.mp hx with hx | hx
      · exact hdone x hx y (List.mem_cons_of_mem r hy)
      · rw [List.mem_singleton.mp hx]
        exact hhead y hy
    have hfront' : ∀ x ∈ kept ++ gap, ∀ y ∈ rest, P x y := fun x hx y hy =>
      hfront x hx y (List.mem_cons_of_mem r hy)
    rw [removeIf, hsame]
    by_cases hr : test l r
    · rw [if_pos hr, ih (done ++ [r]) kept (gap ++ [r]) hl' hdone' ?_ htail,
        List.filter_cons_of_neg (by simp [hr])]
      intro x hx y hy
      rw [← List.append_assoc] at hx
      rcases List.mem_append.mp hx with hx | hx
      · exact hfront' x hx y hy
      · rw [List.mem_singleton.mp hx]
        exact hhead y hy
    · rw [if_neg hr, List.filter_cons_of_pos (by simp [hr]),
        ih (done ++ [r]) (kept ++ [r]) (nextGap movedFrom r gap) hl' hdone' ?_ htail, List.append_assoc]
      · rfl
      · intro x hx y hy
        rcases List.mem_append.mp hx with hx | hx
        · rcases List.mem_append.mp hx with hx | hx
          · exact hfront' x (List.mem_append_left _ hx) y hy
          · rw [List.mem_singleton.mp hx]
            exact hhead y hy
        · cases gap with
          | nil => simp [nextGap] at hx
          | cons g gap =>
            rcases List.mem_append.mp hx with hx | hx
            · exact hfront' x (by simp [hx]) y hy
            · rw [List.mem_singleton.mp hx]
              exact hmoved r y (hhead y hy)

end Removing

section Filtering

variable [OrderBot Name] {a b : Host Name}

/-- In front of an element there is no higher version of it, not even when names are moved
away. -/
def Harmless (x r : CapDesc Name) : Prop :=
  ¬ (r.1 = x.1 ∧ r.2 < x.2) ∧ ¬ (r.1 = ⊥ ∧ r.2 < x.2)

theorem CapDesc.Before.harmless {x r : CapDesc Name} (h : x.Before r) : Harmless x r := by
  rcases h with h | ⟨heq, h⟩
  · refine ⟨fun h' => h.ne h'.1.symm, fun h' => ?_⟩
    rw [h'.1] at h
    exact absurd h not_lt_bot
  · have hlt : ¬ r.2 < x.2 := by
      rw [BitVec.lt_def] at h ⊢
      omega
    exact ⟨fun h' => hlt h'.2, fun h' => hlt h'.2⟩

theorem Host.leavesOut_skip (front : List (CapDesc Name)) (r : CapDesc Name)
    (rest : List (CapDesc Name)) (hfront : ∀ x ∈ front, Harmless x r) :
    a.leavesOut (front ++ r :: rest) r = a.leavesOut (r :: rest) r := by
  have hnone : (front.any fun o => decide (r.1 = o.1) && decide (r.2 < o.2) && a.haveCapability o) =
      false := by
    rw [List.any_eq_false]
    intro x hx h
    simp only [Bool.and_eq_true, decide_eq_true_eq] at h
    exact (hfront x hx).1 h.1
  rw [leavesOut, leavesOut, List.any_append, hnone, Bool.false_or]

/-- What is left of the capabilities of a host. -/
theorem Host.removeIf_caps (a b : Host Name) :
    removeIf a.leavesOut (fun r => (⊥, r.2)) [] [] b.caps =
      b.caps.filter fun r => !a.leavesOut b.caps r := by
  have hmoved : ∀ x r : CapDesc Name, Harmless x r → Harmless (⊥, x.2) r := fun x r h => ⟨h.2, h.2⟩
  have hsorted : b.caps.Pairwise Harmless := b.sorted_caps.imp CapDesc.Before.harmless
  have h := removeIf_eq_filter (@Host.leavesOut_skip _ _ _ a) hmoved b.caps b.caps [] [] [] rfl
    (by simp) (by simp) hsorted
  simpa using h

end Filtering

section Layout

/-- Windows one after another. -/
def layout : ℕ → List (CapDesc Name × ℕ) → List (CapDesc Name × Capability)
  | _, [] => []
  | offset, (c, n) :: rest => (c, ⟨0, offset, n, true⟩) :: layout (offset + n) rest

omit [LinearOrder Name] in
theorem map_fst_layout (offset : ℕ) (l : List (CapDesc Name × ℕ)) :
    (layout offset l).map Prod.fst = l.map Prod.fst := by
  induction l generalizing offset with
  | nil => rfl
  | cons i rest ih => simp [layout, ih]

omit [LinearOrder Name] in
/-- A window starts behind the offset and ends before the end of all of them. -/
theorem layout_bounds {offset : ℕ} {l : List (CapDesc Name × ℕ)} {w : CapDesc Name × Capability}
    (hw : w ∈ layout offset l) : offset ≤ w.2.m_idOffset ∧
      w.2.m_idOffset + w.2.messageCount ≤ offset + (l.map Prod.snd).sum ∧ w.2.m_enabled = true := by
  induction l generalizing offset with
  | nil => simp [layout] at hw
  | cons i rest ih =>
    simp only [List.map_cons, List.sum_cons]
    rcases List.mem_cons.mp hw with rfl | hw
    · exact ⟨le_rfl, by simp only; omega, rfl⟩
    · obtain ⟨h1, h2, h3⟩ := ih hw
      exact ⟨by omega, by omega, h3⟩

omit [LinearOrder Name] in
theorem layout_pairwise (offset : ℕ) (l : List (CapDesc Name × ℕ)) :
    (layout offset l).Pairwise fun v w => v.2.m_idOffset + v.2.messageCount ≤ w.2.m_idOffset := by
  induction l generalizing offset with
  | nil => exact List.Pairwise.nil
  | cons i rest ih =>
    refine List.pairwise_cons.mpr ⟨fun w hw => ?_, ih _⟩
    exact (layout_bounds hw).1

omit [LinearOrder Name] in
/-- At most one window has a number in it. -/
theorem find_layout {offset t : ℕ} {l : List (CapDesc Name × ℕ)} {w : CapDesc Name × Capability}
    (hw : w ∈ layout offset l) (ht : w.2.m_idOffset ≤ t ∧ t - w.2.m_idOffset < w.2.messageCount) :
    (layout offset l).find? (fun i => i.2.m_idOffset ≤ t ∧ t - i.2.m_idOffset < i.2.messageCount) =
      some w := by
  induction l generalizing offset with
  | nil => simp [layout] at hw
  | cons i rest ih =>
    rcases List.mem_cons.mp hw with rfl | hw
    · exact List.find?_cons_of_pos (by simpa using ht)
    · have hbehind := (layout_bounds hw).1
      have hnot : ¬ (offset ≤ t ∧ t - offset < i.2) := by omega
      exact (List.find?_cons_of_neg (by simpa using hnot)).trans (ih hw)

theorem insertCapability_append {desc : CapDesc Name} {p : Capability}
    {l : List (CapDesc Name × Capability)} (hl : ∀ x ∈ l, x.1.Before desc) :
    Session.insertCapability desc p l = l ++ [(desc, p)] := by
  induction l with
  | nil => rfl
  | cons x l ih =>
    have hx := hl x List.mem_cons_self
    have hne : x.1 ≠ desc := fun h => CapDesc.before_irrefl desc (h ▸ hx)
    obtain ⟨d, q⟩ := x
    rw [Session.insertCapability, if_neg hne, if_neg hx.asymm,
      ih fun y hy => hl y (List.mem_cons_of_mem _ hy)]
    rfl

/-- In a session of the current version the windows are laid out from the offset on. -/
theorem Host.newPeerCapabilities_eq (h : Host Name) (l : List (CapDesc Name × ℕ))
    (offset cnt : ℕ) (done : List (CapDesc Name × Capability))
    (hcount : ∀ i ∈ l, h.messageCount i.1 = some i.2)
    (hdone : ∀ x ∈ done, ∀ i ∈ l, x.1.Before i.1)
    (hsorted : l.Pairwise fun i j => i.1.Before j.1) (hend : offset + (l.map Prod.snd).sum < 2 ^ 32) :
    h.newPeerCapabilities (l.map Prod.fst) offset cnt ⟨c_protocolVersion, done⟩ =
      some ⟨c_protocolVersion, done ++ layout offset l⟩ := by
  induction l generalizing offset done with
  | nil => simp [newPeerCapabilities, layout]
  | cons i rest ih =>
    obtain ⟨c, n⟩ := i
    obtain ⟨hhead, htail⟩ := List.pairwise_cons.mp hsorted
    simp only [List.map_cons, List.sum_cons] at hend
    have hmod : (offset + n) % 2 ^ 32 = offset + n := Nat.mod_eq_of_lt (by omega)
    have hframing : ¬ Session.isFramingAllowedForVersion c_protocolVersion = true := by decide
    have hinsert := insertCapability_append (p := ⟨0, offset, n, true⟩) fun x hx =>
      hdone x hx (c, n) List.mem_cons_self
    rw [List.map_cons, newPeerCapabilities, hcount (c, n) List.mem_cons_self]
    simp only [if_neg hframing, Session.registerCapability]
    rw [hinsert, hmod, ih (offset + n) _ (fun i hi => hcount i (List.mem_cons_of_mem _ hi)) ?_ htail
      (by omega)]
    · simp [layout]
    · intro x hx j hj
      rcases List.mem_append.mp hx with hx | hx
      · exact hdone x hx j (List.mem_cons_of_mem _ hj)
      · rw [List.mem_singleton.mp hx]
        exact hhead j hj

end Layout

section Agreement

variable {a b : Host Name}

theorem Host.messageCount_eq {h : Host Name} {i : CapDesc Name × ℕ} (hi : i ∈ h.m_capabilities) :
    h.messageCount i.1 = some i.2 := by
  have hfind : ∀ l : List (CapDesc Name × ℕ), l.Pairwise (fun a b => CapDesc.Before a.1 b.1) →
      i ∈ l → (l.find? fun j => j.1 = i.1) = some i := by
    intro l
    induction l with
    | nil => simp
    | cons j l ih =>
      intro hsorted hmem
      obtain ⟨hhead, htail⟩ := List.pairwise_cons.mp hsorted
      rcases List.mem_cons.mp hmem with rfl | hmem
      · exact List.find?_cons_of_pos (by simp)
      · have hne : j.1 ≠ i.1 := fun heq => CapDesc.before_irrefl i.1 (heq ▸ hhead i hmem)
        exact (List.find?_cons_of_neg (by simpa using hne)).trans (ih htail hmem)
  rw [messageCount, hfind _ h.sorted hi]
  rfl

theorem Host.haveCapability_iff {h : Host Name} {c : CapDesc Name} :
    h.haveCapability c = true ↔ c ∈ h.caps := decide_eq_true_iff

theorem Host.leavesOut_eq_false {c : CapDesc Name} : a.leavesOut b.caps c = false ↔
    c ∈ a.caps ∧ ∀ o, o ∈ a.caps → o ∈ b.caps → o.1 = c.1 → ¬ c.2 < o.2 := by
  rw [leavesOut, Bool.or_eq_false_iff, Bool.not_eq_false', haveCapability_iff, List.any_eq_false]
  refine and_congr_right fun _ => ⟨fun h o ha hb heq hlt => ?_, fun h o hb hall => ?_⟩
  · refine h o hb ?_
    simp only [Bool.and_eq_true, decide_eq_true_eq, haveCapability_iff]
    exact ⟨⟨heq.symm, hlt⟩, ha⟩
  · simp only [Bool.and_eq_true, decide_eq_true_eq, haveCapability_iff] at hall
    exact h o hall.2 hb hall.1.1.symm hall.1.2

theorem Host.Highest.symm {c : CapDesc Name} (h : Highest a b c) : Highest b a c :=
  ⟨h.right, h.left, fun o hb ha => h.highest o ha hb⟩

theorem Host.mem_mutualCaps {i : CapDesc Name × ℕ} :
    i ∈ a.mutualCaps b ↔ i ∈ a.m_capabilities ∧ Highest a b i.1 := by
  simp only [mutualCaps, List.mem_filter, Bool.and_eq_true, Bool.not_eq_true', haveCapability_iff,
    leavesOut_eq_false]
  refine and_congr_right fun _ => ⟨fun h => ⟨h.2.1, h.1, h.2.2⟩, fun h => ⟨h.right, h.left, h.highest⟩⟩

/-- The sides of a session select the same capabilities. -/
theorem Host.mutualCaps_comm
    (hcounts : ∀ c n n', (c, n) ∈ a.m_capabilities → (c, n') ∈ b.m_capabilities → n = n') :
    a.mutualCaps b = b.mutualCaps a := by
  have hsub : ∀ {a b : Host Name},
      (∀ c n n', (c, n) ∈ a.m_capabilities → (c, n') ∈ b.m_capabilities → n = n') →
      ∀ i, i ∈ a.mutualCaps b → i ∈ b.mutualCaps a := by
    intro a b hcounts i hi
    obtain ⟨hmem, hhighest⟩ := mem_mutualCaps.mp hi
    obtain ⟨⟨c, n⟩, hj, hc⟩ := List.mem_map.mp hhighest.right
    obtain ⟨d, m⟩ := i
    simp only at hc
    subst hc
    obtain rfl := hcounts c m n hmem hj
    exact mem_mutualCaps.mpr ⟨hj, hhighest.symm⟩
  have hirrefl : Std.Irrefl fun i j : CapDesc Name × ℕ => CapDesc.Before i.1 j.1 :=
    ⟨fun i => CapDesc.before_irrefl i.1⟩
  have hantisymm : Std.Antisymm fun i j : CapDesc Name × ℕ => CapDesc.Before i.1 j.1 :=
    ⟨fun i j h h' => absurd h' h.asymm⟩
  refine List.Pairwise.eq_of_mem_iff (a.sorted.filter _) (b.sorted.filter _) fun i => ?_
  exact ⟨hsub hcounts i, hsub (fun c n n' h h' => (hcounts c n' n h' h).symm) i⟩

/-- What is left of the capabilities of the peer. -/
theorem Host.map_fst_mutualCaps :
    (a.mutualCaps b).map Prod.fst = b.caps.filter fun r => !a.leavesOut b.caps r := by
  have hirrefl : Std.Irrefl (@CapDesc.Before Name _) := ⟨CapDesc.before_irrefl⟩
  have hantisymm : Std.Antisymm (@CapDesc.Before Name _) := ⟨fun i j h h' => absurd h' h.asymm⟩
  refine List.Pairwise.eq_of_mem_iff (List.pairwise_map.mpr (a.sorted.filter _))
    (b.sorted_caps.filter _) fun c => ?_
  rw [List.mem_filter, Bool.not_eq_true', leavesOut_eq_false, List.mem_map]
  constructor
  · rintro ⟨i, hi, rfl⟩
    obtain ⟨-, hhighest⟩ := mem_mutualCaps.mp hi
    exact ⟨hhighest.right, hhighest.left, hhighest.highest⟩
  · rintro ⟨hb, ha, hhighest⟩
    obtain ⟨i, hi, rfl⟩ := List.mem_map.mp ha
    exact ⟨i, mem_mutualCaps.mpr ⟨hi, ha, hb, hhighest⟩, rfl⟩

variable [OrderBot Name]

/-- The session of a host with another one. -/
theorem Host.startPeerSession_eq (hend : UserPacket + ((a.mutualCaps b).map Prod.snd).sum ≤ 0x80) :
    a.startPeerSession c_protocolVersion b.caps =
      if a.mutualCaps b = [] then none
      else some ⟨c_protocolVersion, layout UserPacket (a.mutualCaps b)⟩ := by
  have hversion : ¬ c_protocolVersion < c_protocolVersion - 1 := by decide
  simp only [startPeerSession, removeIf_caps, ← map_fst_mutualCaps, if_neg hversion]
  by_cases hempty : a.mutualCaps b = []
  · rw [if_pos hempty, if_pos (by simp [hempty])]
  · have hcount : ∀ i ∈ a.mutualCaps b, a.messageCount i.1 = some i.2 := fun i hi =>
      messageCount_eq (mem_mutualCaps.mp hi).1
    rw [if_neg hempty, if_neg (by simpa using hempty)]
    exact newPeerCapabilities_eq a (a.mutualCaps b) UserPacket 1 [] hcount (by simp)
      (a.sorted.filter _) (by omega)

end Agreement

/-- Both sides of a session lay out the same windows: one for each capability that both
have in no higher version, from the first user packet on and without overlap. A packet of
one side is handed to the same capability of the other side with the same number, and no
other number is handed to it. -/
theorem windows_agree [OrderBot Name] (a b : Host Name)
    (hcounts : ∀ c n n', (c, n) ∈ a.m_capabilities → (c, n') ∈ b.m_capabilities → n = n')
    (hend : UserPacket + ((a.mutualCaps b).map Prod.snd).sum ≤ 0x80) :
    a.startPeerSession c_protocolVersion b.caps = b.startPeerSession c_protocolVersion a.caps ∧
    ∀ s t, a.startPeerSession c_protocolVersion b.caps = some s →
      b.startPeerSession c_protocolVersion a.caps = some t →
      (∀ c, (∃ p, (c, p) ∈ s.m_capabilities) ↔ Host.Highest a b c) ∧
      (∀ w ∈ s.m_capabilities, UserPacket ≤ w.2.m_idOffset) ∧
      (s.m_capabilities.head?.map fun w => w.2.m_idOffset) = some UserPacket ∧
      (s.m_capabilities.Pairwise fun v w => v.2.m_idOffset + v.2.messageCount ≤ w.2.m_idOffset) ∧
      (∀ c p i, (c, p) ∈ s.m_capabilities → i < p.messageCount →
        t.readPacket 0 (p.prep i).toNat = .capability c i) ∧
      ∀ c n i, t.readPacket 0 n = .capability c i →
        ∃ p, (c, p) ∈ s.m_capabilities ∧ n = i + p.m_idOffset ∧ i < p.messageCount := by
  have hcomm := Host.mutualCaps_comm hcounts
  have hleft := Host.startPeerSession_eq hend
  have hright := Host.startPeerSession_eq (a := b) (b := a) (hcomm ▸ hend)
  rw [← hcomm] at hright
  refine ⟨hleft.trans hright.symm, fun s t hs ht => ?_⟩
  rw [hleft] at hs
  rw [hright] at ht
  by_cases hempty : a.mutualCaps b = []
  · rw [if_pos hempty] at hs
    cases hs
  rw [if_neg hempty, Option.some.injEq] at hs ht
  subst hs ht
  have hframing : ¬ Session.isFramingAllowedForVersion c_protocolVersion = true := by decide
  refine ⟨fun c => ?_, fun w hw => (layout_bounds hw).1, ?_, layout_pairwise _ _, ?_, ?_⟩
  · have hkeys : c ∈ (layout UserPacket (a.mutualCaps b)).map Prod.fst ↔
        c ∈ (a.mutualCaps b).map Prod.fst := by rw [map_fst_layout]
    simp only [List.mem_map, Prod.exists, exists_and_right, exists_eq_right] at hkeys
    rw [hkeys]
    constructor
    · rintro ⟨n, hn⟩
      exact (Host.mem_mutualCaps.mp hn).2
    · intro hhighest
      obtain ⟨⟨d, n⟩, hmem, rfl⟩ := List.mem_map.mp hhighest.left
      exact ⟨n, Host.mem_mutualCaps.mpr ⟨hmem, hhighest⟩⟩
  · cases hl : a.mutualCaps b with
    | nil => exact absurd hl hempty
    | cons i rest => rfl
  · intro c p i hmem hi
    obtain ⟨hstart, hstop, henabled⟩ := layout_bounds hmem
    simp only at hstart hstop henabled
    have hbyte : (p.prep i).toNat = i + p.m_idOffset := by
      rw [Capability.prep, UInt8.toNat_ofNat']
      omega
    have hfind := find_layout (t := i + p.m_idOffset) hmem ⟨by simp only; omega, by simp only; omega⟩
    have huser : ¬ (0 = 0 ∧ i + p.m_idOffset < UserPacket) := by omega
    rw [hbyte, Session.readPacket, if_neg huser, if_neg hframing]
    simp only [hfind, henabled, if_true, Nat.add_sub_cancel]
  · intro c n i hread
    rw [Session.readPacket] at hread
    by_cases huser : 0 = 0 ∧ n < UserPacket
    · rw [if_pos huser] at hread
      cases hread
    · rw [if_neg huser, if_neg hframing] at hread
      simp only at hread
      split at hread
      · next w hfind =>
        split at hread
        · obtain ⟨rfl, rfl⟩ := Dispatch.capability.inj hread
          have hwindow := List.find?_some hfind
          simp only [decide_eq_true_eq] at hwindow
          exact ⟨w.2, List.mem_of_find?_eq_some hfind, by omega, hwindow.2⟩
        · cases hread
      · cases hread

/-- Two versions of one capability on both sides, and one that only one side knows. -/
def twoVersions : Host ℕ := ⟨[((1, 1), 2), ((1, 2), 3)], by decide⟩

def threeCapabilities : Host ℕ := ⟨[((1, 1), 2), ((1, 2), 3), ((2, 1), 4)], by decide⟩

theorem windows_agree_two :
    twoVersions.startPeerSession c_protocolVersion threeCapabilities.caps =
      threeCapabilities.startPeerSession c_protocolVersion twoVersions.caps := by
  refine (windows_agree twoVersions threeCapabilities ?_ (by decide)).1
  intro c n n' h h'
  simp only [twoVersions, threeCapabilities, List.mem_cons, Prod.mk.injEq, List.not_mem_nil,
    or_false] at h h'
  rcases h with ⟨rfl, rfl⟩ | ⟨rfl, rfl⟩
  · simpa [eq_comm] using h'
  · simpa [eq_comm] using h'

end P2P
end XChain
