import XChain.RangeMask

/-!
# Operators of range masks

The complement of a mask is taken in its ground range: the ranges of the complement are the gaps
between those of the mask. The difference of two masks is made of complements and a union, and
the union takes the ground ranges together, so that the second complement may be taken in a
larger ground range than the first one.
-/
namespace XChain
namespace RangeMask

/-- An element type that holds the numbers of which ground ranges are made. -/
structure Elements (T C : Type*) [LinearOrder T] [LinearOrder C] extends Conversions T C where
  toElement : Unsigned → T
  strictMono : StrictMono ofElement
  ofElement_toElement : ∀ u, ofElement (toElement u) = ofUnsigned u

variable {T C : Type*} [LinearOrder T] [LinearOrder C]

section Operators

/-- Puts down what lies in front of each range; `last` is the end of the one before. -/
def invertLoop : List (T × T) → T → List (T × T) → List (T × T) × T
  | ret, last, [] => (ret, last)
  | ret, last, (a, b) :: m => invertLoop (if a ≠ last then put last a ret else ret) b m

variable (e : Elements T C) (r : RangeMask T)

/-- The complement in the ground range. -/
def inverted : RangeMask T :=
  let (ret, last) := invertLoop [] (e.toElement r.m_all.1) r.m_ranges
  { r with
    m_ranges := if e.ofElement last ≠ e.ofUnsigned r.m_all.2 then
        put last (e.toElement r.m_all.2) ret
      else ret }

/-- `operator+`. -/
def plus (o : RangeMask T) : Except Stop (RangeMask T) := unionWithMask e.toConversions r o

/-- `operator-`: inverts, adds the other mask and inverts again. -/
def minus (o : RangeMask T) : Except Stop (RangeMask T) :=
  (unionWithMask e.toConversions (inverted e r) o).map (inverted e)

end Operators

section Ground

variable (e : Elements T C) {all : Unsigned × Unsigned}

theorem inGround_iff (x : T) : InGround e.toConversions all x ↔
    x ∈ Set.Ico (e.toElement all.1) (e.toElement all.2) := by
  rw [InGround, ← e.ofElement_toElement, ← e.ofElement_toElement, e.strictMono.le_iff_le,
    e.strictMono.lt_iff_lt]
  exact Iff.rfl

theorem ofElement_eq_iff (x : T) (u : Unsigned) :
    e.ofElement x = e.ofUnsigned u ↔ x = e.toElement u := by
  rw [← e.ofElement_toElement, e.strictMono.injective.eq_iff]

theorem toElement_mono : Monotone e.toElement := by
  intro u v huv
  rw [← e.strictMono.le_iff_le, e.ofElement_toElement, e.ofElement_toElement]
  exact e.monotone huv

end Ground

section Inversion

theorem put_last {ret : List (T × T)} {k : T} (h : ∀ r ∈ ret, r.1 < k) (v : T) :
    put k v ret = ret ++ [(k, v)] := by
  have happend : put k v (ret ++ []) = ret ++ put k v [] := put_append h
  simpa [put] using happend

/-- The loop and the step behind it put the gaps behind what they find. -/
theorem invertLoop_eq {m ret : List (T × T)} {last hi : T} (hm : Separated m)
    (hin : Within last hi m) (hret : ∀ r ∈ ret, r.1 < last) :
    (if (invertLoop ret last m).2 ≠ hi then
        put (invertLoop ret last m).2 hi (invertLoop ret last m).1
      else (invertLoop ret last m).1) = ret ++ gaps last hi m := by
  induction m generalizing ret last with
  | nil =>
    rw [invertLoop, gaps, put_last hret]
    split_ifs <;> simp
  | cons s m ih =>
    obtain ⟨a, b⟩ := s
    obtain ⟨hab, -, hm'⟩ := separated_cons.mp hm
    have hlast : last ≤ a := (hin (a, b) (by simp)).1
    have hkeys : ∀ r ∈ (if a ≠ last then put last a ret else ret), r.1 < b := by
      intro r hr
      rw [put_last hret] at hr
      split_ifs at hr with hne
      · rcases List.mem_append.mp hr with hr | hr
        · exact (hret r hr).trans (hlast.trans_lt hab)
        · simp only [List.mem_singleton] at hr
          rw [hr]
          exact hlast.trans_lt hab
      · exact (hret r hr).trans (hlast.trans_lt hab)
    rw [invertLoop, ih hm' (hin.tail hm) hkeys, gaps, put_last hret]
    split_ifs <;> simp

variable (e : Elements T C) {r : RangeMask T}

/-- The representation of a mask: its ground range does not end before it begins, and its
ranges are separated and lie inside. -/
structure Represented (r : RangeMask T) : Prop extends Valid e.toConversions r where
  ordered : r.m_all.1 ≤ r.m_all.2

variable {e}

theorem Represented.within (h : Represented e r) :
    Within (e.toElement r.m_all.1) (e.toElement r.m_all.2) r.m_ranges :=
  within_of_covered h.separated fun x hx => (inGround_iff e x).mp (h.inside x hx)

theorem Represented.inverted_ranges (h : Represented e r) : (inverted e r).m_ranges =
    gaps (e.toElement r.m_all.1) (e.toElement r.m_all.2) r.m_ranges := by
  have hnone : ∀ s ∈ ([] : List (T × T)), s.1 < e.toElement r.m_all.1 := by simp
  have hloop := invertLoop_eq h.separated h.within hnone
  rw [List.nil_append] at hloop
  rw [← hloop, inverted]
  simp only [ne_eq, ofElement_eq_iff]

theorem Represented.inverted (h : Represented e r) : Represented e (inverted e r) where
  separated := by
    rw [h.inverted_ranges]
    exact separated_gaps h.separated h.within (toElement_mono e h.ordered)
  inside := by
    rw [h.inverted_ranges]
    intro x hx
    apply (inGround_iff e x).mpr
    exact (within_gaps h.separated h.within (toElement_mono e h.ordered)).covered_subset hx
  ordered := h.ordered

/-- The complement has the elements of the ground range that the mask does not have. -/
theorem Represented.contains_inverted (h : Represented e r) (x : T) :
    (RangeMask.inverted e r).contains x ↔
      InGround e.toConversions r.m_all x ∧ ¬r.contains x := by
  rw [contains_iff h.inverted.separated, h.inverted_ranges,
    covered_gaps h.separated h.within (toElement_mono e h.ordered), contains_iff h.separated,
    inGround_iff]
  exact Iff.rfl

end Inversion

section Difference

variable {e : Elements T C} {a b : RangeMask T}

omit [LinearOrder T] in
theorem groundUnion_ordered {g h : Unsigned × Unsigned} (hg : g.1 ≤ g.2) :
    (groundUnion g h).1 ≤ (groundUnion g h).2 :=
  ((min_le_right h.1 g.1).trans hg).trans (le_max_right h.2 g.2)

theorem Represented.plus (ha : Represented e a) (hb : Represented e b) :
    ∃ u, plus e a b = .ok u ∧ Represented e u ∧ u.m_all = groundUnion a.m_all b.m_all ∧
      ∀ x, u.contains x ↔ a.contains x ∨ b.contains x := by
  obtain ⟨u, hok, hu, hall, hcov⟩ := ha.toValid.unionWithMask hb.toValid
  refine ⟨u, hok, ⟨hu, ?_⟩, hall, fun x => ?_⟩
  · rw [hall]
    exact groundUnion_ordered ha.ordered
  · rw [contains_iff hu.separated, hcov, contains_iff ha.separated, contains_iff hb.separated]
    exact Iff.rfl

/-- The difference has what the union of the complement and the other mask leaves out of the
joint ground range. -/
theorem Represented.minus (ha : Represented e a) (hb : Represented e b) :
    ∃ d, minus e a b = .ok d ∧ Represented e d ∧ d.m_all = groundUnion a.m_all b.m_all ∧
      ∀ x, d.contains x ↔ InGround e.toConversions (groundUnion a.m_all b.m_all) x ∧
        (InGround e.toConversions a.m_all x → a.contains x) ∧ ¬b.contains x := by
  obtain ⟨u, hok, hu, hall, hcontains⟩ := ha.inverted.plus hb
  have hunion : unionWithMask e.toConversions (RangeMask.inverted e a) b = .ok u := hok
  have hground : u.m_all = groundUnion a.m_all b.m_all := hall
  refine ⟨RangeMask.inverted e u, by rw [RangeMask.minus, hunion]; rfl, hu.inverted, hall,
    fun x => ?_⟩
  rw [hu.contains_inverted, hcontains, ha.contains_inverted, hground]
  tauto

theorem Represented.inGround (ha : Represented e a) {x : T} (hx : a.contains x) :
    InGround e.toConversions a.m_all x :=
  ha.inside x ((contains_iff ha.separated x).mp hx)

/-- What the operators are to make of two sets. -/
structure Laws (e : Elements T C) (a b : RangeMask T) : Prop where
  difference : ∃ d, RangeMask.minus e a b = .ok d ∧
    ∀ x, d.contains x ↔ a.contains x ∧ ¬b.contains x
  union : ∃ u, RangeMask.plus e a b = .ok u ∧ ∀ x, u.contains x ↔ a.contains x ∨ b.contains x
  complement : ∀ x, InGround e.toConversions a.m_all x →
    ((RangeMask.inverted e a).contains x ↔ ¬a.contains x)
  double : ∀ x, (RangeMask.inverted e (RangeMask.inverted e a)).contains x ↔ a.contains x

/-- A mask as its operations leave it. -/
structure Mask (e : Elements T C) extends RangeMask T where
  represented : Represented e toRangeMask

/-- The laws hold where the second mask has all of the joint ground range that is not in the
ground range of the first one. -/
theorem laws_iff (a b : Mask e) : Laws e a.toRangeMask b.toRangeMask ↔
    ∀ x, InGround e.toConversions (groundUnion a.m_all b.m_all) x →
      InGround e.toConversions a.m_all x ∨ b.contains x := by
  have ha := a.represented
  have hb := b.represented
  obtain ⟨d, hok, -, -, hd⟩ := ha.minus hb
  constructor
  · intro h x hx
    obtain ⟨d', hok', hd'⟩ := h.difference
    obtain rfl : d = d' := Except.ok.inj (hok.symm.trans hok')
    by_contra hout
    push Not at hout
    have hin : d.contains x := (hd x).mpr ⟨hx, fun hground => absurd hground hout.1, hout.2⟩
    exact hout.1 (ha.inGround ((hd' x).mp hin).1)
  · intro h
    obtain ⟨u, hplus, -, -, hu⟩ := ha.plus hb
    refine ⟨⟨d, hok, fun x => ?_⟩, ⟨u, hplus, hu⟩, fun x hx => ?_, fun x => ?_⟩
    · rw [hd]
      constructor
      · rintro ⟨hx, himp, hout⟩
        exact ⟨himp ((h x hx).resolve_right hout), hout⟩
      · rintro ⟨hx, hout⟩
        exact ⟨(ha.inGround hx).left, fun _ => hx, hout⟩
    · rw [ha.contains_inverted]
      exact and_iff_right hx
    · rw [ha.inverted.contains_inverted, ha.contains_inverted]
      have hground : InGround e.toConversions (RangeMask.inverted e a.toRangeMask).m_all x ↔
          InGround e.toConversions a.m_all x := Iff.rfl
      have hin := ha.inGround (x := x)
      rw [hground]
      tauto

/-- Elements of the type in which the ground range is held. -/
def unsignedElements : Elements Unsigned Unsigned :=
  ⟨unsignedConversions, id, strictMono_id, fun _ => rfl⟩

local instance neZero_unsigned : NeZero (2 ^ 32) := ⟨by decide⟩

def oneOfTwo : Mask unsignedElements where
  m_all := (0, 2)
  m_ranges := [(1, 2)]
  represented :=
    { separated := ⟨by simp, by simp⟩
      inside := by
        have hin : ∀ y ∈ Set.Ico (1 : Unsigned) 2,
            InGround unsignedElements.toConversions (0, 2) y :=
          inGround_of_Ico (by decide) (by decide)
        simpa using hin
      ordered := by decide }

def noneOfFour : Mask unsignedElements where
  m_all := (0, 4)
  m_ranges := []
  represented := ⟨valid_empty _ _, by decide⟩

/-- The elements behind the first ground range come into the difference. -/
theorem not_laws_wider : ¬Laws unsignedElements oneOfTwo.toRangeMask noneOfFour.toRangeMask := by
  intro h
  obtain ⟨d, hok, hd⟩ := h.difference
  have hres : minus unsignedElements oneOfTwo.toRangeMask noneOfFour.toRangeMask =
      .ok ⟨(0, 4), [(1, 4)]⟩ := by rfl
  obtain rfl := Except.ok.inj (hres.symm.trans hok)
  have hthree := (hd 3).mp (by decide)
  exact absurd hthree.1 (by decide)

end Difference

end RangeMask
end XChain
