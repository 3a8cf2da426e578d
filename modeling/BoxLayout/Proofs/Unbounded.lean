import BoxLayout.Proofs.Free

/-!
# Taking room away where there is no bound

Insets may be negative and add to the limits instead of taking away. Taking away goes through as
long as both differences on each axis are extents (`Constraints.inset_eq_ite`). An unbounded end
stays unbounded whatever its difference, but the difference is computed all the same: nothing can be
added to an axis without a bound, although that would change nothing there
(`inset_keeps_unbounded`, `inset_free_eq_overflow`).
-/

namespace BoxLayout

namespace Limits

variable {limits : Limits} {amount : Int}

/-- The amount can be taken away from both ends. -/
def Allows (limits : Limits) (amount : Int) : Prop :=
  Extent.InRange (limits.lo - amount) ∧ Extent.InRange (limits.hi - amount)

instance (limits : Limits) (amount : Int) : Decidable (limits.Allows amount) :=
  inferInstanceAs (Decidable (_ ∧ _))

/-- The amount can be taken away from each end that is finite. -/
def AllowsFinite (limits : Limits) (amount : Int) : Prop :=
  (limits.lo ≠ Extent.inf → Extent.InRange (limits.lo - amount)) ∧
    (limits.hi ≠ Extent.inf → Extent.InRange (limits.hi - amount))

instance (limits : Limits) (amount : Int) : Decidable (limits.AllowsFinite amount) :=
  inferInstanceAs (Decidable (_ ∧ _))

theorem inset_eq_ite (limits : Limits) (amount : Int) :
    limits.inset amount = if limits.Allows amount then .ok (limits.less amount)
      else .error .overflow := by
  split
  · rename_i h
    exact inset_eq_ok_iff.2 ⟨h.1, h.2, rfl, rfl⟩
  · rename_i h
    by_cases hlo : Extent.InRange (limits.lo - amount)
    · have hhi : Extent.sub limits.hi amount = .error .overflow :=
        Extent.checked_eq_error_iff.2 ⟨fun hhi => h ⟨hlo, hhi⟩, rfl⟩
      have hsub : Extent.sub limits.lo amount = .ok _ := Extent.checked_of_inRange hlo
      rw [inset, hsub, hhi]
      rfl
    · have hsub : Extent.sub limits.lo amount = .error .overflow :=
        Extent.checked_eq_error_iff.2 ⟨hlo, rfl⟩
      rw [inset, hsub]
      rfl

/-- Of a missing bound only a negative amount cannot be taken away. -/
theorem allows_iff (h : limits.isNormalized = true) (hamount : Extent.InRange amount)
    (hfinite : limits.AllowsFinite amount) :
    limits.Allows amount ↔ (limits.hi = Extent.inf → 0 ≤ amount) := by
  obtain ⟨hlo₀, hle, hhi⟩ := isNormalized_iff.1 h
  obtain ⟨hlo, hhi⟩ := hfinite
  -- the lower end is unbounded only where the upper one is
  simp only [Allows, Extent.InRange, Extent.inf, Extent.least] at *
  omega

/-- Each end is taken away from by itself. -/
theorem less_eq (h : limits.isNormalized = true) (ha : limits.Allows amount) :
    limits.less amount = ⟨Extent.infOr limits.lo (max (limits.lo - amount) 0),
      Extent.infOr limits.hi (max (limits.hi - amount) 0)⟩ := by
  obtain ⟨hlo₀, hle, hhi⟩ := isNormalized_iff.1 h
  obtain ⟨hlo, hhi⟩ := ha
  -- the new upper end is above the new lower one without being held there
  simp only [less, mk.injEq, true_and, Extent.InRange, Extent.infOr, Extent.inf,
    Extent.least] at *
  omega

end Limits

theorem Constraints.inset_eq_ite (given : Constraints) (amount : Size) :
    given.inset amount.width amount.height =
      if ∀ axis, (given.along axis).Allows (amount.along axis) then
        .ok (given.less amount.width amount.height)
      else .error .overflow := by
  rw [inset, Limits.inset_eq_ite, Limits.inset_eq_ite]
  by_cases hwidth : given.width.Allows amount.width
  · by_cases hheight : given.height.Allows amount.height
    · have hboth : ∀ axis, (given.along axis).Allows (amount.along axis) :=
        (Axis.forall_iff .horizontal).2 ⟨hwidth, hheight⟩
      rw [if_pos hwidth, if_pos hheight, if_pos hboth]
      rfl
    · have hnot : ¬ ∀ axis, (given.along axis).Allows (amount.along axis) := fun h =>
        hheight (h .vertical)
      rw [if_pos hwidth, if_neg hheight, if_neg hnot]
      rfl
  · have hnot : ¬ ∀ axis, (given.along axis).Allows (amount.along axis) := fun h =>
      hwidth (h .horizontal)
    rw [if_neg hwidth, if_neg hnot]
    rfl

/-- Amounts of any sign are taken away from normalized constraints whose finite ends have room for
that. If an amount is negative on an axis without a bound this overflows, and measuring a padding of
such insets overflows too. In all other cases it leaves normalized constraints, in which an
unbounded end is unbounded as before and a finite one is less by the amount, zero at the least, and
a padding of such insets can be measured if and only if its child can under these. -/
theorem inset_keeps_unbounded (given : Constraints) (amount : Size)
    (hn : given.isNormalized = true) (hamount : ∀ axis, Extent.InRange (amount.along axis))
    (hfinite : ∀ axis, (given.along axis).AllowsFinite (amount.along axis)) :
    ((∃ axis, (given.along axis).hi = Extent.inf ∧ amount.along axis < 0) →
      given.inset amount.width amount.height = .error .overflow ∧
      ∀ frame insets child, (∀ axis, insets.total axis = .ok (amount.along axis)) →
        (Node.padding frame insets child).measure given = .error .overflow) ∧
    ((∀ axis, (given.along axis).hi = Extent.inf → 0 ≤ amount.along axis) →
      ∃ inner, given.inset amount.width amount.height = .ok inner ∧ inner.isNormalized = true ∧
        (∀ axis, inner.along axis =
          ⟨Extent.infOr (given.along axis).lo (max ((given.along axis).lo - amount.along axis) 0),
            Extent.infOr (given.along axis).hi
              (max ((given.along axis).hi - amount.along axis) 0)⟩) ∧
        ∀ frame insets child, (∀ axis, insets.total axis = .ok (amount.along axis)) →
          ((∃ m, (Node.padding frame insets child).measure given = .ok m) ↔
            ∃ found, child.measure inner = .ok found)) := by
  have hlimits (axis : Axis) := Constraints.isNormalized_iff.1 hn axis
  have hallows (axis : Axis) := Limits.allows_iff (hlimits axis) (hamount axis) (hfinite axis)
  have hinset := given.inset_eq_ite amount
  constructor
  · rintro ⟨axis, hunbounded, hneg⟩
    have hnot : ¬ ∀ axis, (given.along axis).Allows (amount.along axis) := fun h => by
      have := (hallows axis).1 (h axis) hunbounded
      omega
    rw [if_neg hnot] at hinset
    refine ⟨hinset, fun frame insets child ht => ?_⟩
    rw [Node.measure_padding_of_total hn ht, hinset]
    rfl
  · intro hbounded
    have hall (axis : Axis) := (hallows axis).2 (hbounded axis)
    rw [if_pos hall] at hinset
    have hinner := Constraints.inset_eq_ok_iff.1 hinset
    refine ⟨_, hinset, Constraints.isNormalized_iff.2 fun axis =>
      Limits.isNormalized_inset (hinner axis), fun axis => ?_, fun frame insets child ht => ?_⟩
    · rw [← Limits.less_eq (hlimits axis) (hall axis)]
      cases axis <;> rfl
    · rw [Node.measure_padding_of_total hn ht, hinset]
      show (∃ m, _ <$> child.measure _ = .ok m) ↔ _
      simp only [map_eq_ok_iff]
      constructor
      · rintro ⟨m, found, hfound, -⟩
        exact ⟨found, hfound⟩
      · rintro ⟨found, hfound⟩
        exact ⟨_, found, hfound, rfl⟩

/-- Insets that add 30 to a width with a bound, next to a height without one. -/
theorem inset_keeps_unbounded_height :
    let given : Constraints := ⟨⟨10, 200⟩, ⟨20, Extent.inf⟩⟩
    let canvas := Node.ofLeaf (.canvas ⟨50, 7⟩ .visible none)
    ∃ inner m, given.inset (-30) 5 = .ok inner ∧ inner = ⟨⟨40, 230⟩, ⟨15, Extent.inf⟩⟩ ∧
      (Node.pad ⟨2, -20, 3, -10⟩ canvas).measure given = .ok m := by
  intro given canvas
  obtain ⟨inner, hinset, -, hends, hpadding⟩ :=
    (inset_keeps_unbounded given ⟨-30, 5⟩ (by decide) (by decide) (by decide)).2 (by decide)
  have hinner : inner = ⟨⟨40, 230⟩, ⟨15, Extent.inf⟩⟩ :=
    congrArg₂ Constraints.mk (hends .horizontal) (hends .vertical)
  obtain ⟨m, hm⟩ := (hpadding {} ⟨2, -20, 3, -10⟩ canvas (by decide)).2 (hinner ▸ ⟨_, rfl⟩)
  exact ⟨inner, m, hinset, hinner, hm⟩

/-- Nothing comes of the difference between an unbounded width and -1, but it overflows, by itself
and in a padding. -/
theorem inset_free_eq_overflow :
    Constraints.free.isNormalized = true ∧
      (∀ axis, Extent.InRange ((Size.mk (-1) 0).along axis)) ∧
      (∀ axis, (Constraints.free.along axis).AllowsFinite ((Size.mk (-1) 0).along axis)) ∧
      Constraints.free.inset (-1) 0 = .error .overflow ∧
      (Node.pad ⟨0, -1, 0, 0⟩ (.ofLeaf (.canvas ⟨5, 7⟩ .visible none))).measure .free =
        .error .overflow :=
  ⟨by decide, by decide, by decide, rfl, rfl⟩

end BoxLayout
