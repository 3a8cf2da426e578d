import BoxLayout.Extent.Checked

/-!
# Constraints derived from constraints

How an answer is held within its limits (`Constraints.constrain`) and how a container turns its own
limits into those of a child: `inset` takes room away, `loosen` drops the lower end, `tighten`
fixes the extent, `unbindAlong` lifts the upper end.

* `Limits.clamp_of_le`: within limits that leave a choice, holding a value cannot fail.
* `Limits.isNormalized_inset`: taking room away leaves normalized limits.
* `Constraints.constrain_eq_ok_iff`: a size is held within limits axis by axis.
-/

namespace BoxLayout

namespace Limits

/-- The value within the limits that is nearest to `v`. -/
def clamp (limits : Limits) (v : Int) : Except Fault Int :=
  if limits.lo ≤ limits.hi then .ok (max limits.lo (min v limits.hi)) else .error .emptyClamp

/-- The limits that leave `v` alone, held within the given ones. -/
def tighten (limits : Limits) (v : Int) : Except Fault Limits := return exactly (← limits.clamp v)

/-- Takes `amount` away from both ends, down to zero at most; an unbounded end stays so, and the
upper end stays above the lower one. -/
def inset (limits : Limits) (amount : Int) : Except Fault Limits := do
  let lo := Extent.infOr limits.lo (max (← Extent.sub limits.lo amount) 0)
  let hi := Extent.infOr limits.hi (← Extent.sub limits.hi amount)
  return ⟨lo, max hi lo⟩

theorem clamp_of_le {limits : Limits} (h : limits.lo ≤ limits.hi) (v : Int) :
    limits.clamp v = .ok (max limits.lo (min v limits.hi)) := if_pos h

theorem clamp_eq_ok_iff {limits : Limits} {v r : Int} :
    limits.clamp v = .ok r ↔ limits.lo ≤ limits.hi ∧ r = max limits.lo (min v limits.hi) := by
  unfold clamp
  split <;> rename_i h
  · simp [h, eq_comm]
  · simp [h]

theorem tighten_eq_ok_iff {limits tight : Limits} {v : Int} :
    limits.tighten v = .ok tight ↔
      limits.lo ≤ limits.hi ∧ tight = exactly (max limits.lo (min v limits.hi)) := by
  unfold tighten
  rw [bind_eq_ok_iff]
  constructor
  · rintro ⟨r, h, ht⟩
    obtain ⟨hle, rfl⟩ := clamp_eq_ok_iff.1 h
    cases ht
    exact ⟨hle, rfl⟩
  · rintro ⟨hle, rfl⟩
    exact ⟨_, clamp_of_le hle v, rfl⟩

theorem inset_eq_ok_iff {limits inner : Limits} {amount : Int} :
    limits.inset amount = .ok inner ↔
      Extent.InRange (limits.lo - amount) ∧ Extent.InRange (limits.hi - amount) ∧
        inner.lo = Extent.infOr limits.lo (max (limits.lo - amount) 0) ∧
        inner.hi = max (Extent.infOr limits.hi (limits.hi - amount)) inner.lo := by
  obtain ⟨lo, hi⟩ := inner
  unfold inset
  simp only [bind_eq_ok_iff, Extent.sub_eq_ok_iff]
  constructor
  · rintro ⟨_, ⟨hlo, rfl⟩, _, ⟨hhi, rfl⟩, h⟩
    cases h
    exact ⟨hlo, hhi, rfl, rfl⟩
  · rintro ⟨hlo, hhi, rfl, rfl⟩
    exact ⟨_, ⟨hlo, rfl⟩, _, ⟨hhi, rfl⟩, rfl⟩

theorem isNormalized_inset {limits inner : Limits} {amount : Int}
    (h : limits.inset amount = .ok inner) : inner.isNormalized = true := by
  obtain ⟨h₁, h₂, hlo, hhi⟩ := inset_eq_ok_iff.1 h
  rw [isNormalized_iff, hhi, hlo]
  simp only [Extent.InRange, Extent.infOr, Extent.inf, Extent.least] at *
  omega

end Limits

namespace Constraints

/-- The size within the limits that is nearest to `size`. -/
def constrain (given : Constraints) (size : Size) : Except Fault Size :=
  return ⟨← given.width.clamp size.width, ← given.height.clamp size.height⟩

/-- Takes `width` and `height` away from the limits. -/
def inset (given : Constraints) (width height : Int) : Except Fault Constraints :=
  return ⟨← given.width.inset width, ← given.height.inset height⟩

/-- Drops the lower end on both axes. -/
def loosen (given : Constraints) : Constraints := ⟨given.width.loosen, given.height.loosen⟩

/-- Drops the lower end on one axis. -/
def loosenAlong (given : Constraints) (axis : Axis) : Constraints :=
  given.setAlong axis (given.along axis).loosen

/-- Lifts both ends on one axis. -/
def unbindAlong (given : Constraints) (axis : Axis) : Constraints := given.setAlong axis .free

/-- Leaves `size` alone, held within the limits. -/
def tighten (given : Constraints) (size : Size) : Except Fault Constraints :=
  return exactly (← given.constrain size)

/-- Leaves the extent `v` alone on one axis, held within the limits. -/
def tightenAlong (given : Constraints) (axis : Axis) (v : Int) : Except Fault Constraints :=
  return given.setAlong axis (← (given.along axis).tighten v)

theorem constrain_eq_ok_iff {given : Constraints} {size answer : Size} :
    given.constrain size = .ok answer ↔
      ∀ axis, (given.along axis).clamp (size.along axis) = .ok (answer.along axis) := by
  unfold constrain
  simp only [bind_eq_ok_iff]
  constructor
  · rintro ⟨w, hw, h, hh, e⟩
    cases e
    intro axis
    cases axis with
    | horizontal => exact hw
    | vertical => exact hh
  · intro h
    exact ⟨_, h .horizontal, _, h .vertical, rfl⟩

theorem tightenAlong_eq_ok_iff {given tight : Constraints} {axis : Axis} {v : Int} :
    given.tightenAlong axis v = .ok tight ↔
      ∃ limits, (given.along axis).tighten v = .ok limits ∧ tight = given.setAlong axis limits := by
  unfold tightenAlong
  rw [bind_eq_ok_iff]
  constructor
  · rintro ⟨limits, h, e⟩
    cases e
    exact ⟨limits, h, rfl⟩
  · rintro ⟨limits, h, rfl⟩
    exact ⟨limits, h, rfl⟩

end Constraints

end BoxLayout
