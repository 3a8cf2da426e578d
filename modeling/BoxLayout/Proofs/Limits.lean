import BoxLayout.Constraints.Derive
import BoxLayout.Proofs.Lengths

/-!
# Normalized limits

`Limits.nearest` is the value that `Limits.clamp` gives whenever the limits leave a choice. Under
normalized constraints holding, tightening and taking away lengths cannot fail and gives lengths
and normalized constraints again.
-/

namespace BoxLayout

theorem Axis.forall_iff {P : Axis → Prop} (axis : Axis) : (∀ a, P a) ↔ P axis ∧ P axis.flip :=
  ⟨fun h => ⟨h _, h _⟩, fun h a => by cases axis <;> cases a <;> first | exact h.1 | exact h.2⟩

instance {P : Axis → Prop} [DecidablePred P] : Decidable (∀ axis, P axis) :=
  decidable_of_iff _ (Axis.forall_iff .horizontal).symm

/-- Both extents are lengths. -/
def Size.IsProper (size : Size) : Prop := ∀ axis, Extent.IsLength (size.along axis)

instance (size : Size) : Decidable size.IsProper :=
  inferInstanceAs (Decidable (∀ axis, Extent.IsLength (size.along axis)))

namespace Limits

/-- The value within the limits that is nearest to `v`, if there is one. -/
def nearest (limits : Limits) (v : Int) : Int := max limits.lo (min v limits.hi)

variable {limits : Limits}

theorem isLength_lo (h : limits.isNormalized = true) : Extent.IsLength limits.lo := by
  have := isNormalized_iff.1 h
  exact ⟨this.1, by omega⟩

theorem isLength_hi (h : limits.isNormalized = true) : Extent.IsLength limits.hi := by
  have := isNormalized_iff.1 h
  exact ⟨by omega, this.2.2⟩

theorem isLength_nearest (h : limits.isNormalized = true) (v : Int) :
    Extent.IsLength (limits.nearest v) := by
  have := isNormalized_iff.1 h
  unfold nearest
  exact ⟨by omega, by omega⟩

theorem clamp_eq (h : limits.isNormalized = true) (v : Int) :
    limits.clamp v = .ok (limits.nearest v) :=
  clamp_of_le (isNormalized_iff.1 h).2.1 v

theorem isNormalized_exactly {v : Int} (h : Extent.IsLength v) :
    (exactly v).isNormalized = true :=
  isNormalized_iff.2 ⟨h.1, Int.le_refl v, h.2⟩

theorem isNormalized_upTo {v : Int} (h : Extent.IsLength v) : (upTo v).isNormalized = true :=
  isNormalized_iff.2 ⟨Int.le_refl 0, h.1, h.2⟩

theorem isNormalized_free : free.isNormalized = true := isNormalized_upTo Extent.isLength_inf

/-- What is left of normalized limits when a length is taken away. -/
def less (limits : Limits) (amount : Int) : Limits :=
  let lo := Extent.infOr limits.lo (max (limits.lo - amount) 0)
  ⟨lo, max (Extent.infOr limits.hi (limits.hi - amount)) lo⟩

theorem inset_eq (h : limits.isNormalized = true) {amount : Int} (ha : Extent.IsLength amount) :
    limits.inset amount = .ok (limits.less amount) := by
  have hl := isLength_lo h
  have hh := isLength_hi h
  refine inset_eq_ok_iff.2 ⟨?_, ?_, rfl, rfl⟩ <;>
    simp only [Extent.IsLength, Extent.InRange, Extent.least, Extent.inf] at * <;> omega

theorem isNormalized_less (h : limits.isNormalized = true) {amount : Int}
    (ha : Extent.IsLength amount) : (limits.less amount).isNormalized = true :=
  isNormalized_inset (inset_eq h ha)

end Limits

namespace Constraints

variable {given : Constraints}

theorem isNormalized_iff_along (axis : Axis) :
    given.isNormalized = true ↔ (given.along axis).isNormalized = true ∧
      (given.along axis.flip).isNormalized = true := by
  rw [isNormalized_iff, Axis.forall_iff axis]

theorem constrain_eq (h : given.isNormalized = true) (size : Size) :
    given.constrain size =
      .ok ⟨given.width.nearest size.width, given.height.nearest size.height⟩ :=
  constrain_eq_ok_iff.2 fun axis => by
    have := Limits.clamp_eq (isNormalized_iff.1 h axis) (size.along axis)
    cases axis <;> exact this

theorem along_of_constrain {size answer : Size} (h : given.constrain size = .ok answer)
    (axis : Axis) : answer.along axis = (given.along axis).nearest (size.along axis) :=
  (Limits.clamp_eq_ok_iff.1 (constrain_eq_ok_iff.1 h axis)).2

theorem isProper_of_constrain (hn : given.isNormalized = true) {size answer : Size}
    (h : given.constrain size = .ok answer) : answer.IsProper := fun axis =>
  along_of_constrain h axis ▸ Limits.isLength_nearest (isNormalized_iff.1 hn axis) _

theorem constrain_isProper (h : given.isNormalized = true)
    (size : Size) : ∃ answer, given.constrain size = .ok answer ∧ answer.IsProper :=
  ⟨_, constrain_eq h size, isProper_of_constrain h (constrain_eq h size)⟩

theorem isNormalized_loosen (h : given.isNormalized = true) :
    given.loosen.isNormalized = true := by
  rw [isNormalized_iff] at *
  intro axis
  have := Limits.isNormalized_upTo (Limits.isLength_hi (h axis))
  cases axis <;> exact this

theorem isNormalized_free : free.isNormalized = true :=
  isNormalized_iff.2 fun axis => by cases axis <;> exact Limits.isNormalized_free

@[simp] theorem along_exactly (size : Size) (axis : Axis) :
    (exactly size).along axis = .exactly (size.along axis) := by cases axis <;> rfl

@[simp] theorem along_loosen (axis : Axis) :
    given.loosen.along axis = (given.along axis).loosen := by
  cases axis <;> rfl

@[simp] theorem along_setAlong_flip (axis : Axis) (limits : Limits) :
    (given.setAlong axis.flip limits).along axis = given.along axis := by cases axis <;> rfl

theorem isNormalized_exactly {size : Size} (h : size.IsProper) :
    (exactly size).isNormalized = true :=
  isNormalized_iff.2 fun axis => along_exactly size axis ▸ Limits.isNormalized_exactly (h axis)

theorem tightenAlong_eq {axis : Axis} (h : (given.along axis).isNormalized = true) (v : Int) :
    given.tightenAlong axis v =
      .ok (given.setAlong axis (.exactly ((given.along axis).nearest v))) :=
  tightenAlong_eq_ok_iff.2 ⟨_,
    Limits.tighten_eq_ok_iff.2 ⟨(Limits.isNormalized_iff.1 h).2.1, rfl⟩, rfl⟩

theorem inset_eq_ok_iff {inner : Constraints} {width height : Int} :
    given.inset width height = .ok inner ↔
      ∀ axis, (given.along axis).inset ((Size.mk width height).along axis) =
        .ok (inner.along axis) := by
  unfold inset
  simp only [bind_eq_ok_iff]
  constructor
  · rintro ⟨w, hw, h, hh, e⟩
    cases e
    intro axis
    cases axis with
    | horizontal => exact hw
    | vertical => exact hh
  · intro h
    exact ⟨_, h .horizontal, _, h .vertical, rfl⟩

/-- The constraints that are left when lengths are taken away. -/
def less (given : Constraints) (width height : Int) : Constraints :=
  ⟨given.width.less width, given.height.less height⟩

theorem inset_eq (h : given.isNormalized = true) {width height : Int}
    (hw : Extent.IsLength width) (hh : Extent.IsLength height) :
    given.inset width height = .ok (given.less width height) := by
  refine inset_eq_ok_iff.2 fun axis => ?_
  cases axis with
  | horizontal => exact Limits.inset_eq (isNormalized_iff.1 h .horizontal) hw
  | vertical => exact Limits.inset_eq (isNormalized_iff.1 h .vertical) hh

theorem isNormalized_less (h : given.isNormalized = true) {width height : Int}
    (hw : Extent.IsLength width) (hh : Extent.IsLength height) :
    (given.less width height).isNormalized = true :=
  (isNormalized_iff_along .horizontal).2
    ⟨Limits.isNormalized_less (isNormalized_iff.1 h .horizontal) hw,
      Limits.isNormalized_less (isNormalized_iff.1 h .vertical) hh⟩

end Constraints

end BoxLayout
