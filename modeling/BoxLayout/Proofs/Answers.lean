import BoxLayout.Proofs.Conditions
import BoxLayout.Proofs.Limits
import BoxLayout.Proofs.Runs

/-!
# How far answers obey their constraints

Every node but a padding holds its answer within its constraints. A padding adds its insets to what
its child answers, so that an answer can exceed its limits: it obeys them up to the paddings that
the tree starts with (`Node.paddedExtent`, `measure_bounds`).
-/

namespace BoxLayout

namespace Limits

/-- `v` lies within the limits, or is as small as `floor` permits beyond them. -/
def Admits (limits : Limits) (floor v : Int) : Prop :=
  max limits.lo floor ≤ v ∧ v ≤ max limits.hi floor

theorem admits_nearest {limits : Limits} (h : limits.isNormalized = true) (v : Int) :
    limits.Admits 0 (limits.nearest v) := by
  have := isNormalized_iff.1 h
  unfold Admits nearest
  omega

/-- What is admitted inside is admitted outside once the amount taken away is put back. -/
theorem Admits.of_less {limits : Limits} (h : limits.isNormalized = true) {amount : Int}
    (ha : Extent.IsLength amount) {floor v : Int} (hf : Extent.IsLength floor)
    (hv : (limits.less amount).Admits floor v) :
    limits.Admits (Extent.saturatingAdd amount floor) (Extent.saturatingAdd v amount) := by
  have hn := isNormalized_iff.1 h
  have hless := isNormalized_iff.1 (isNormalized_less h ha)
  have hvl : Extent.IsLength v := by
    unfold Admits at hv
    exact ⟨by have := hf.1; omega, by have := hf.2; omega⟩
  unfold Admits at *
  rw [Extent.saturatingAdd_eq_min ha.1 hf.1, Extent.saturatingAdd_eq_min hvl.1 ha.1]
  simp only [less, Extent.infOr, Extent.IsLength, Extent.inf] at *
  omega

end Limits

theorem Constraints.admits_of_constrain {given : Constraints} (hn : given.isNormalized = true)
    {size answer : Size} (h : given.constrain size = .ok answer) (axis : Axis) :
    (given.along axis).Admits 0 (answer.along axis) := by
  rw [along_of_constrain h axis]
  exact Limits.admits_nearest (isNormalized_iff.1 hn axis) _

theorem Leaf.exists_constrain_of_measure {leaf : Leaf} {given : Constraints} {answer : Size}
    (h : leaf.measure given = .ok answer) : ∃ size, given.constrain size = .ok answer := by
  cases leaf with
  | spacer | canvas | portrait => exact ⟨_, h⟩
  | button | text =>
    obtain ⟨size, -, ha⟩ := bind_eq_ok_iff.1 h
    exact ⟨size, ha⟩

namespace Node

/-- What the paddings that a tree starts with take away along one axis. Paddings below another kind
of node do not count. -/
def paddedExtent (axis : Axis) : Node → Int
  | padding _ insets child =>
    Extent.saturatingAdd (insets.amount axis) (child.paddedExtent axis)
  | leaf .. | align .. | stack .. | table .. => 0

/-- The paddings that a tree starts with have proper insets. -/
def IsProperlyPadded : Node → Prop
  | padding _ insets child => insets.IsProper ∧ child.IsProperlyPadded
  | leaf .. | align .. | stack .. | table .. => True

theorem isLength_paddedExtent {root : Node} (h : root.IsProperlyPadded) (axis : Axis) :
    Extent.IsLength (root.paddedExtent axis) := by
  induction root with
  | padding frame insets child ih =>
    exact Extent.isLength_saturatingAdd (h.1.isLength_amount axis).1 (ih h.2).1
  | leaf | align | stack | table => exact Extent.isLength_zero

variable {root : Node} {given : Constraints} {m : Measured}

theorem admits_of_measure (h : root.IsProperlyPadded) (hm : root.measure given = .ok m)
    (axis : Axis) : (given.along axis).Admits (root.paddedExtent axis) (m.size.along axis) := by
  induction root generalizing given m with
  | leaf frame content =>
    obtain ⟨size, hs⟩ := Leaf.exists_constrain_of_measure (measure_leaf hm).1
    exact Constraints.admits_of_constrain (isNormalized_of_measure hm) hs axis
  | padding frame insets child ih =>
    have hn := isNormalized_of_measure hm
    obtain ⟨width, height, inner, found, hw, hh, hi, hf, ha, -⟩ := measure_padding hm
    rw [h.1.total_eq] at hw hh
    cases hw
    cases hh
    rw [Constraints.inset_eq hn (h.1.isLength_amount _) (h.1.isLength_amount _)] at hi
    cases hi
    rw [h.1.around_eq] at ha
    have hv := ih h.2 hf
    have hfl := isLength_paddedExtent h.2 axis
    have hna := Constraints.isNormalized_iff.1 hn axis
    rw [← Except.ok.inj ha]
    cases axis with
    | horizontal => exact .of_less hna (h.1.isLength_amount _) hfl hv
    | vertical => exact .of_less hna (h.1.isLength_amount _) hfl hv
  | align frame alignment measured child ih =>
    obtain ⟨found, -, ha, -⟩ := measure_align hm
    exact Constraints.admits_of_constrain (isNormalized_of_measure hm) ha axis
  | stack frame style totals items ih =>
    rcases Classical.em (liveCount items = 0) with hl | hl
    · exact Constraints.admits_of_constrain (isNormalized_of_measure hm)
        (measure_stack_empty hm hl).1 axis
    · obtain ⟨run, -, ha, -⟩ := measure_stack hm hl
      exact Constraints.admits_of_constrain (isNormalized_of_measure hm) ha axis
  | table frame grid cells ih =>
    obtain ⟨once, again, sized, -, -, -, ha, -⟩ := measure_table hm
    exact Constraints.admits_of_constrain (isNormalized_of_measure hm) ha axis

/-- Measuring leaves the paddings as they are. -/
theorem paddings_of_measure (hm : root.measure given = .ok m) :
    (∀ axis, m.node.paddedExtent axis = root.paddedExtent axis) ∧
      (root.IsProperlyPadded → m.node.IsProperlyPadded) := by
  induction root generalizing given m with
  | leaf frame content =>
    rw [(measure_leaf hm).2]
    exact ⟨fun _ => rfl, id⟩
  | padding frame insets child ih =>
    obtain ⟨_, _, inner, found, -, -, -, hf, -, hnode⟩ := measure_padding hm
    obtain ⟨he, hp⟩ := ih hf
    rw [hnode]
    exact ⟨fun axis => congrArg (Extent.saturatingAdd _) (he axis), fun h => ⟨h.1, hp h.2⟩⟩
  | align frame alignment measured child ih =>
    obtain ⟨found, -, -, hnode⟩ := measure_align hm
    rw [hnode]
    exact ⟨fun _ => rfl, id⟩
  | stack frame style totals items ih =>
    rcases Classical.em (liveCount items = 0) with hl | hl
    · rw [(measure_stack_empty hm hl).2]
      exact ⟨fun _ => rfl, id⟩
    · obtain ⟨run, -, -, hnode⟩ := measure_stack hm hl
      rw [hnode]
      exact ⟨fun _ => rfl, id⟩
  | table frame grid cells ih =>
    obtain ⟨once, again, sized, -, -, -, -, hnode⟩ := measure_table hm
    rw [hnode]
    exact ⟨fun _ => rfl, id⟩

/-- An answer lies within its limits, except where the paddings that the tree starts with need
more. So it obeys limits that leave room for these, answers a tight question exactly or with what
they need, and does not change when the tree is asked for just this answer. -/
theorem measure_bounds (h : root.IsProperlyPadded) (hm : root.measure given = .ok m) :
    (∀ axis, max (given.along axis).lo (root.paddedExtent axis) ≤ m.size.along axis ∧
      m.size.along axis ≤ max (given.along axis).hi (root.paddedExtent axis)) ∧
    (∀ axis, root.paddedExtent axis ≤ (given.along axis).hi →
      (given.along axis).lo ≤ m.size.along axis ∧ m.size.along axis ≤ (given.along axis).hi) ∧
    (∀ axis v, given.along axis = .exactly v →
      m.size.along axis = max v (root.paddedExtent axis)) ∧
    ∀ again, m.node.measure (.exactly m.size) = .ok again → again.size = m.size := by
  have hb := admits_of_measure h hm
  refine ⟨hb, fun axis hf => ?_, fun axis v hv => ?_, fun again ha => ?_⟩
  · obtain ⟨lower, upper⟩ := hb axis
    exact ⟨by omega, by omega⟩
  · obtain ⟨lower, upper⟩ := hb axis
    rw [hv] at lower upper
    exact Int.le_antisymm upper lower
  · obtain ⟨he, hp⟩ := paddings_of_measure hm
    refine Size.eq_of_along fun axis => ?_
    obtain ⟨lower, upper⟩ := admits_of_measure (hp h) ha axis
    rw [he, Constraints.along_exactly] at lower upper
    have := (hb axis).1
    simp only [Limits.exactly] at lower upper
    omega

/-- Insets of 16 both ways stay although there is room for 10 only. -/
theorem measure_pad_eq : ∃ m, (pad (.all 8) (ofLeaf (.spacer ⟨20, 20⟩))).measure (.upTo ⟨10, 10⟩) =
    .ok m ∧ m.size = ⟨16, 16⟩ ∧
      ∀ again, m.node.measure (.exactly m.size) = .ok again → again.size = m.size := by
  have hp : (pad (.all 8) (ofLeaf (.spacer ⟨20, 20⟩))).IsProperlyPadded :=
    ⟨⟨by decide, fun axis => by cases axis <;> decide⟩, trivial⟩
  obtain ⟨m, hm, hs⟩ : ∃ m, (pad (.all 8) (ofLeaf (.spacer ⟨20, 20⟩))).measure (.upTo ⟨10, 10⟩) =
    .ok m ∧ m.size = ⟨16, 16⟩ := ⟨_, rfl, rfl⟩
  exact ⟨m, hm, hs, (measure_bounds hp hm).2.2.2⟩

end Node

end BoxLayout
