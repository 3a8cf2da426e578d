import BoxLayout.Node.Edit
import BoxLayout.Node.MinExtent
import BoxLayout.Proofs.Reach
import BoxLayout.Proofs.Text.Bounds
import BoxLayout.Proofs.Lengths

/-!
# Conditions on trees

What a tree must be like for its layout to stay within the numbers: `Node.IsTame` says it of a
single node in terms of the data a host gives, `Node.IsSafe` in terms of what the leaves answer.
Two things that neither looks at keep a node from being measured (`Node.IsUnfit`): the weights of
a stack may add up to too much, and a table may have too many tracks.
-/

namespace BoxLayout

namespace Insets

/-- What the insets take away along one axis, as an exact number. -/
def amount (insets : Insets) : Axis → Int
  | .horizontal => insets.left + insets.right
  | .vertical => insets.top + insets.bottom

/-- No distance is negative. -/
def IsNonneg (insets : Insets) : Prop :=
  0 ≤ insets.top ∧ 0 ≤ insets.right ∧ 0 ≤ insets.bottom ∧ 0 ≤ insets.left

instance (insets : Insets) : Decidable insets.IsNonneg := inferInstanceAs (Decidable (_ ∧ _))

/-- No distance is negative, and what the insets take away is an extent. -/
structure IsProper (insets : Insets) : Prop where
  nonneg : insets.IsNonneg
  amount_le : ∀ axis, insets.amount axis ≤ Extent.inf

theorem total_eq_checked (insets : Insets) (axis : Axis) :
    insets.total axis = Extent.checked (insets.amount axis) := by cases axis <;> rfl

theorem IsNonneg.amount_nonneg {insets : Insets} (h : insets.IsNonneg) (axis : Axis) :
    0 ≤ insets.amount axis := by
  unfold IsNonneg at h
  cases axis <;> simp only [amount] <;> omega

theorem IsProper.isLength_amount {insets : Insets} (h : insets.IsProper) (axis : Axis) :
    Extent.IsLength (insets.amount axis) := ⟨h.nonneg.amount_nonneg axis, h.amount_le axis⟩

theorem IsProper.total_eq {insets : Insets} (h : insets.IsProper) (axis : Axis) :
    insets.total axis = .ok (insets.amount axis) := by
  rw [total_eq_checked, Extent.checked_of_inRange (h.isLength_amount axis).inRange]

theorem IsProper.around_eq {insets : Insets} (h : insets.IsProper) (size : Size) :
    insets.around size =
      .ok (size.saturatingAdd ⟨insets.amount .horizontal, insets.amount .vertical⟩) := by
  rw [around, h.total_eq, h.total_eq]
  rfl

/-- What proper insets leave of an extent. -/
theorem IsProper.inner_eq {insets : Insets} (h : insets.IsProper) (axis : Axis) {v : Int}
    (hv : Extent.IsLength v) :
    insets.inner axis v = .ok (Extent.infOr v (max (v - insets.amount axis) 0)) := by
  have ha := h.isLength_amount axis
  have hr : Extent.InRange (v - insets.amount axis) := by
    simp only [Extent.IsLength, Extent.InRange, Extent.least, Extent.inf] at *; omega
  exact bind_eq_ok_iff.2 ⟨_, h.total_eq axis, bind_eq_ok_iff.2
    ⟨_, Extent.checked_of_inRange hr, rfl⟩⟩

theorem IsProper.inner_isOk {insets : Insets} (h : insets.IsProper) (axis : Axis) {v : Int}
    (hv : Extent.IsLength v) : ∃ rest, insets.inner axis v = .ok rest ∧ Extent.IsLength rest := by
  refine ⟨_, h.inner_eq axis hv, ?_⟩
  have ha := h.isLength_amount axis
  simp only [Extent.IsLength, Extent.infOr, Extent.inf] at *
  omega

end Insets

/-! ## Leaves -/

namespace Leaf

/-- A text or a label of the leaf has fewer than `Text.shortLength` characters. -/
def IsShort : Leaf → Prop
  | button label _ _ => label.length < Text.shortLength
  | text content _ _ => content.length < Text.shortLength
  | spacer _ | canvas .. | portrait => True

/-- The leaf wants a size under all constraints, and has a least extent for all extents. -/
structure IsSafe (leaf : Leaf) : Prop where
  measure : ∀ given, ∃ size, leaf.measure given = given.constrain size
  minExtent : ∀ axis other, ∃ least, leaf.minExtent axis other = .ok least

theorem isSafe_button {label : String} {visibility : Visibility} {bounds : Rect} {size : Size}
    (h : buttonSize label = .ok size) : (button label visibility bounds).IsSafe where
  measure given := ⟨_, by rw [Leaf.measure, h]; rfl⟩
  minExtent axis other := ⟨_, by rw [Leaf.minExtent, h]; rfl⟩

theorem IsShort.isSafe {leaf : Leaf} (h : leaf.IsShort) : leaf.IsSafe := by
  cases leaf with
  | spacer size => exact ⟨fun given => ⟨size, rfl⟩, fun axis other => ⟨_, rfl⟩⟩
  | canvas ideal visibility observer =>
    exact ⟨fun given => ⟨ideal, rfl⟩, fun axis other => ⟨_, rfl⟩⟩
  | button label visibility bounds => exact isSafe_button (buttonSize_of_length_lt h)
  | text content visibility bounds =>
    have hm := Text.measure_of_length_lt h
    refine ⟨fun given => ⟨_, by rw [Leaf.measure, hm]; rfl⟩, fun axis other => ?_⟩
    cases axis with
    | horizontal => exact ⟨_, Text.minWidth_of_length_lt h⟩
    | vertical => exact ⟨_, by rw [Leaf.minExtent, hm]; rfl⟩
  | portrait =>
    exact ⟨fun given => ⟨_, rfl⟩, fun axis other => by cases axis <;> exact ⟨_, rfl⟩⟩

end Leaf

/-! ## Nodes -/

namespace Node

/-- The insets of a padding are proper, texts and labels are short, and a table has its cells. -/
def IsTame : Node → Prop
  | leaf _ content => content.IsShort
  | padding _ insets _ => insets.IsProper
  | table _ grid _ => grid.isOversized = false
  | align .. | stack .. => True

/-- The same, with no more said about leaves than that their sizes can be computed. -/
def IsSafe : Node → Prop
  | leaf _ content => content.IsSafe
  | padding _ insets _ => insets.IsProper
  | table _ grid _ => grid.isOversized = false
  | align .. | stack .. => True

/-- A table has a cell for each row and column, or none if memory cannot hold that many. -/
def IsNumbered : Node → Prop
  | table _ grid cells => cells.length = grid.cellCount
  | leaf .. | padding .. | align .. | stack .. => True

theorem IsNumbered.length_le {frame : Frame} {grid : Grid} {cells : List (Option Node)}
    (h : (table frame grid cells).IsNumbered) : cells.length ≤ grid.size :=
  Nat.le_trans (Nat.le_of_eq h) grid.cellCount_le_size

/-- The children of a homogeneous stack can be counted by an extent. -/
def HasCountableSlices : Node → Prop
  | stack _ style _ items => style.isHomogeneous = true → liveCount items ≤ Extent.inf
  | leaf .. | padding .. | align .. | table .. => True

instance (node : Node) : Decidable node.HasCountableSlices :=
  match node with
  | stack _ style _ items =>
    inferInstanceAs (Decidable (style.isHomogeneous = true → liveCount items ≤ Extent.inf))
  | leaf .. | padding .. | align .. | table .. => isTrue trivial

/-- The weights of the children of a stack that take part, in a stack that shares out room by
weight. -/
def weights : Node → List Nat
  | stack _ style _ items =>
    if style.isHomogeneous then [] else (items.filter (·.node.isLive)).map (·.flex)
  | leaf .. | padding .. | align .. | table .. => []

/-- The weights of a stack add up to more than can be counted. -/
def IsOverweight (node : Node) : Prop := maxFlex < sumFlex node.weights

instance (node : Node) : Decidable node.IsOverweight := inferInstanceAs (Decidable (_ < _))

/-- The node is a table with more tracks along one axis than memory can hold. -/
def HasTooManyTracks : Node → Prop
  | table _ grid _ => grid.hasTooManyTracks = true
  | leaf .. | padding .. | align .. | stack .. => False

/-- The node cannot be measured, whatever its children are, and fails with `fault`. -/
def IsUnfit (fault : Fault) (node : Node) : Prop :=
  fault = .overflow ∧ node.IsOverweight ∨ fault = .capacity ∧ node.HasTooManyTracks

/-- The node can be measured if its children can. -/
def IsFit (node : Node) : Prop := node.IsSafe ∧ ∀ fault, ¬ node.IsUnfit fault

theorem isFit_leaf {frame : Frame} {content : Leaf} (h : content.IsSafe) :
    (leaf frame content).IsFit := by
  refine ⟨h, ?_⟩
  rintro fault (⟨-, hw⟩ | ⟨-, ht⟩)
  · cases hw
  · exact ht

theorem isFit_stack {frame : Frame} {style : StackStyle} {totals : StackTotals}
    {items : List (Item Node)} (h : ¬ (stack frame style totals items).IsOverweight) :
    (stack frame style totals items).IsFit := by
  refine ⟨trivial, ?_⟩
  rintro fault (⟨-, hw⟩ | ⟨-, ht⟩)
  · exact h hw
  · exact ht

theorem IsTame.isSafe {node : Node} (h : node.IsTame) : node.IsSafe := by
  cases node with
  | leaf frame content => exact Leaf.IsShort.isSafe h
  | _ => exact h

end Node

end BoxLayout
