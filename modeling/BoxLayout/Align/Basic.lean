import BoxLayout.Align.Anchor
import BoxLayout.Align.Factor
import BoxLayout.Rect

/-!
# Alignment of a single child

An alignment holds an anchor and a size factor per axis. It reports the child's size scaled by the
factors and places the child, at its own size, where the anchors say.
-/

namespace BoxLayout

/-- How a single child lies in the box it is given. -/
structure Alignment where
  horizontal : Anchor := .center
  vertical : Anchor := .center
  width : Factor := .natural
  height : Factor := .natural
  deriving Inhabited

namespace Alignment

/-- The anchor on one axis. -/
def anchor (alignment : Alignment) : Axis → Anchor
  | .horizontal => alignment.horizontal
  | .vertical => alignment.vertical

/-- The size factor on one axis. -/
def factor (alignment : Alignment) : Axis → Factor
  | .horizontal => alignment.width
  | .vertical => alignment.height

/-- The size to report for a child of the given size. -/
def scaled (alignment : Alignment) (child : Size) : Size :=
  ⟨alignment.width.apply child.width, alignment.height.apply child.height⟩

/-- Where the child starts on one axis of `bounds`. -/
def position (alignment : Alignment) (axis : Axis) (bounds : Rect) (child : Size) :
    Except Fault Int := do
  let offset ← (alignment.anchor axis).offset (bounds.extent axis) (child.along axis)
  Extent.add (bounds.start axis) offset

theorem position_eq_ok_iff {alignment : Alignment} {axis : Axis} {bounds : Rect} {child : Size}
    {pos : Int} : alignment.position axis bounds child = .ok pos ↔
      ∃ offset, (alignment.anchor axis).offset (bounds.extent axis) (child.along axis) =
        .ok offset ∧ Extent.InRange (bounds.start axis + offset) ∧
          pos = bounds.start axis + offset := by
  unfold position
  simp only [bind_eq_ok_iff, Extent.add_eq_ok_iff]

/-- The box of a child of the given size inside `bounds`. -/
def slot (alignment : Alignment) (bounds : Rect) (child : Size) : Except Fault Rect := do
  let x ← alignment.position .horizontal bounds child
  let y ← alignment.position .vertical bounds child
  return ⟨⟨x, y⟩, child⟩

end Alignment

end BoxLayout
