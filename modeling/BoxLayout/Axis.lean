/-!
# The two axes

Layout works along one axis at a time. A row and a column differ only in the axis they run along,
so every rule that is not about one screen direction takes an `Axis`.
-/

namespace BoxLayout

/-- A screen direction. -/
inductive Axis where
  /-- Left to right. -/
  | horizontal
  /-- Top to bottom. -/
  | vertical
  deriving DecidableEq, Repr, Inhabited

namespace Axis

/-- The other direction. -/
def flip : Axis → Axis
  | horizontal => vertical
  | vertical => horizontal

@[simp] theorem flip_flip (axis : Axis) : axis.flip.flip = axis := by cases axis <;> rfl

theorem flip_ne (axis : Axis) : axis.flip ≠ axis := by cases axis <;> decide

end Axis

end BoxLayout
