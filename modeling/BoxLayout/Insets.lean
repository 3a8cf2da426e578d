import BoxLayout.Extent.Checked

/-!
# Insets

Distances kept free along the four edges of a box.
-/

namespace BoxLayout

/-- The distance from each edge. -/
structure Insets where
  top : Int
  right : Int
  bottom : Int
  left : Int
  deriving DecidableEq, Repr, Inhabited

namespace Insets

/-- The same distance from every edge. -/
def all (v : Int) : Insets := ⟨v, v, v, v⟩

/-- One distance left and right, another above and below. -/
def symmetric (horizontal vertical : Int) : Insets := ⟨vertical, horizontal, vertical, horizontal⟩

/-- What the insets take away along one axis. -/
def total (insets : Insets) : Axis → Except Fault Int
  | .horizontal => Extent.add insets.left insets.right
  | .vertical => Extent.add insets.top insets.bottom

/-- What is left of `v` along one axis, nothing at the least; an unbounded extent stays so. -/
def inner (insets : Insets) (axis : Axis) (v : Int) : Except Fault Int := do
  return Extent.infOr v (max (← Extent.sub v (← insets.total axis)) 0)

/-- `size` with the insets added back. -/
def around (insets : Insets) (size : Size) : Except Fault Size := do
  let horizontal ← insets.total .horizontal
  let vertical ← insets.total .vertical
  return size.saturatingAdd ⟨horizontal, vertical⟩

end Insets

end BoxLayout
