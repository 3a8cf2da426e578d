import BoxLayout.Insets

/-!
# Rectangles

Where a node has been placed: an origin and a size. `Rect.start` and `Rect.extent` read a rectangle
along one axis and `Rect.ofAxis` builds one from its parts along and across an axis.
-/

namespace BoxLayout

/-- A position on the screen. -/
structure Point where
  x : Int
  y : Int
  deriving DecidableEq, Repr, Inhabited

/-- The far corner of a box of the given size that starts at the origin. -/
def Point.ofSize (size : Size) : Point := ⟨size.width, size.height⟩

/-- The size of the box that reaches from the origin to `point`. -/
def Size.ofPoint (point : Point) : Size := ⟨point.x, point.y⟩

@[simp] theorem Size.ofPoint_ofSize (size : Size) : Size.ofPoint (.ofSize size) = size := rfl

/-- A placed box. -/
structure Rect where
  origin : Point
  size : Size
  deriving DecidableEq, Repr, Inhabited

namespace Rect

/-- The box of the given size at the origin. -/
def atOrigin (size : Size) : Rect := ⟨⟨0, 0⟩, size⟩

/-- Where the box starts on one axis. -/
def start (rect : Rect) : Axis → Int
  | .horizontal => rect.origin.x
  | .vertical => rect.origin.y

/-- The extent on one axis. -/
def extent (rect : Rect) (axis : Axis) : Int := rect.size.along axis

/-- The box that starts at `main` and has extent `length` on `axis`, and starts at `cross` and has
extent `breadth` on the other axis. -/
def ofAxis (axis : Axis) (main cross length breadth : Int) : Rect :=
  match axis with
  | .horizontal => ⟨⟨main, cross⟩, ⟨length, breadth⟩⟩
  | .vertical => ⟨⟨cross, main⟩, ⟨breadth, length⟩⟩

/-- The end of the box on one axis, which is no longer part of it. -/
def stop (rect : Rect) (axis : Axis) : Except Fault Int :=
  Extent.add (rect.start axis) (rect.extent axis)

/-- `v` lies in the box on one axis; the end is looked at only for a `v` not before the start. -/
def spans (rect : Rect) (axis : Axis) (v : Int) : Except Fault Bool :=
  if rect.start axis ≤ v then return v < (← rect.stop axis) else return false

/-- `point` lies in the box; the vertical axis is looked at only if the horizontal one allows it. -/
def contains (rect : Rect) (point : Point) : Except Fault Bool := do
  if ← rect.spans .horizontal point.x then rect.spans .vertical point.y else return false

/-- Shrinks the box by `insets`, to nothing at the least. -/
def inset (rect : Rect) (insets : Insets) : Except Fault Rect := do
  let x ← Extent.add rect.origin.x insets.left
  let y ← Extent.add rect.origin.y insets.top
  let width ← Extent.sub rect.size.width (← insets.total .horizontal)
  let height ← Extent.sub rect.size.height (← insets.total .vertical)
  return ⟨⟨x, y⟩, ⟨max width 0, max height 0⟩⟩

/-- Origin and size, as in `(0,20 300x180)`. -/
def text (rect : Rect) : String :=
  "(" ++ toString rect.origin.x ++ "," ++ toString rect.origin.y ++ " " ++ rect.size.text ++ ")"

section Axis

variable (axis : Axis) (main cross length breadth : Int)

@[simp] theorem start_ofAxis : (ofAxis axis main cross length breadth).start axis = main := by
  cases axis <;> rfl

@[simp] theorem start_flip_ofAxis :
    (ofAxis axis main cross length breadth).start axis.flip = cross := by cases axis <;> rfl

@[simp] theorem extent_ofAxis : (ofAxis axis main cross length breadth).extent axis = length := by
  cases axis <;> rfl

@[simp] theorem extent_flip_ofAxis :
    (ofAxis axis main cross length breadth).extent axis.flip = breadth := by cases axis <;> rfl

end Axis

end Rect

end BoxLayout
