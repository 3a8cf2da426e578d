import BoxLayout.Axis
import BoxLayout.Extent

/-!
# Sizes

A width and a height. `Size.along` reads the extent on an axis and `Size.ofAxis` builds a size from
its extents along and across an axis; `along_ofAxis` and `ofAxis_along` say that they are inverse.
-/

namespace BoxLayout

/-- The extents of a box. -/
structure Size where
  width : Int
  height : Int
  deriving DecidableEq, Repr

namespace Size

/-- The empty size. -/
def zero : Size := ⟨0, 0⟩

instance : Inhabited Size := ⟨zero⟩

/-- The size that is unbounded both ways. -/
def inf : Size := ⟨Extent.inf, Extent.inf⟩

/-- The extent on one axis. -/
def along (size : Size) : Axis → Int
  | .horizontal => size.width
  | .vertical => size.height

/-- The size with extent `main` on `axis` and `cross` on the other axis. -/
def ofAxis (axis : Axis) (main cross : Int) : Size :=
  match axis with
  | .horizontal => ⟨main, cross⟩
  | .vertical => ⟨cross, main⟩

/-- Neither extent is unbounded. -/
def isFinite (size : Size) : Bool := size.width != Extent.inf && size.height != Extent.inf

/-- Adds extent by extent, keeping unbounded ones unbounded. -/
def saturatingAdd (a b : Size) : Size :=
  ⟨Extent.saturatingAdd a.width b.width, Extent.saturatingAdd a.height b.height⟩

/-- Width and height, as in `200xinf`. -/
def text (size : Size) : String := Extent.text size.width ++ "x" ++ Extent.text size.height

@[simp] theorem along_ofAxis (axis : Axis) (main cross : Int) :
    (ofAxis axis main cross).along axis = main := by cases axis <;> rfl

@[simp] theorem along_flip_ofAxis (axis : Axis) (main cross : Int) :
    (ofAxis axis main cross).along axis.flip = cross := by cases axis <;> rfl

@[simp] theorem ofAxis_along (axis : Axis) (size : Size) :
    ofAxis axis (size.along axis) (size.along axis.flip) = size := by cases axis <;> rfl

theorem eq_of_along {a b : Size} (h : ∀ axis, a.along axis = b.along axis) : a = b := by
  rw [← ofAxis_along .horizontal a, h, h, ofAxis_along]

@[simp] theorem along_saturatingAdd (a b : Size) (axis : Axis) :
    (a.saturatingAdd b).along axis = Extent.saturatingAdd (a.along axis) (b.along axis) := by
  cases axis <;> rfl

end Size

end BoxLayout
