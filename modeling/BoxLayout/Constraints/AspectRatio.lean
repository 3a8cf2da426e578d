import BoxLayout.Constraints.Derive
import BoxLayout.Extent.Rounding

/-!
# Constraining a size that should keep its shape

`Constraints.constrainKeepingRatio` scales a size until it fits, both axes by the same factor. Four
corrections run in a fixed order: too wide, too high, too narrow, too low. Each takes one extent
from the limits and the other from the ratio, so the last one that applies decides.
-/

namespace BoxLayout

namespace AspectRatio

/-- A box whose extents need not be whole. -/
structure Shape where
  width : Float
  height : Float

/-- The shape of the given width whose width is `ratio` times its height. -/
def ofWidth (ratio : Float) (width : Int) : Shape := ⟨.ofInt width, .ofInt width / ratio⟩

/-- The shape of the given height whose width is `ratio` times its height. -/
def ofHeight (ratio : Float) (height : Int) : Shape := ⟨.ofInt height * ratio, .ofInt height⟩

/-- Corrects a shape that is too large for `max`. -/
def shrink (ratio : Float) (max : Constraints) (shape : Shape) : Shape :=
  let shape :=
    if max.width.isBounded && shape.width > .ofInt max.width.hi then ofWidth ratio max.width.hi
    else shape
  if max.height.isBounded && shape.height > .ofInt max.height.hi then ofHeight ratio max.height.hi
  else shape

/-- Corrects a shape that is too small for `min`. -/
def grow (ratio : Float) (min : Constraints) (shape : Shape) : Shape :=
  let shape := if shape.width < .ofInt min.width.lo then ofWidth ratio min.width.lo else shape
  if shape.height < .ofInt min.height.lo then ofHeight ratio min.height.lo else shape

/-- The whole pixels of a shape. -/
def Shape.size (shape : Shape) : Size :=
  ⟨Extent.truncate shape.width, Extent.truncate shape.height⟩

end AspectRatio

open AspectRatio in
/-- Like `Constraints.constrain`, but scales `size` evenly where the limits allow it. An empty or
unbounded size has no shape to keep. -/
def Constraints.constrainKeepingRatio (given : Constraints) (size : Size) : Except Fault Size :=
  if given.isTight then .ok given.min
  else if size.width ≤ 0 ∨ size.height ≤ 0 ∨ size.isFinite = false then given.constrain size
  else
    let shape : Shape := ⟨.ofInt size.width, .ofInt size.height⟩
    let ratio := shape.width / shape.height
    given.constrain (grow ratio given (shrink ratio given shape)).size

/-! ## Without a shape to keep -/

theorem Constraints.constrainKeepingRatio_of_isTight {given : Constraints}
    (h : given.isTight = true) (size : Size) :
    given.constrainKeepingRatio size = .ok given.min := if_pos h

end BoxLayout
