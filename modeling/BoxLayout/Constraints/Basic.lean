import BoxLayout.Size

/-!
# Constraints

What a parent asks of a child: limits on each axis within which the child chooses its size.
`Limits` is the part for one axis and `Constraints` the pair. Limits are *normalized* if they run
upwards from an extent that is not negative, *tight* if they leave one choice, and *bounded* if
they have a finite upper end.

The operations that derive constraints for a child from those of its parent are in
`BoxLayout.Constraints.Derive`.
-/

namespace BoxLayout

/-- The least and the greatest extent allowed on one axis. -/
structure Limits where
  lo : Int
  hi : Int
  deriving DecidableEq, Repr

namespace Limits

/-- Nothing but `v`. -/
def exactly (v : Int) : Limits := ⟨v, v⟩

/-- Anything up to `v`. -/
def upTo (v : Int) : Limits := ⟨0, v⟩

/-- Anything at all. -/
def free : Limits := upTo Extent.inf

/-- There is a finite upper end. -/
def isBounded (limits : Limits) : Bool := limits.hi != Extent.inf

/-- Both ends agree. -/
def isTight (limits : Limits) : Bool := limits.lo == limits.hi

/-- The lower end is not negative and the upper end is an extent not below it. -/
def isNormalized (limits : Limits) : Bool :=
  0 ≤ limits.lo && limits.lo ≤ limits.hi && limits.hi ≤ Extent.inf

/-- `v` lies within the limits. -/
def contains (limits : Limits) (v : Int) : Bool := limits.lo ≤ v && v ≤ limits.hi

/-- Drops the lower end to zero. -/
def loosen (limits : Limits) : Limits := upTo limits.hi

theorem isNormalized_iff {limits : Limits} :
    limits.isNormalized = true ↔
      0 ≤ limits.lo ∧ limits.lo ≤ limits.hi ∧ limits.hi ≤ Extent.inf := by
  simp [isNormalized, and_assoc]

end Limits

/-- The limits on both axes. -/
structure Constraints where
  width : Limits
  height : Limits
  deriving DecidableEq, Repr

namespace Constraints

/-- Anything from `min` up to `max`. -/
def between (min max : Size) : Constraints := ⟨⟨min.width, max.width⟩, ⟨min.height, max.height⟩⟩

/-- Nothing but `size`. -/
def exactly (size : Size) : Constraints := between size size

/-- Anything up to `max`. -/
def upTo (max : Size) : Constraints := between .zero max

/-- Any size at all. -/
def free : Constraints := upTo .inf

instance : Inhabited Constraints := ⟨free⟩

/-- The limits on one axis. -/
def along (given : Constraints) : Axis → Limits
  | .horizontal => given.width
  | .vertical => given.height

/-- Replaces the limits on one axis. -/
def setAlong (given : Constraints) (axis : Axis) (limits : Limits) : Constraints :=
  match axis with
  | .horizontal => { given with width := limits }
  | .vertical => { given with height := limits }

/-- The least size. -/
def min (given : Constraints) : Size := ⟨given.width.lo, given.height.lo⟩

/-- The greatest size. -/
def max (given : Constraints) : Size := ⟨given.width.hi, given.height.hi⟩

def isBounded (given : Constraints) : Bool := given.width.isBounded && given.height.isBounded

def isTight (given : Constraints) : Bool := given.width.isTight && given.height.isTight

/-- The greatest size is the empty one. -/
def isZero (given : Constraints) : Bool := given.max == .zero

def isNormalized (given : Constraints) : Bool :=
  given.width.isNormalized && given.height.isNormalized

/-- `size` is finite and within the limits. -/
def isSatisfiedBy (given : Constraints) (size : Size) : Bool :=
  size.isFinite && given.width.contains size.width && given.height.contains size.height

/-- Least and greatest size, as in `[0x0 .. 200xinf]`. -/
def text (given : Constraints) : String := "[" ++ given.min.text ++ " .. " ++ given.max.text ++ "]"

@[simp] theorem along_setAlong (given : Constraints) (axis : Axis) (limits : Limits) :
    (given.setAlong axis limits).along axis = limits := by cases axis <;> rfl

@[simp] theorem along_flip_setAlong (given : Constraints) (axis : Axis) (limits : Limits) :
    (given.setAlong axis limits).along axis.flip = given.along axis.flip := by cases axis <;> rfl

theorem isNormalized_iff {given : Constraints} :
    given.isNormalized = true ↔ ∀ axis, (given.along axis).isNormalized = true := by
  simp only [isNormalized, Bool.and_eq_true]
  exact ⟨fun h axis => by cases axis <;> simp [along, h], fun h => ⟨h .horizontal, h .vertical⟩⟩

end Constraints

end BoxLayout
