import BoxLayout.Axis

/-!
# Style

The choices a host makes for its nodes: whether a node is shown, and how a stack lays out its
children along its axis and across it.
-/

namespace BoxLayout

/-- Whether a node is shown and whether it takes room. -/
inductive Visibility where
  | visible
  /-- Takes room but is not shown. -/
  | hidden
  /-- Takes no part in sizing or placement. -/
  | collapsed
  deriving DecidableEq, Repr, Inhabited

/-- What a stack does with the room its children leave along its axis. -/
inductive Justify where
  | start
  | center
  | stop
  /-- The room goes between the children. -/
  | spaceBetween
  /-- The room goes before the first child and between the children. -/
  | spaceAround
  /-- Every child gets an equal slice; weights are ignored. -/
  | homogeneous
  deriving DecidableEq, Repr, Inhabited

/-- Where a stack puts its children across its axis. -/
inductive CrossAlign where
  | start
  | center
  | stop
  /-- The child fills the stack. -/
  | stretch
  deriving DecidableEq, Repr, Inhabited

/-- The style of a stack that runs along `axis`. -/
structure StackStyle where
  axis : Axis
  justify : Justify := .start
  align : CrossAlign := .start
  deriving DecidableEq, Repr

namespace StackStyle

/-- Every child gets an equal slice. -/
def isHomogeneous (style : StackStyle) : Bool := style.justify == .homogeneous

end StackStyle

end BoxLayout
