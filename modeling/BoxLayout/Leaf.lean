import BoxLayout.Constraints.Derive
import BoxLayout.Rect
import BoxLayout.Style
import BoxLayout.Text.Metrics

/-!
# Leaves

What can stand at the end of a layout tree. A leaf chooses its size from the constraints and the
content it holds, and keeps its place only if it draws something there itself.
-/

namespace BoxLayout

/-- The content of a node without children. -/
inductive Leaf where
  /-- Empty room of a fixed size. -/
  | spacer (size : Size)
  /-- A surface of a fixed size, drawn by the host, who may ask to be told its place. -/
  | canvas (ideal : Size) (visibility : Visibility) (observer : Option String)
  /-- A push button with a label on one line. -/
  | button (label : String) (visibility : Visibility) (bounds : Rect)
  /-- A text that is wrapped to the width it is given. -/
  | text (content : String) (visibility : Visibility) (bounds : Rect)
  /-- A picture half as wide as it is high. -/
  | portrait
  deriving DecidableEq, Repr

namespace Leaf

/-- The name by which traces and outlines call a leaf. -/
def name : Leaf → String
  | spacer _ => "Spacer"
  | canvas .. => "Canvas"
  | button .. => "Button"
  | text .. => "Text"
  | portrait => "Portrait"

/-- The visibility that a leaf has by itself. -/
def visibility : Leaf → Visibility
  | canvas _ visibility _ | button _ visibility _ | text _ visibility _ => visibility
  | spacer _ | portrait => .visible

/-- The room between the edge of a button and its label. -/
def buttonInsets : Insets := .symmetric 8 4

/-- The size of a button around its label. -/
def buttonSize (label : String) : Except Fault Size := do
  let line ← Text.lineSize label
  return ⟨← Extent.add line.width (← buttonInsets.total .horizontal),
    ← Extent.add line.height (← buttonInsets.total .vertical)⟩

/-- The height of a portrait that may choose it. -/
def portraitHeight : Int := 10

/-- The size that a leaf chooses under constraints. -/
def measure (leaf : Leaf) (given : Constraints) : Except Fault Size :=
  match leaf with
  | spacer size => given.constrain size
  | canvas ideal _ _ => given.constrain ideal
  | button label _ _ => do given.constrain (← buttonSize label)
  | text content _ _ => do given.constrain (← Text.measure content given.width.hi)
  | portrait =>
    let height := if given.height.isTight then given.height.lo else portraitHeight
    given.constrain ⟨height.tdiv 2, height⟩

/-- The least extent that a leaf needs on `axis` if it has `other` on the other axis. -/
def minExtent (leaf : Leaf) (axis : Axis) (other : Int) : Except Fault Int :=
  match leaf with
  | spacer size => return size.along axis
  | canvas ideal _ _ => return ideal.along axis
  | button label _ _ => return (← buttonSize label).along axis
  | text content _ _ =>
    match axis with
    | .horizontal => Text.minWidth content
    | .vertical => return (← Text.measure content other).height
  | portrait =>
    match axis with
    | .horizontal => return Extent.infOr other (other.tdiv 2)
    | .vertical => return portraitHeight

/-- The leaf once it has been placed. -/
def place (leaf : Leaf) (bounds : Rect) : Leaf :=
  match leaf with
  | button label visibility _ => button label visibility bounds
  | text content visibility _ => text content visibility bounds
  | spacer _ | canvas .. | portrait => leaf

/-- Who is told when the leaf is placed. -/
def observer? : Leaf → Option String
  | canvas _ _ observer => observer
  | spacer _ | button .. | text .. | portrait => none

/-- The place a leaf keeps, if it keeps one. -/
def bounds? : Leaf → Option Rect
  | button _ _ bounds | text _ _ bounds => some bounds
  | spacer _ | canvas .. | portrait => none

/-- Where a button draws its label. -/
def labelRect? : Leaf → Option (Except Fault Rect)
  | button _ _ bounds => some (bounds.inset buttonInsets)
  | spacer _ | canvas .. | text .. | portrait => none

/-- Replaces the label of a button or the content of a text. -/
def setText (leaf : Leaf) (content : String) : Leaf :=
  match leaf with
  | button _ visibility bounds => button content visibility bounds
  | text _ visibility bounds => text content visibility bounds
  | spacer _ | canvas .. | portrait => leaf

@[simp] theorem name_place (leaf : Leaf) (bounds : Rect) :
    (leaf.place bounds).name = leaf.name := by cases leaf <;> rfl

@[simp] theorem visibility_place (leaf : Leaf) (bounds : Rect) :
    (leaf.place bounds).visibility = leaf.visibility := by cases leaf <;> rfl

@[simp] theorem measure_place (leaf : Leaf) (bounds : Rect) (given : Constraints) :
    (leaf.place bounds).measure given = leaf.measure given := by cases leaf <;> rfl

@[simp] theorem minExtent_place (leaf : Leaf) (bounds : Rect) (axis : Axis) (other : Int) :
    (leaf.place bounds).minExtent axis other = leaf.minExtent axis other := by cases leaf <;> rfl

@[simp] theorem place_place (leaf : Leaf) (first second : Rect) :
    (leaf.place first).place second = leaf.place second := by cases leaf <;> rfl

end Leaf

end BoxLayout
