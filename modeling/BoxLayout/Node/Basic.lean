import BoxLayout.Align.Basic
import BoxLayout.Leaf
import BoxLayout.Stack.Placement
import BoxLayout.Table.Grid

/-!
# Layout trees

A `Node` is a leaf, or a container with its children. A node carries its visibility and the place
it was last given (`Frame`); a container also carries what measuring found out and placing needs:
the sizes of its children and, for stacks and tables, their totals.

`Node.induct` is the induction principle: a statement about all nodes follows if it passes from the
children of every container to the container.
-/

namespace BoxLayout

/-- What every node carries. -/
structure Frame where
  visibility : Visibility := .visible
  /-- The place last given to the node. -/
  bounds : Rect := default
  deriving DecidableEq, Repr, Inhabited

/-- A child of a stack. -/
structure Item (α : Type) where
  node : α
  /-- The weight by which the child shares in spare room. -/
  flex : Nat
  /-- The size it chose when last measured. -/
  measured : Size

/-- A layout tree. -/
inductive Node where
  | leaf (frame : Frame) (leaf : Leaf)
  /-- A child surrounded by insets. -/
  | padding (frame : Frame) (insets : Insets) (child : Node)
  /-- A child, last measured at `measured`, positioned in a box. -/
  | align (frame : Frame) (alignment : Alignment) (measured : Size) (child : Node)
  /-- Children side by side. -/
  | stack (frame : Frame) (style : StackStyle) (totals : StackTotals) (items : List (Item Node))
  /-- Children in the cells of a grid, row by row; a cell may be empty. -/
  | table (frame : Frame) (grid : Grid) (cells : List (Option Node))

namespace Node

instance : Inhabited Node := ⟨.leaf default .portrait⟩

def frame : Node → Frame
  | leaf frame _ | padding frame _ _ | align frame _ _ _ | stack frame _ _ _ | table frame _ _ =>
    frame

def setFrame (node : Node) (frame : Frame) : Node :=
  match node with
  | leaf _ content => leaf frame content
  | padding _ insets child => padding frame insets child
  | align _ alignment measured child => align frame alignment measured child
  | stack _ style totals items => stack frame style totals items
  | table _ grid cells => table frame grid cells

/-- The name by which traces and outlines call a node. -/
def name : Node → String
  | leaf _ content => content.name
  | padding .. => "Padding"
  | align .. => "Align"
  | stack _ style _ _ =>
    match style.axis with
    | .horizontal => "HBox"
    | .vertical => "VBox"
  | table .. => "TableLayout"

/-- The visibility that takes effect: a leaf's own, unless the node has been hidden or collapsed. -/
def visibility (node : Node) : Visibility :=
  match node.frame.visibility, node with
  | .visible, leaf _ content => content.visibility
  | visibility, _ => visibility

def setVisibility (node : Node) (visibility : Visibility) : Node :=
  node.setFrame { node.frame with visibility }

/-- The node has been taken out of the layout. -/
def isCollapsed (node : Node) : Bool := node.visibility == .collapsed

/-- The node takes part in a stack or a table. -/
def isLive (node : Node) : Bool := !node.isCollapsed

/-- The place last given to the node. -/
def bounds (node : Node) : Rect := node.frame.bounds

/-- The children in layout order; empty cells are left out. -/
def children : Node → List Node
  | leaf .. => []
  | padding _ _ child | align _ _ _ child => [child]
  | stack _ _ _ items => items.map (·.node)
  | table _ _ cells => cells.filterMap id

/-! ## Construction -/

/-- A node that has not been placed. -/
def ofLeaf (content : Leaf) : Node := leaf {} content

/-- A padding around `child`. -/
def pad (insets : Insets) (child : Node) : Node := padding {} insets child

/-- A box that aligns `child`. -/
def alignChild (alignment : Alignment) (child : Node) : Node := align {} alignment .zero child

/-- A stack of children with their weights. -/
def stackOf (style : StackStyle) (children : List (Node × Nat)) : Node :=
  stack {} style .zero (children.map fun (child, flex) => ⟨child, flex, .zero⟩)

/-- A table without dimensions. -/
def emptyTable : Node := table {} {} []

/-- A table with the given numbered cells, of which the last one counts if there are several for a
number. -/
def tableOf (grid : Grid) (contents : List (Nat × Node)) : Node :=
  table {} grid (contents.foldl (fun cells (i, child) => cells.setIfInBounds i (some child))
    (Array.replicate grid.size none)).toList

@[elab_as_elim, induction_eliminator]
theorem induct {motive : Node → Prop}
    (leaf : ∀ frame content, motive (leaf frame content))
    (padding : ∀ frame insets child, motive child → motive (padding frame insets child))
    (align : ∀ frame alignment measured child, motive child →
      motive (align frame alignment measured child))
    (stack : ∀ frame style totals items, (∀ item ∈ items, motive item.node) →
      motive (stack frame style totals items))
    (table : ∀ frame grid cells, (∀ child, some child ∈ cells → motive child) →
      motive (table frame grid cells))
    (node : Node) : motive node :=
  Node.rec (motive_1 := motive) (motive_2 := fun items => ∀ item ∈ items, motive item.node)
    (motive_3 := fun cells => ∀ child, some child ∈ cells → motive child)
    (motive_4 := fun item => motive item.node)
    (motive_5 := fun cell => ∀ child, cell = some child → motive child)
    leaf padding align stack table
    (fun _ h => nomatch h)
    (fun _ _ head tail item h => by
      cases h with
      | head => exact head
      | tail _ h => exact tail item h)
    (fun _ h => nomatch h)
    (fun _ _ head tail child h => by
      cases h with
      | head => exact head child rfl
      | tail _ h => exact tail child h)
    (fun _ _ _ ih => ih)
    (fun _ h => nomatch h)
    (fun _ ih _ h => by cases h; exact ih)
    node

@[simp] theorem frame_setFrame (node : Node) (frame : Frame) :
    (node.setFrame frame).frame = frame := by cases node <;> rfl

@[simp] theorem name_setFrame (node : Node) (frame : Frame) :
    (node.setFrame frame).name = node.name := by cases node <;> rfl

@[simp] theorem children_setFrame (node : Node) (frame : Frame) :
    (node.setFrame frame).children = node.children := by cases node <;> rfl

end Node

end BoxLayout
