import BoxLayout.Node.Basic
import BoxLayout.Outline

/-!
# The outline of a tree

`Node.outline` forgets what an outline does not show. `outline_eq` says that its children are those
of the node.
-/

namespace BoxLayout

namespace Node

/-- What the outline of a tree tells about its root. -/
def outlineLabel (node : Node) : OutlineLabel := ⟨node.name, node.bounds, node.isCollapsed⟩

mutual
/-- The outline of a tree. -/
def outline (node : Node) : Outline :=
  .mk node.outlineLabel <|
    match node with
    | leaf .. => []
    | padding _ _ child | align _ _ _ child => [child.outline]
    | stack _ _ _ items => outlineItems items
    | table _ _ cells => outlineCells cells

/-- The outlines of the children of a stack. -/
def outlineItems : List (Item Node) → List Outline
  | [] => []
  | ⟨node, _, _⟩ :: rest => node.outline :: outlineItems rest

/-- The outlines of the occupied cells of a table. -/
def outlineCells : List (Option Node) → List Outline
  | [] => []
  | none :: rest => outlineCells rest
  | some node :: rest => node.outline :: outlineCells rest
end

theorem outlineItems_eq (items : List (Item Node)) :
    outlineItems items = items.map (·.node.outline) := by
  induction items with
  | nil => rfl
  | cons item rest ih => simp [outlineItems, ih]

theorem outlineCells_eq (cells : List (Option Node)) :
    outlineCells cells = (cells.filterMap id).map outline := by
  induction cells with
  | nil => rfl
  | cons cell rest ih => cases cell <;> simp [outlineCells, ih]

theorem outline_eq (node : Node) :
    node.outline = .mk node.outlineLabel (node.children.map outline) := by
  cases node <;> simp [outline, children, outlineItems_eq, outlineCells_eq]

end Node

end BoxLayout
