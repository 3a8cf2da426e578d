import BoxLayout.Rect

/-!
# Outlines

An outline shows a tree as text: one line per node in pre-order, indented by twice its depth, with
the node's name, its place, and a remark if it is collapsed. `Outline` is what is shown and
`Outline.text` how.
-/

namespace BoxLayout

/-- What an outline tells about one node. -/
structure OutlineLabel where
  name : String
  bounds : Rect
  collapsed : Bool
  deriving DecidableEq, Repr

/-- A labelled tree. -/
inductive Outline where
  | mk (label : OutlineLabel) (children : List Outline)

/-- The indentation of what lies at `depth`. -/
def indentation (depth : Nat) : String := String.ofList (List.replicate (depth * 2) ' ')

/-- The line for a node at `depth`. -/
def OutlineLabel.line (label : OutlineLabel) (depth : Nat) : String :=
  indentation depth ++ label.name ++ " " ++ label.bounds.text ++
    (if label.collapsed then " collapsed" else "") ++ "\n"

namespace Outline

mutual
/-- The labels of a tree at `depth` in pre-order, each with its own depth. -/
def entries (depth : Nat) : Outline → List (Nat × OutlineLabel)
  | mk label children => (depth, label) :: entriesAll (depth + 1) children
/-- The labels of trees that stand at `depth`. -/
def entriesAll (depth : Nat) : List Outline → List (Nat × OutlineLabel)
  | [] => []
  | outline :: rest => outline.entries depth ++ entriesAll depth rest
end

/-- The lines of an outline. -/
def text (outline : Outline) : String :=
  String.join ((outline.entries 0).map fun (depth, label) => label.line depth)

@[elab_as_elim, induction_eliminator]
theorem induct {motive : Outline → Prop}
    (mk : ∀ label children, (∀ child ∈ children, motive child) → motive (.mk label children))
    (outline : Outline) : motive outline :=
  Outline.rec (motive_1 := motive) (motive_2 := fun children => ∀ child ∈ children, motive child)
    mk
    (fun _ h => nomatch h)
    (fun _ _ head tail child h => by
      cases h with
      | head => exact head
      | tail _ h => exact tail child h)
    outline

theorem entriesAll_eq (depth : Nat) (outlines : List Outline) :
    entriesAll depth outlines = outlines.flatMap (entries depth) := by
  induction outlines with
  | nil => rfl
  | cons outline rest ih => simp [entriesAll, ih]

end Outline

end BoxLayout
