import BoxLayout.Node.Basic

/-!
# Paths

A path leads from the root of a tree to a node, one hop per level. `Node.child` follows a hop,
`Node.setChild` replaces what is there, and `Node.find` and `Node.modify` do so along a path.

* `setChild_child`: putting a child back where it was changes nothing.
* `child_setChild`: what was put there is found there.
-/

namespace BoxLayout

/-- The way from a node to a child. -/
inductive Hop where
  /-- The child of a stack with this index; the child of a padding or an alignment has index 0. -/
  | child (index : Nat)
  /-- The cell of a table. -/
  | cell (row col : Nat)
  deriving DecidableEq, Repr

/-- The way from the root of a tree to a node. -/
abbrev Path := List Hop

namespace Node

/-- The child at a hop. -/
def child : Node → Hop → Except Fault Node
  | padding _ _ node, .child 0 | align _ _ _ node, .child 0 => .ok node
  | stack _ _ _ items, .child index =>
    match items[index]? with
    | some item => .ok item.node
    | none => .error .noSuchNode
  | table _ grid cells, .cell row col =>
    match grid.index row col with
    | .error fault => .error fault
    | .ok i =>
      match cells[i]? with
      | some (some node) => .ok node
      | some none => .error .noSuchNode
      | none => .error .indexOutOfRange
  | _, _ => .error .noSuchNode

/-- The node with another child at a hop. -/
def setChild (node : Node) (hop : Hop) (new : Node) : Node :=
  match node, hop with
  | padding frame insets _, .child _ => padding frame insets new
  | align frame alignment measured _, .child _ => align frame alignment measured new
  | stack frame style totals items, .child index =>
    stack frame style totals (items.modify index fun item => { item with node := new })
  | table frame grid cells, .cell row col =>
    table frame grid (cells.set (row * grid.cols + col) (some new))
  | node, _ => node

/-- The node at the end of a path. -/
def find (node : Node) : Path → Except Fault Node
  | [] => .ok node
  | hop :: path => do (← node.child hop).find path

/-- Replaces the node at the end of a path by what `change` makes of it. -/
def modify {α : Type} (change : Node → Except Fault (Node × α)) (node : Node) :
    Path → Except Fault (Node × α)
  | [] => change node
  | hop :: path => do
    let (new, result) ← (← node.child hop).modify change path
    return (node.setChild hop new, result)

theorem setChild_child {node old : Node} {hop : Hop} (h : node.child hop = .ok old) :
    node.setChild hop old = node := by
  match node, hop with
  | padding _ _ _, .child 0 | align _ _ _ _, .child 0 => cases h; rfl
  | padding _ _ _, .child (_ + 1) | align _ _ _ _, .child (_ + 1) => cases h
  | padding _ _ _, .cell _ _ | align _ _ _ _, .cell _ _ => cases h
  | leaf _ _, _ | stack _ _ _ _, .cell _ _ | table _ _ _, .child _ => cases h
  | stack _ _ _ items, .child index =>
    simp only [child] at h
    split at h
    · rename_i item hi
      cases h
      have : items.modify index (fun i => { i with node := item.node }) = items := by
        apply List.ext_getElem? fun j => ?_
        rw [List.getElem?_modify]
        split
        · rename_i hj; subst hj; rw [hi]; rfl
        · simp
      simp only [setChild, this]
    · cases h
  | table _ grid cells, .cell row col =>
    simp only [child] at h
    split at h
    · cases h
    · rename_i i hi
      split at h
      · rename_i node hc
        cases h
        obtain ⟨_, _, rfl⟩ := Grid.index_eq_ok_iff.1 hi
        obtain ⟨hlt, hget⟩ := List.getElem?_eq_some_iff.1 hc
        simp only [setChild, ← hget, List.set_getElem_self]
      · cases h
      · cases h

theorem child_setChild {node old : Node} {hop : Hop} (h : node.child hop = .ok old) (new : Node) :
    (node.setChild hop new).child hop = .ok new := by
  match node, hop with
  | padding _ _ _, .child 0 | align _ _ _ _, .child 0 => rfl
  | padding _ _ _, .child (_ + 1) | align _ _ _ _, .child (_ + 1) => cases h
  | padding _ _ _, .cell _ _ | align _ _ _ _, .cell _ _ => cases h
  | leaf _ _, _ | stack _ _ _ _, .cell _ _ | table _ _ _, .child _ => cases h
  | stack _ _ _ items, .child index =>
    simp only [child] at h
    split at h
    · rename_i item hi
      simp [setChild, child, hi]
    · cases h
  | table _ grid cells, .cell row col =>
    simp only [child] at h
    split at h
    · cases h
    · rename_i i hi
      split at h
      · rename_i node hc
        obtain ⟨_, _, rfl⟩ := Grid.index_eq_ok_iff.1 hi
        obtain ⟨hlt, _⟩ := List.getElem?_eq_some_iff.1 hc
        simp [setChild, child, hi, hlt]
      · cases h
      · cases h

end Node

end BoxLayout
