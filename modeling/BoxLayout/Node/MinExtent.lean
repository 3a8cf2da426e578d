import BoxLayout.Node.Basic
import BoxLayout.Stack.Sharing

/-!
# Least extents

`Node.minExtent` is the least extent that a tree needs on one axis when its extent on the other is
known, or unbounded. It only reads the tree: sizes found by measuring play no part.

The equations `itemExtents_eq` and `cellExtents_eq` give the least extents of a container's children
without recursion.
-/

namespace BoxLayout

namespace Node

/-- How many children of a stack take part. -/
def liveCount (items : List (Item Node)) : Nat := items.countP (·.node.isLive)

mutual
/-- The least extent of a node on `axis` if it has `other` on the other axis. -/
def minExtent (node : Node) (axis : Axis) (other : Int) : Except Fault Int :=
  match node with
  | leaf _ content => content.minExtent axis other
  | padding _ insets child => do
    let least ← child.minExtent axis (← insets.inner axis.flip other)
    return Extent.saturatingAdd least (← insets.total axis)
  | align _ alignment _ child => return (alignment.factor axis).apply (← child.minExtent axis other)
  | stack _ style _ items =>
    if axis = style.axis then return style.minMain (← itemExtents axis other items)
    else do
      let main ← style.slice other (liveCount items)
      return Extent.largest (← itemExtents axis main items)
  | table _ grid cells =>
    if grid.isOversized then .error .indexOutOfRange
    else do
      let share ← grid.share axis.flip other
      return grid.minExtent axis (← cellExtents axis share [] cells)

/-- The least extents of the children of a stack that take part. -/
def itemExtents (axis : Axis) (other : Int) : List (Item Node) → Except Fault (List Int)
  | [] => return []
  | ⟨node, _, _⟩ :: rest =>
    if node.isLive then return (← node.minExtent axis other) :: (← itemExtents axis other rest)
    else itemExtents axis other rest

/-- The least extents of the cells of a table, none for a cell that takes no part. Those of the
cells before are `done`, the last one first. -/
def cellExtents (axis : Axis) (other : Int) (done : List (Option Int)) :
    List (Option Node) → Except Fault (List (Option Int))
  | [] => return done.reverse
  | none :: rest => cellExtents axis other (none :: done) rest
  | some node :: rest =>
    if node.isLive then do
      let least ← node.minExtent axis other
      cellExtents axis other (some least :: done) rest
    else cellExtents axis other (none :: done) rest
end

theorem itemExtents_eq (axis : Axis) (other : Int) (items : List (Item Node)) :
    itemExtents axis other items =
      (items.filter (·.node.isLive)).mapM fun item => item.node.minExtent axis other := by
  induction items with
  | nil => rfl
  | cons item rest ih =>
    rw [itemExtents, ih, List.filter_cons]
    split
    · rw [List.mapM_cons]
    · rfl

/-- The least extent of a cell, none if it takes no part. -/
def cellExtent (axis : Axis) (other : Int) : Option Node → Except Fault (Option Int)
  | none => .ok none
  | some node => if node.isLive then some <$> node.minExtent axis other else .ok none

theorem cellExtents_eq_append (axis : Axis) (other : Int) (done : List (Option Int))
    (cells : List (Option Node)) :
    cellExtents axis other done cells =
      (done.reverse ++ ·) <$> cells.mapM (cellExtent axis other) := by
  induction cells generalizing done with
  | nil => simp [cellExtents]
  | cons cell rest ih =>
    rw [List.mapM_cons]
    cases cell with
    | none => rw [cellExtents, ih, map_reverse_cons, cellExtent]; rfl
    | some node =>
      rw [cellExtents, cellExtent]
      split
      · cases node.minExtent axis other with
        | error _ => rfl
        | ok least => exact (ih _).trans (map_reverse_cons ..)
      · rw [ih, map_reverse_cons]; rfl

theorem cellExtents_eq (axis : Axis) (other : Int) (cells : List (Option Node)) :
    cellExtents axis other [] cells = cells.mapM (cellExtent axis other) := by
  rw [cellExtents_eq_append]
  simp

end Node

end BoxLayout
