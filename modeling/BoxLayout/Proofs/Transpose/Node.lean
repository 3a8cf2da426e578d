import BoxLayout.Proofs.Needs
import BoxLayout.Proofs.Transpose.Grid

/-!
# Trees with their axes exchanged

`Node.transpose` exchanges the axes everywhere in a tree: rows and columns, in stacks and in tables,
and the data of every node. A node that takes part still does (`isLive_transpose`). The trees that
the other modules speak of have no leaf that prefers one axis (`Node.IsPlain`), and the extents that
they need along an axis are what the exchanged trees need along the other one
(`minExtent_transpose`).
-/

namespace BoxLayout

namespace Node

mutual
/-- The tree with its axes exchanged. -/
def transpose : Node → Node
  | leaf frame content => leaf frame.transpose content.transpose
  | padding frame insets child => padding frame.transpose insets.transpose child.transpose
  | align frame alignment measured child =>
    align frame.transpose alignment.transpose measured.transpose child.transpose
  | stack frame style totals items =>
    stack frame.transpose style.transpose totals (transposeItems items)
  | table frame grid cells =>
    table frame.transpose grid.transpose (grid.turn (transposeCells cells))

/-- The same for the children of a stack. -/
def transposeItems : List (Item Node) → List (Item Node)
  | [] => []
  | ⟨node, flex, measured⟩ :: rest =>
    ⟨node.transpose, flex, measured.transpose⟩ :: transposeItems rest

/-- The same for the cells of a table, which stay where they are. -/
def transposeCells : List (Option Node) → List (Option Node)
  | [] => []
  | none :: rest => none :: transposeCells rest
  | some node :: rest => some node.transpose :: transposeCells rest
end

/-- A child of a stack with its axes exchanged. -/
def transposeItem (item : Item Node) : Item Node :=
  ⟨item.node.transpose, item.flex, item.measured.transpose⟩

theorem transposeItems_eq (items : List (Item Node)) :
    transposeItems items = items.map transposeItem := by
  induction items with
  | nil => rfl
  | cons item rest ih => rw [transposeItems, ih]; rfl

theorem transposeCells_eq (cells : List (Option Node)) :
    transposeCells cells = cells.map (Option.map transpose) := by
  induction cells with
  | nil => rfl
  | cons cell rest ih => cases cell <;> (rw [transposeCells, ih]; rfl)

variable {frame : Frame}

theorem transpose_stack {style : StackStyle} {totals : StackTotals} {items : List (Item Node)} :
    (stack frame style totals items).transpose =
      stack frame.transpose style.transpose totals (items.map transposeItem) := by
  rw [transpose, transposeItems_eq]

theorem transpose_table {grid : Grid} {cells : List (Option Node)} :
    (table frame grid cells).transpose =
      table frame.transpose grid.transpose ((grid.turn cells).map (Option.map transpose)) := by
  rw [transpose, transposeCells_eq, Grid.turn_map]

@[simp] theorem isLive_transpose (node : Node) : node.transpose.isLive = node.isLive := by
  cases node with
  | leaf frame content =>
    rw [transpose, isLive_leaf, isLive_leaf, Leaf.visibility_transpose]
    rfl
  | padding | align | stack | table => rw [transpose]; simp [Frame.transpose]

@[simp] theorem isLive_transposeItem (item : Item Node) :
    (transposeItem item).node.isLive = item.node.isLive := isLive_transpose item.node

theorem filter_map_transposeItem (items : List (Item Node)) :
    (items.map transposeItem).filter (·.node.isLive) =
      (items.filter (·.node.isLive)).map transposeItem := by
  have hsame : items.filter ((·.node.isLive) ∘ transposeItem) = items.filter (·.node.isLive) :=
    List.filter_congr fun item _ => isLive_transposeItem item
  rw [List.filter_map, hsame]

theorem liveCount_map_transposeItem (items : List (Item Node)) :
    liveCount (items.map transposeItem) = liveCount items := by
  rw [liveCount, List.countP_eq_length_filter, filter_map_transposeItem, List.length_map,
    ← List.countP_eq_length_filter]
  rfl

/-- A numbered cell with its axes exchanged. -/
def transposeCell (cell : Option Node × Nat) : Option Node × Nat :=
  (cell.1.map transpose, cell.2)

@[simp] theorem isLiveCell_transposeCell (cell : Option Node × Nat) :
    isLiveCell (transposeCell cell) = isLiveCell cell := by
  obtain ⟨found, i⟩ := cell
  cases found with
  | none => rfl
  | some node => exact isLive_transpose node

theorem content_transposeCell {cell : Option Node × Nat} (h : isLiveCell cell = true) :
    content (transposeCell cell) = (content cell).transpose := by
  obtain ⟨found, i⟩ := cell
  cases found with
  | none => cases h
  | some node => rfl

section Turn

variable {β γ : Type} {grid : Grid} {cells : List (Option Node)}

/-- What can be done with each transposed cell can be done with all of them. -/
theorem exists_turned [Inhabited β] (grid : Grid) (cells : List (Option Node))
    {f : Option Node × Nat → Except Fault β} {R : Option Node × Nat → β → Prop}
    (h : ∀ cell ∈ (grid.turn cells).zipIdx, isLiveCell cell = true →
      ∃ b, f (transposeCell cell) = .ok b ∧ R cell b) :
    ∃ g : Option Node × Nat → β,
      (∀ cell ∈ ((grid.turn cells).map (Option.map transpose)).zipIdx, isLiveCell cell = true →
        f cell = .ok (g cell)) ∧
      ∀ cell ∈ (grid.turn cells).zipIdx, isLiveCell cell = true →
        R cell (g (transposeCell cell)) := by
  refine ⟨fun cell => value (f cell), ?_, fun cell hc hlive => ?_⟩
  · rw [List.zipIdx_map, List.forall_mem_map]
    intro cell hc hlive
    obtain ⟨b, hb, -⟩ := h cell hc (isLiveCell_transposeCell cell ▸ hlive)
    exact hb.trans (congrArg Except.ok (congrArg value hb).symm)
  · obtain ⟨b, hb, hr⟩ := h cell hc hlive
    show R cell (value (f (transposeCell cell)))
    rw [hb]
    exact hr

/-- What is found out about each cell that takes part is found out about it wherever it lies. -/
theorem pick_turn (g : β → γ) (h : cells.length = grid.cellCount) {f : Option Node × Nat → β}
    {f' : Option Node × Nat → γ}
    (hf : ∀ cell ∈ (grid.turn cells).zipIdx, isLiveCell cell = true →
      f' (transposeCell cell) = g (f (cell.1, grid.source cell.2))) :
    pick isLiveCell f' ((grid.turn cells).map (Option.map transpose)).zipIdx =
      grid.turn ((pick isLiveCell f cells.zipIdx).map (Option.map g)) := by
  rw [map_pick]
  refine Grid.map_zipIdx_turn transpose h fun cell hc => ?_
  show (if isLiveCell (transposeCell cell) = true then some (f' (transposeCell cell)) else none) =
    if isLiveCell cell = true then some (g (f (cell.1, grid.source cell.2))) else none
  rw [isLiveCell_transposeCell]
  split
  · rename_i hlive
    rw [hf cell hc hlive]
  · rfl

/-- The cells of which those that take part have been replaced, in both trees. -/
theorem settled_turn (h : cells.length = grid.cellCount) {f f' : Option Node × Nat → Node}
    (hf : ∀ cell ∈ (grid.turn cells).zipIdx, isLiveCell cell = true →
      f' (transposeCell cell) = (f (cell.1, grid.source cell.2)).transpose) :
    (((grid.turn cells).map (Option.map transpose)).zipIdx.map fun cell =>
        if isLiveCell cell then some (f' cell) else cell.1) =
      (grid.turn (cells.zipIdx.map fun cell =>
        if isLiveCell cell then some (f cell) else cell.1)).map (Option.map transpose) := by
  rw [← Grid.turn_map transpose (cells.zipIdx.map _), List.map_map]
  refine Grid.map_zipIdx_turn transpose h fun cell hc => ?_
  show (if isLiveCell (transposeCell cell) = true then some (f' (transposeCell cell))
      else cell.1.map transpose) = Option.map transpose
        (if isLiveCell cell = true then some (f (cell.1, grid.source cell.2)) else cell.1)
  rw [isLiveCell_transposeCell]
  split
  · rename_i hlive
    rw [hf cell hc hlive]
    rfl
  · rfl

end Turn

end Node

/-! ## Least extents -/

/-- The leaf has a size and does not tell the axes apart. -/
def Leaf.IsPlain : Leaf → Prop
  | spacer _ | canvas .. => True
  | button .. | text .. | portrait => False

namespace Leaf

variable {leaf : Leaf}

theorem measure_transpose (h : leaf.IsPlain) {given : Constraints} {answer : Size}
    (hm : leaf.measure given = .ok answer) :
    leaf.transpose.measure given.transpose = .ok answer.transpose := by
  cases leaf with
  | spacer size => exact Constraints.constrain_transpose hm
  | canvas ideal visibility observer => exact Constraints.constrain_transpose hm
  | button | text | portrait => exact h.elim

theorem minExtent_transpose (h : leaf.IsPlain) (axis : Axis) (other : Int) :
    leaf.transpose.minExtent axis other = leaf.minExtent axis.flip other := by
  cases leaf with
  | spacer size => exact congrArg Except.ok (Size.along_transpose axis size)
  | canvas ideal visibility observer => exact congrArg Except.ok (Size.along_transpose axis ideal)
  | button | text | portrait => exact h.elim

end Leaf

namespace Node

/-- The node does not tell the axes apart: it is a container, or a leaf with a size. The cells of a
table are numbered. -/
def IsPlain : Node → Prop
  | leaf _ content => content.IsPlain
  | table frame grid cells => (table frame grid cells).IsNumbered
  | padding .. | align .. | stack .. => True

theorem itemExtents_transpose {axis : Axis} {other : Int} {items : List (Item Node)}
    (h : ∀ item ∈ items, item.node.isLive = true → ∀ least,
      item.node.minExtent axis.flip other = .ok least →
        item.node.transpose.minExtent axis other = .ok least) {extents : List Int}
    (he : itemExtents axis.flip other items = .ok extents) :
    itemExtents axis other (items.map transposeItem) = .ok extents := by
  obtain ⟨hfound, rfl⟩ := itemExtents_eq_ok he
  rw [itemExtents_eq, filter_map_transposeItem, List.mapM_map, mapM_eq_ok_iff]
  have hitem : ∀ item ∈ items.filter (·.node.isLive),
      item.node.transpose.minExtent axis other =
        .ok (value (item.node.minExtent axis.flip other)) := fun item hm =>
    have hi := List.mem_filter.1 hm
    h item hi.1 hi.2 _ (hfound item hi.1 hi.2)
  refine ⟨fun item hm => ?_, List.map_congr_left fun item hm => ?_⟩
  · rw [Function.comp, transposeItem, hitem item hm, value_ok]
  · rw [Function.comp, transposeItem, hitem item hm, value_ok]

theorem length_of_cellExtents {axis : Axis} {other : Int} {cells : List (Option Node)}
    {extents : List (Option Int)} (h : cellExtents axis other [] cells = .ok extents) :
    extents.length = cells.length := by
  rw [cellExtents_pick] at h
  obtain ⟨least, -, rfl⟩ := pickM_eq_ok_iff.1 h
  rw [length_pick, List.length_zipIdx]

theorem cellExtents_transpose {axis : Axis} {other : Int} {grid : Grid}
    {cells : List (Option Node)} (hl : cells.length = grid.cellCount)
    (h : ∀ child, some child ∈ cells → child.isLive = true → ∀ least,
      child.minExtent axis.flip other = .ok least →
        child.transpose.minExtent axis other = .ok least)
    {extents : List (Option Int)} (he : cellExtents axis.flip other [] cells = .ok extents) :
    cellExtents axis other [] ((grid.turn cells).map (Option.map transpose)) =
      .ok (grid.turn extents) := by
  rw [cellExtents_pick] at he ⊢
  obtain ⟨least, hfound, rfl⟩ := pickM_eq_ok_iff.1 he
  obtain ⟨least', hfound', hsame⟩ := exists_turned grid cells
    (f := fun cell => (content cell).minExtent axis other)
    (R := fun cell b => b = least (cell.1, grid.source cell.2)) fun cell hc hlive => by
      obtain ⟨-, hmem⟩ := Grid.mem_zipIdx_turn hl hc
      obtain ⟨-, hi, hchild⟩ := exists_of_isLiveCell hmem hlive
      refine ⟨_, ?_, rfl⟩
      rw [content_transposeCell hlive]
      exact h _ (List.mem_of_getElem? hi) hchild _ (hfound _ hmem hlive)
  refine pickM_eq_ok_iff.2 ⟨least', hfound', ?_⟩
  rw [pick_turn id hl hsame, Option.map_id, List.map_id]

/-- A tree needs along an axis what the exchanged tree needs along the other one. -/
theorem minExtent_transpose {root : Node} (h : root.AllReached IsPlain) :
    ∀ axis other least, root.minExtent axis.flip other = .ok least →
      root.transpose.minExtent axis other = .ok least := by
  refine h.induct (motive := fun node => ∀ axis other least,
    node.minExtent axis.flip other = .ok least →
      node.transpose.minExtent axis other = .ok least) fun node plain ih axis other least hm => ?_
  cases node with
  | leaf frame content => exact (Leaf.minExtent_transpose plain axis other).trans hm
  | padding frame insets child =>
    rw [minExtent] at hm
    obtain ⟨inner, hi, hm⟩ := bind_eq_ok_iff.1 hm
    obtain ⟨found, hf, hm⟩ := bind_eq_ok_iff.1 hm
    obtain ⟨amount, ha, hm⟩ := bind_eq_ok_iff.1 hm
    rw [transpose, minExtent, Insets.inner_transpose, Insets.total_transpose]
    exact bind_eq_ok_iff.2 ⟨inner, hi, bind_eq_ok_iff.2
      ⟨found, ih child (by simp [visited]) axis inner found hf, bind_eq_ok_iff.2 ⟨amount, ha, hm⟩⟩⟩
  | align frame alignment measured child =>
    rw [minExtent] at hm
    obtain ⟨found, hf, hm⟩ := bind_eq_ok_iff.1 hm
    rw [transpose, minExtent, Alignment.factor_transpose]
    exact bind_eq_ok_iff.2 ⟨found, ih child (by simp [visited]) axis other found hf, hm⟩
  | stack frame style totals items =>
    have hitems {other : Int} {extents : List Int}
        (he : itemExtents axis.flip other items = .ok extents) :
        itemExtents axis other (items.map transposeItem) = .ok extents :=
      itemExtents_transpose (fun item hi hl least hf =>
        ih item.node (mem_visited_stack.2 ⟨item, hi, hl, rfl⟩) axis other least hf) he
    have haxis : axis = style.axis.flip ↔ axis.flip = style.axis :=
      ⟨fun ha => by rw [ha, Axis.flip_flip], fun ha => by rw [← ha, Axis.flip_flip]⟩
    rw [transpose_stack, minExtent, liveCount_map_transposeItem, StackStyle.axis_transpose]
    rw [minExtent] at hm
    by_cases ha : axis.flip = style.axis
    · rw [if_pos ha] at hm
      obtain ⟨extents, he, hm⟩ := bind_eq_ok_iff.1 hm
      rw [if_pos (haxis.2 ha)]
      exact bind_eq_ok_iff.2 ⟨extents, hitems he, hm⟩
    · rw [if_neg ha] at hm
      obtain ⟨main, hmain, hm⟩ := bind_eq_ok_iff.1 hm
      obtain ⟨extents, he, hm⟩ := bind_eq_ok_iff.1 hm
      rw [if_neg (mt haxis.1 ha)]
      exact bind_eq_ok_iff.2 ⟨main, hmain, bind_eq_ok_iff.2 ⟨extents, hitems he, hm⟩⟩
  | table frame grid cells =>
    rw [minExtent] at hm
    obtain ⟨hsize, hm⟩ := ite_error_eq_ok_iff.1 hm
    have hl : cells.length = grid.cellCount := plain
    obtain ⟨share, hs, hm⟩ := bind_eq_ok_iff.1 hm
    obtain ⟨extents, he, hm⟩ := bind_eq_ok_iff.1 hm
    cases hm
    rw [transpose_table, minExtent, Grid.isOversized_transpose, if_neg hsize, Grid.share_transpose]
    refine bind_eq_ok_iff.2 ⟨share, hs, bind_eq_ok_iff.2 ⟨grid.turn extents, ?_, ?_⟩⟩
    · exact cellExtents_transpose hl (fun child hc hlive least hf =>
        ih child (mem_visited_table.2 ⟨hc, hlive⟩) axis share least hf) he
    · rw [Grid.minExtent_transpose axis ((length_of_cellExtents he).trans hl)]
      rfl

end Node

end BoxLayout
