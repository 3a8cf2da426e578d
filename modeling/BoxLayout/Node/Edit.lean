import BoxLayout.Node.Basic

/-!
# Changing trees

The operations of a host on single nodes: adding, removing and replacing the children of a stack,
setting the dimensions and the cells of a table. A node of another kind is no such node.

* `setCell_tableOf`: filling a cell of a new table is the same as building it with that cell.

What a table holds after any number of these operations is stated in `BoxLayout.Proofs.Store`.
-/

namespace BoxLayout

namespace Node

/-- Appends a child with the given weight to a stack. -/
def push (node child : Node) (flex : Nat) : Except Fault Node :=
  match node with
  | stack frame style totals items =>
    .ok (stack frame style totals (items ++ [⟨child, flex, .zero⟩]))
  | _ => .error .noSuchNode

/-- Takes a child out of a stack; the first result is that child. -/
def remove (node : Node) (index : Nat) : Except Fault (Node × Node) :=
  match node with
  | stack frame style totals items =>
    match items[index]? with
    | some item => .ok (item.node, stack frame style totals (items.eraseIdx index))
    | none => .error .indexOutOfRange
  | _ => .error .noSuchNode

/-- Changes a child of a stack. -/
def modifyItem (node : Node) (index : Nat) (change : Item Node → Item Node) : Except Fault Node :=
  match node with
  | stack frame style totals items =>
    if index < items.length then .ok (stack frame style totals (items.modify index change))
    else .error .noSuchNode
  | _ => .error .noSuchNode

/-- Changes the weight of a child of a stack. -/
def setFlex (node : Node) (index flex : Nat) : Except Fault Node :=
  node.modifyItem index fun item => { item with flex }

/-- Replaces a child of a stack, which keeps its weight. -/
def replace (node : Node) (index : Nat) (child : Node) : Except Fault Node :=
  node.modifyItem index fun item => { item with node := child }

/-- Changes how a stack lays out its children, as far as given. -/
def restyle (node : Node) (justify : Option Justify) (align : Option CrossAlign) :
    Except Fault Node :=
  match node with
  | stack frame style totals items =>
    let style := { style with
      justify := justify.getD style.justify
      align := align.getD style.align }
    .ok (stack frame style totals items)
  | _ => .error .noSuchNode

/-- Sets the dimensions of a table, which is possible once, and leaves its cells to `makeCells`. -/
def setDimensions (node : Node) (rows cols : Nat) : Except Fault Node :=
  match node with
  | table frame grid cells => do return table frame (← grid.setSize rows cols) cells
  | _ => .error .noSuchNode

/-- Gives a table an empty cell for every row and column. -/
def makeCells (node : Node) : Except Fault Node :=
  match node with
  | table frame grid _ => do
    grid.reserve
    return table frame grid (List.replicate grid.size none)
  | _ => .error .noSuchNode

/-- Sets the dimensions of a table and makes its cells. -/
def setTableSize (node : Node) (rows cols : Nat) : Except Fault Node := do
  (← node.setDimensions rows cols).makeCells

/-- Fills a cell of a table. -/
def setCell (node : Node) (row col : Nat) (child : Node) : Except Fault Node :=
  match node with
  | table frame grid cells => do
    let i ← grid.index row col
    if i < cells.length then return table frame grid (cells.set i (some child))
    else .error .indexOutOfRange
  | _ => .error .noSuchNode

/-- What a cell of a table holds. -/
def cell (node : Node) (row col : Nat) : Except Fault (Option Node) :=
  match node with
  | table _ grid cells => do
    let i ← grid.index row col
    match cells[i]? with
    | some content => return content
    | none => .error .indexOutOfRange
  | _ => .error .noSuchNode

/-- The number of children of a stack. -/
def stackLength? : Node → Option Nat
  | stack _ _ _ items => some items.length
  | leaf .. | padding .. | align .. | table .. => none

/-- The number of occupied cells of a table. -/
def occupied? : Node → Option Nat
  | table _ _ cells => some (cells.countP Option.isSome)
  | leaf .. | padding .. | align .. | stack .. => none

/-- The dimensions of a table. -/
def grid? : Node → Option Grid
  | table _ grid _ => some grid
  | leaf .. | padding .. | align .. | stack .. => none

/-! ## Tables -/

theorem length_foldl_setIfInBounds (contents : List (Nat × Node)) (cells : Array (Option Node)) :
    (contents.foldl (fun cells (i, child) => cells.setIfInBounds i (some child)) cells).size =
      cells.size := by
  induction contents generalizing cells with
  | nil => rfl
  | cons content rest ih => rw [List.foldl_cons, ih, Array.size_setIfInBounds]

theorem setCell_tableOf {grid : Grid} {contents : List (Nat × Node)} {row col i : Nat}
    (h : grid.index row col = .ok i) (child : Node) :
    (tableOf grid contents).setCell row col child =
      .ok (tableOf grid (contents ++ [(i, child)])) := by
  have hi := Grid.index_lt_size h
  simp only [tableOf, setCell, h]
  show (if i < _ then _ else _) = _
  rw [if_pos (by simpa [length_foldl_setIfInBounds] using hi), List.foldl_append]
  simp only [List.foldl_cons, List.foldl_nil, Array.toList_setIfInBounds]
  rfl

end Node

end BoxLayout
