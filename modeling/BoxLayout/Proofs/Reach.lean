import BoxLayout.Node.Basic

/-!
# Reached nodes

A layout pass visits every child of a container but the collapsed children of stacks and tables
(`Node.visited`), and so reaches some of the nodes below a root (`Node.Reaches`). Conditions on
trees are conditions on single nodes that hold of every node reached (`Node.AllReached`).

* `visited_induct`: induction along the children that are visited.
* `allReached_iff`: a condition on the nodes reached is one on the root and on what its visited
  children reach.
-/

namespace BoxLayout

namespace Node

/-- The children that a layout pass visits. -/
def visited : Node → List Node
  | leaf .. => []
  | padding _ _ child | align _ _ _ child => [child]
  | stack _ _ _ items => (items.filter (·.node.isLive)).map (·.node)
  | table _ _ cells => (cells.filterMap id).filter isLive

section Live

variable {frame : Frame}

theorem isLive_leaf {content : Leaf} : (leaf frame content).isLive =
    ((if frame.visibility = .visible then content.visibility else frame.visibility) !=
      .collapsed) := by
  obtain ⟨visibility, bounds⟩ := frame
  cases visibility <;> rfl

@[simp] theorem isLive_padding {insets : Insets} {child : Node} :
    (padding frame insets child).isLive = (frame.visibility != .collapsed) := by
  obtain ⟨visibility, bounds⟩ := frame
  cases visibility <;> rfl

@[simp] theorem isLive_align {alignment : Alignment} {measured : Size} {child : Node} :
    (align frame alignment measured child).isLive = (frame.visibility != .collapsed) := by
  obtain ⟨visibility, bounds⟩ := frame
  cases visibility <;> rfl

@[simp] theorem isLive_stack {style : StackStyle} {totals : StackTotals}
    {items : List (Item Node)} :
    (stack frame style totals items).isLive = (frame.visibility != .collapsed) := by
  obtain ⟨visibility, bounds⟩ := frame
  cases visibility <;> rfl

@[simp] theorem isLive_table {grid : Grid} {cells : List (Option Node)} :
    (table frame grid cells).isLive = (frame.visibility != .collapsed) := by
  obtain ⟨visibility, bounds⟩ := frame
  cases visibility <;> rfl

end Live

/-- `below` is the node itself or is reached from a visited child. -/
inductive Reaches : Node → Node → Prop
  | refl (node : Node) : Reaches node node
  | step {node child below : Node} : child ∈ node.visited → Reaches child below →
      Reaches node below

/-- Every node reached from `root` satisfies `P`. -/
def AllReached (P : Node → Prop) (root : Node) : Prop := ∀ node, root.Reaches node → P node

theorem mem_visited_stack {frame : Frame} {style : StackStyle} {totals : StackTotals}
    {items : List (Item Node)} {child : Node} :
    child ∈ (stack frame style totals items).visited ↔
      ∃ item ∈ items, item.node.isLive = true ∧ item.node = child := by
  simp [visited, and_assoc]

theorem mem_visited_table {frame : Frame} {grid : Grid} {cells : List (Option Node)}
    {child : Node} : child ∈ (table frame grid cells).visited ↔
      some child ∈ cells ∧ child.isLive = true := by
  simp [visited]

theorem visited_induct {motive : Node → Prop}
    (step : ∀ node, (∀ child ∈ node.visited, motive child) → motive node) (node : Node) :
    motive node := by
  induction node with
  | leaf frame content => exact step _ (by simp [visited])
  | padding frame insets child ih => exact step _ (by simpa [visited] using ih)
  | align frame alignment measured child ih => exact step _ (by simpa [visited] using ih)
  | stack frame style totals items ih =>
    refine step _ fun child hc => ?_
    obtain ⟨item, hi, -, rfl⟩ := mem_visited_stack.1 hc
    exact ih item hi
  | table frame grid cells ih =>
    exact step _ fun child hc => ih child (mem_visited_table.1 hc).1

theorem allReached_iff {P : Node → Prop} (root : Node) :
    root.AllReached P ↔ P root ∧ ∀ child ∈ root.visited, child.AllReached P := by
  constructor
  · exact fun h => ⟨h root (.refl root), fun child hc node hn => h node (.step hc hn)⟩
  · rintro ⟨hr, hc⟩ node hn
    cases hn with
    | refl => exact hr
    | step hm hn => exact hc _ hm node hn

section Constructors

variable {P : Node → Prop} {frame : Frame}

@[simp] theorem allReached_leaf {content : Leaf} :
    (leaf frame content).AllReached P ↔ P (leaf frame content) := by
  simp [allReached_iff (leaf _ _), visited]

@[simp] theorem allReached_padding {insets : Insets} {child : Node} :
    (padding frame insets child).AllReached P ↔
      P (padding frame insets child) ∧ child.AllReached P := by
  simp [allReached_iff (padding ..), visited]

@[simp] theorem allReached_align {alignment : Alignment} {measured : Size} {child : Node} :
    (align frame alignment measured child).AllReached P ↔
      P (align frame alignment measured child) ∧ child.AllReached P := by
  simp [allReached_iff (align ..), visited]

@[simp] theorem allReached_stack {style : StackStyle} {totals : StackTotals}
    {items : List (Item Node)} : (stack frame style totals items).AllReached P ↔
      P (stack frame style totals items) ∧
        ∀ item ∈ items, item.node.isLive = true → item.node.AllReached P := by
  rw [allReached_iff]
  refine and_congr_right fun _ => ⟨fun h item hi hl => ?_, fun h child hc => ?_⟩
  · exact h _ (mem_visited_stack.2 ⟨item, hi, hl, rfl⟩)
  · obtain ⟨item, hi, hl, rfl⟩ := mem_visited_stack.1 hc
    exact h item hi hl

@[simp] theorem allReached_table {grid : Grid} {cells : List (Option Node)} :
    (table frame grid cells).AllReached P ↔
      P (table frame grid cells) ∧
        ∀ child, some child ∈ cells → child.isLive = true → child.AllReached P := by
  simp [allReached_iff (table ..), mem_visited_table]

end Constructors

/-- What passes from the visited children to a node of a kind holds if all nodes reached are of
that kind. -/
theorem AllReached.induct {P motive : Node → Prop}
    (step : ∀ node, P node → (∀ child ∈ node.visited, motive child) → motive node) {root : Node}
    (h : root.AllReached P) : motive root := by
  induction root using visited_induct with
  | step root ih =>
    obtain ⟨hr, hc⟩ := (allReached_iff _).1 h
    exact step root hr fun child hm => ih child hm (hc child hm)

theorem AllReached.mono {P Q : Node → Prop} (hpq : ∀ node, P node → Q node) {root : Node}
    (h : root.AllReached P) : root.AllReached Q := fun node hn => hpq node (h node hn)

end Node

end BoxLayout
