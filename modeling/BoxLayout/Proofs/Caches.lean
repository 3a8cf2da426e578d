import BoxLayout.Node.Place
import BoxLayout.Proofs.Children
import BoxLayout.Proofs.Reach

/-!
# Caches

What a layout pass leaves in a tree is a cache: the places of nodes and leaves, and what measuring
found out about children. `Node.retain` clears the caches that are not to be kept, which may differ
between the nodes that a pass reaches and those below collapsed children. Trees that differ in
caches only are `Node.CacheEqual`.
-/

namespace BoxLayout

/-- Which caches are kept: places, and what measuring found out. -/
structure Keep where
  places : Bool
  sizes : Bool

namespace Keep

def nothing : Keep := ⟨false, false⟩

def onlySizes : Keep := ⟨false, true⟩

def onlyPlaces : Keep := ⟨true, false⟩

def everything : Keep := ⟨true, true⟩

/-- What both keep. -/
def both (a b : Keep) : Keep := ⟨a.places && b.places, a.sizes && b.sizes⟩

/-- What is kept of the places of nodes and leaves. -/
def frame (keep : Keep) (frame : Frame) : Frame :=
  { frame with bounds := if keep.places then frame.bounds else default }

def leaf (keep : Keep) (content : Leaf) : Leaf :=
  if keep.places then content else content.place default

/-- What is kept of the findings of a measuring. -/
def size (keep : Keep) (size : Size) : Size := if keep.sizes then size else .zero

def totals (keep : Keep) (totals : StackTotals) : StackTotals :=
  if keep.sizes then totals else .zero

def grid (keep : Keep) (grid : Grid) : Grid :=
  if keep.sizes then grid else { grid with widths := #[], heights := #[] }

/-- What does not depend on the place of a leaf does not depend on what is kept of it. -/
theorem apply_leaf {α : Type} (f : Leaf → α)
    (h : ∀ content bounds, f (content.place bounds) = f content) (keep : Keep) (content : Leaf) :
    f (keep.leaf content) = f content := by
  unfold Keep.leaf
  split
  · rfl
  · exact h ..

section Twice

variable (a b : Keep)

theorem both_self : a.both a = a := by simp [both]

theorem frame_frame (frame : Frame) : b.frame (a.frame frame) = (a.both b).frame frame := by
  obtain ⟨_ | _, _⟩ := a <;> obtain ⟨_ | _, _⟩ := b <;> rfl

theorem leaf_leaf (content : Leaf) : b.leaf (a.leaf content) = (a.both b).leaf content := by
  obtain ⟨_ | _, _⟩ := a <;> obtain ⟨_ | _, _⟩ := b <;> simp [Keep.leaf, both]

theorem size_size (size : Size) : b.size (a.size size) = (a.both b).size size := by
  obtain ⟨_, _ | _⟩ := a <;> obtain ⟨_, _ | _⟩ := b <;> rfl

theorem totals_totals (totals : StackTotals) :
    b.totals (a.totals totals) = (a.both b).totals totals := by
  obtain ⟨_, _ | _⟩ := a <;> obtain ⟨_, _ | _⟩ := b <;> rfl

theorem grid_grid (grid : Grid) : b.grid (a.grid grid) = (a.both b).grid grid := by
  obtain ⟨_, _ | _⟩ := a <;> obtain ⟨_, _ | _⟩ := b <;> rfl

end Twice

section Places

variable (places a b : Bool)

/-- Keeping more or fewer of the findings makes no difference to what is kept of places. -/
theorem frame_twice (frame : Frame) :
    (mk places b).frame ((mk places a).frame frame) = (mk places b).frame frame := by
  cases places <;> rfl

theorem leaf_twice (content : Leaf) :
    (mk places b).leaf ((mk places a).leaf content) = (mk places b).leaf content := by
  cases places
  · rw [leaf_leaf]
    rfl
  · rfl

end Places

end Keep

namespace Node

mutual
/-- The node with the caches that `keep` keeps, and `unreached` below collapsed children. -/
def retain (keep unreached : Keep) : Node → Node
  | leaf frame content => leaf (keep.frame frame) (keep.leaf content)
  | padding frame insets child => padding (keep.frame frame) insets (child.retain keep unreached)
  | align frame alignment measured child =>
    align (keep.frame frame) alignment (keep.size measured) (child.retain keep unreached)
  | stack frame style totals items =>
    stack (keep.frame frame) style (keep.totals totals) (retainItems keep unreached items)
  | table frame grid cells =>
    table (keep.frame frame) (keep.grid grid) (retainCells keep unreached cells)

/-- The same for the children of a stack. -/
def retainItems (keep unreached : Keep) : List (Item Node) → List (Item Node)
  | [] => []
  | ⟨node, flex, measured⟩ :: rest =>
    let here := if node.isLive then keep else unreached
    ⟨node.retain here unreached, flex, here.size measured⟩ :: retainItems keep unreached rest

/-- The same for the cells of a table. -/
def retainCells (keep unreached : Keep) : List (Option Node) → List (Option Node)
  | [] => []
  | none :: rest => none :: retainCells keep unreached rest
  | some node :: rest =>
    some (node.retain (if node.isLive then keep else unreached) unreached) ::
      retainCells keep unreached rest
end

/-- The trees differ in caches only. -/
def CacheEqual (a b : Node) : Prop := a.retain .nothing .nothing = b.retain .nothing .nothing

/-- What is kept of a child of a stack. -/
def retainItem (keep unreached : Keep) (item : Item Node) : Item Node :=
  let here := if item.node.isLive then keep else unreached
  ⟨item.node.retain here unreached, item.flex, here.size item.measured⟩

/-- What is kept of a child of a table. -/
def retainChild (keep unreached : Keep) (child : Node) : Node :=
  child.retain (if child.isLive then keep else unreached) unreached

variable {keep unreached : Keep}

theorem retainItems_eq (items : List (Item Node)) :
    retainItems keep unreached items = items.map (retainItem keep unreached) := by
  induction items with
  | nil => rfl
  | cons item rest ih => rw [retainItems, ih]; rfl

theorem retainCells_eq (cells : List (Option Node)) :
    retainCells keep unreached cells = cells.map (Option.map (retainChild keep unreached)) := by
  induction cells with
  | nil => rfl
  | cons cell rest ih => cases cell <;> (rw [retainCells, ih]; rfl)

/-! ## What is not a cache -/

@[simp] theorem isLive_retain (node : Node) :
    (node.retain keep unreached).isLive = node.isLive := by
  cases node with
  | leaf frame content =>
    rw [retain, isLive_leaf, isLive_leaf, Keep.apply_leaf Leaf.visibility Leaf.visibility_place]
    rfl
  | padding | align | stack | table => rw [retain]; simp [Keep.frame]

/-- Nodes of which the same is kept take part alike. -/
theorem isLive_eq_of_retain_eq {keep' unreached' : Keep} {a b : Node}
    (h : a.retain keep unreached = b.retain keep' unreached') : a.isLive = b.isLive := by
  have hlive := congrArg isLive h
  rwa [isLive_retain, isLive_retain] at hlive

theorem retainItem_of_live {item : Item Node} (hl : item.node.isLive = true) :
    retainItem keep unreached item =
      ⟨item.node.retain keep unreached, item.flex, keep.size item.measured⟩ := by
  simp only [retainItem, if_pos hl]

theorem retainItem_of_not_live {item : Item Node} (hl : item.node.isLive ≠ true) :
    retainItem keep unreached item =
      ⟨item.node.retain unreached unreached, item.flex, unreached.size item.measured⟩ := by
  simp only [retainItem, if_neg hl]

theorem retainChild_of_live {child : Node} (hl : child.isLive = true) :
    retainChild keep unreached child = child.retain keep unreached := by
  rw [retainChild, if_pos hl]

theorem retainChild_of_not_live {child : Node} (hl : child.isLive ≠ true) :
    retainChild keep unreached child = child.retain unreached unreached := by
  rw [retainChild, if_neg hl]

theorem isLive_retainItem (item : Item Node) :
    (retainItem keep unreached item).node.isLive = item.node.isLive := isLive_retain ..

theorem liveCount_map_retainItem (items : List (Item Node)) :
    liveCount (items.map (retainItem keep unreached)) = liveCount items := by
  rw [liveCount, List.countP_map]
  exact List.countP_congr fun item _ => by simp [isLive_retainItem]

theorem map_filter_retainItem {α : Type} (f : Item Node → α) (items : List (Item Node)) :
    ((items.map (retainItem keep unreached)).filter (·.node.isLive)).map f =
      (items.filter (·.node.isLive)).map fun item => f (retainItem keep unreached item) := by
  rw [List.filter_map, List.map_map]
  refine congrArg (List.map _) (List.filter_congr fun item _ => ?_)
  exact isLive_retainItem item

theorem itemExtents_retain {items : List (Item Node)}
    (h : ∀ item ∈ items, ∀ keep axis other,
      (item.node.retain keep unreached).minExtent axis other = item.node.minExtent axis other)
    (axis : Axis) (other : Int) :
    itemExtents axis other (retainItems keep unreached items) = itemExtents axis other items := by
  induction items with
  | nil => rfl
  | cons item rest ih =>
    obtain ⟨hitem, hrest⟩ := List.forall_mem_cons.1 h
    obtain ⟨node, flex, measured⟩ := item
    rw [retainItems, itemExtents, itemExtents, isLive_retain, hitem, ih hrest]

theorem cellExtents_retain {cells : List (Option Node)}
    (h : ∀ child, some child ∈ cells → ∀ keep axis other,
      (child.retain keep unreached).minExtent axis other = child.minExtent axis other)
    (axis : Axis) (other : Int) (done : List (Option Int)) :
    cellExtents axis other done (retainCells keep unreached cells) =
      cellExtents axis other done cells := by
  induction cells generalizing done with
  | nil => rfl
  | cons cell rest ih =>
    have hrest := ih fun child hc => h child (List.mem_cons_of_mem _ hc)
    cases cell with
    | none => rw [retainCells, cellExtents, cellExtents, hrest]
    | some node =>
      rw [retainCells, cellExtents, cellExtents, isLive_retain, h node List.mem_cons_self]
      simp only [hrest]

/-- Least extents do not depend on caches. -/
@[simp] theorem minExtent_retain (node : Node) (keep : Keep) (axis : Axis) (other : Int) :
    (node.retain keep unreached).minExtent axis other = node.minExtent axis other := by
  induction node generalizing keep axis other with
  | leaf frame content =>
    rw [retain, minExtent, minExtent]
    exact Keep.apply_leaf (·.minExtent axis other) (fun _ _ => Leaf.minExtent_place ..) keep content
  | padding frame insets child ih => simp only [retain, minExtent, ih]
  | align frame alignment measured child ih => simp only [retain, minExtent, ih]
  | stack frame style totals items ih =>
    have hcount : liveCount (retainItems keep unreached items) = liveCount items := by
      rw [retainItems_eq, liveCount_map_retainItem]
    simp only [retain, minExtent, itemExtents_retain ih, hcount]
  | table frame grid cells ih =>
    have hgrid : (keep.grid grid).isOversized = grid.isOversized ∧
        (∀ axis v, (keep.grid grid).share axis v = grid.share axis v) ∧
        ∀ axis vs, (keep.grid grid).minExtent axis vs = grid.minExtent axis vs := by
      unfold Keep.grid
      split
      · exact ⟨rfl, fun _ _ => rfl, fun _ _ => rfl⟩
      · exact ⟨rfl, fun axis _ => by cases axis <;> rfl, fun axis _ => by cases axis <;> rfl⟩
    simp only [retain, minExtent, cellExtents_retain ih, hgrid.1, hgrid.2.1, hgrid.2.2]

/-- What is kept of the cells of a table if it is kept of those that take part. -/
theorem map_retainChild_settled {f : Option Node × Nat → Node} {cells : List (Option Node)}
    (h : ∀ cell ∈ cells.zipIdx, isLiveCell cell = true → (f cell).isLive = true ∧
      (f cell).retain keep unreached = (content cell).retain keep unreached) :
    (cells.zipIdx.map fun cell => if isLiveCell cell then some (f cell) else cell.1).map
        (Option.map (retainChild keep unreached)) =
      cells.map (Option.map (retainChild keep unreached)) := by
  have hcells := congrArg (List.map (Option.map (retainChild keep unreached)))
    (List.zipIdx_map_fst 0 cells)
  rw [← hcells, List.map_map, List.map_map]
  refine List.map_congr_left fun cell hc => ?_
  by_cases hl : isLiveCell cell = true
  · obtain ⟨hcell, -, hlive⟩ := exists_of_isLiveCell hc hl
    obtain ⟨hf, hsame⟩ := h cell hc hl
    rw [Function.comp, Function.comp, if_pos hl, hcell, Option.map_some, Option.map_some,
      retainChild_of_live hf, retainChild_of_live hlive, hsame]
  · rw [Function.comp, Function.comp, if_neg hl]

/-! ## Keeping twice -/

theorem retainItem_retainItem {a b u v : Keep} {item : Item Node}
    (h : ∀ a b, (item.node.retain a u).retain b v = item.node.retain (a.both b) (u.both v)) :
    retainItem b v (retainItem a u item) = retainItem (a.both b) (u.both v) item := by
  simp only [retainItem, isLive_retain, h, Keep.size_size]
  cases item.node.isLive <;> rfl

theorem retainChild_retainChild {a b u v : Keep} {child : Node}
    (h : ∀ a b, (child.retain a u).retain b v = child.retain (a.both b) (u.both v)) :
    retainChild b v (retainChild a u child) = retainChild (a.both b) (u.both v) child := by
  simp only [retainChild, isLive_retain, h]
  cases child.isLive <;> rfl

/-- What is kept twice is what both times is kept. -/
theorem retain_retain (node : Node) (a b u v : Keep) :
    (node.retain a u).retain b v = node.retain (a.both b) (u.both v) := by
  induction node generalizing a b with
  | leaf frame content => simp only [retain, Keep.frame_frame, Keep.leaf_leaf]
  | padding frame insets child ih => simp only [retain, Keep.frame_frame, ih]
  | align frame alignment measured child ih =>
    simp only [retain, Keep.frame_frame, Keep.size_size, ih]
  | stack frame style totals items ih =>
    simp only [retain, Keep.frame_frame, Keep.totals_totals, retainItems_eq, List.map_map]
    exact congrArg _ (List.map_congr_left fun item hi => retainItem_retainItem (ih item hi))
  | table frame grid cells ih =>
    simp only [retain, Keep.frame_frame, Keep.grid_grid, retainCells_eq, List.map_map]
    refine congrArg _ (List.map_congr_left fun cell hc => ?_)
    cases cell with
    | none => rfl
    | some child => exact congrArg some (retainChild_retainChild (ih child hc))

/-- What is kept of a child that takes no part does not depend on what is kept of the others. -/
theorem retainItem_twice_of_not_live {a b : Keep} {item : Item Node}
    (hl : item.node.isLive ≠ true) :
    retainItem b unreached (retainItem a unreached item) = retainItem b unreached item := by
  rw [retainItem_retainItem fun a b => retain_retain .., Keep.both_self, retainItem_of_not_live hl,
    retainItem_of_not_live hl]

theorem retainChild_twice_of_not_live {a b : Keep} {child : Node} (hl : child.isLive ≠ true) :
    retainChild b unreached (retainChild a unreached child) = retainChild b unreached child := by
  rw [retainChild_retainChild fun a b => retain_retain .., Keep.both_self,
    retainChild_of_not_live hl, retainChild_of_not_live hl]

/-- The cells of a table and those cells without some of their caches come to the same, where new
ones of which the same is kept take the place of those that take part. -/
theorem map_retainChild_zipWith {β : Type} {settle : Option Node → Option β → Option Node}
    {node : β → Node} (hnone : ∀ cell, settle cell none = cell)
    (hsome : ∀ cell b, settle cell (some b) = some (node b)) {a b : Keep}
    {f g : Option Node × Nat → β} {cells : List (Option Node)}
    (h : ∀ cell ∈ cells.zipIdx, isLiveCell cell = true → (node (f cell)).isLive = true ∧
      (node (f cell)).retain b unreached = (node (g cell)).retain b unreached) :
    (List.zipWith settle cells (pick isLiveCell f cells.zipIdx)).map
        (Option.map (retainChild b unreached)) =
      (List.zipWith settle (cells.map (Option.map (retainChild a unreached)))
        (pick isLiveCell g cells.zipIdx)).map (Option.map (retainChild b unreached)) := by
  rw [List.zipWith_map_left, zipWith_pick_zipIdx, zipWith_pick_zipIdx, List.map_map, List.map_map]
  refine List.map_congr_left fun cell hm => ?_
  by_cases hl : isLiveCell cell = true
  · obtain ⟨hlive, hsame⟩ := h cell hm hl
    have hlive' := (isLive_eq_of_retain_eq hsame).symm.trans hlive
    simp only [Function.comp, if_pos hl, hsome, Option.map_some]
    rw [retainChild_of_live hlive, retainChild_of_live hlive', hsame]
  · simp only [Function.comp, if_neg hl, hnone]
    obtain ⟨found, i⟩ := cell
    cases found with
    | none => rfl
    | some child => exact congrArg some (retainChild_twice_of_not_live hl).symm

/-- A tree of which everything is kept stays as it is. -/
theorem retain_everything (node : Node) : node.retain .everything .everything = node := by
  induction node with
  | leaf frame content => rfl
  | padding frame insets child ih => rw [retain, ih]; rfl
  | align frame alignment measured child ih => rw [retain, ih]; rfl
  | stack frame style totals items ih =>
    rw [retain, retainItems_eq]
    refine congrArg (Node.stack frame style totals) ((List.map_congr_left fun item hi => ?_).trans
      (List.map_id' items))
    simp only [retainItem, ite_self, ih item hi]
    rfl
  | table frame grid cells ih =>
    rw [retain, retainCells_eq]
    refine congrArg (Node.table frame grid) ((List.map_congr_left fun cell hc => ?_).trans
      (List.map_id' cells))
    cases cell with
    | none => rfl
    | some child =>
      rw [Option.map_some, retainChild, ite_self, ih child hc]

end Node

end BoxLayout
