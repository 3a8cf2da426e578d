import BoxLayout.Journal
import BoxLayout.Proofs.Preorder

/-!
# Erasing collapsed children

`Node.erase` takes the collapsed children out of every stack, empties the cells of tables that hold
collapsed ones, and shows what is hidden. Every node that is left takes part as it did before
(`isLive_erase`), and least extents are the same (`minExtent_erase`).

A stack loses children, so calls on the same nodes have other indices. `Visit.bare` forgets the
indices; what is counted, written and reported of a visit does not depend on them
(`Journal.followMeasuring_bare`, `Journal.followPlacing_bare`, `Visit.reports_bare`).
-/

namespace BoxLayout

theorem filter_filter_of_imp {α : Type} {p l : α → Bool} (hpl : ∀ x, p x = true → l x = true)
    (xs : List α) : (xs.filter l).filter p = xs.filter p := by
  rw [List.filter_filter]
  refine List.filter_congr fun x _ => ?_
  by_cases hp : p x = true
  · rw [hp, hpl x hp]; rfl
  · simp [hp]

/-! ## Visits without indices -/

namespace Visit

variable {α : Type}

mutual
/-- The visit with the index 0 for every call. -/
def bare : Visit α → Visit α
  | mk name event calls => mk name event (bareAll calls)
/-- The same for a list of visits. -/
def bareAll : List (Nat × Visit α) → List (Nat × Visit α)
  | [] => []
  | (_, visit) :: rest => (0, visit.bare) :: bareAll rest
end

theorem bareAll_eq (calls : List (Nat × Visit α)) :
    bareAll calls = calls.map fun call => (0, call.2.bare) := by
  induction calls with
  | nil => rfl
  | cons call rest ih => rw [bareAll, ih, List.map_cons]

theorem bareAll_append (a b : List (Nat × Visit α)) :
    bareAll (a ++ b) = bareAll a ++ bareAll b := by
  simp only [bareAll_eq, List.map_append]

theorem bareAll_ofChildren (visits : List (Option (Visit α))) :
    bareAll (ofChildren visits) = (visits.filterMap id).map fun visit => (0, visit.bare) := by
  have h : (visits.zipIdx.map Prod.fst).filterMap id = (ofChildren visits).map Prod.snd := by
    rw [ofChildren, List.filterMap_map, List.map_filterMap]
    refine List.filterMap_congr fun x _ => ?_
    obtain ⟨_ | visit, i⟩ := x <;> rfl
  rw [List.zipIdx_map_fst] at h
  rw [h, bareAll_eq, List.map_map]
  rfl

@[simp] theorem event_bare (visit : Visit α) : visit.bare.event = visit.event := by
  cases visit; rfl

theorem events_bare (visit : Visit α) : visit.bare.events = visit.events := by
  induction visit with
  | mk name event calls ih =>
    rw [bare, events, events, eventsAll_eq, eventsAll_eq, bareAll_eq, List.flatMap_map]
    exact congrArg _ (List.flatMap_congr ih)

theorem map_snd_trail_of_bare_eq {a b : Visit α} (h : a.bare = b.bare) :
    a.trail.map Prod.snd = b.trail.map Prod.snd := by
  rw [map_snd_trail, map_snd_trail, ← events_bare a, h, events_bare]

theorem reports_bare (visit : Visit Placing) : visit.bare.reports = visit.reports := by
  rw [reports, reports, events_bare]

end Visit

namespace Journal

theorem followMeasurings_bare {level : LogLevel} {calls : List (Nat × Visit Measuring)}
    (ih : ∀ call ∈ calls, ∀ journal, followMeasuring level journal call.2.bare =
      followMeasuring level journal call.2) (journal : Journal) :
    followMeasurings level journal (Visit.bareAll calls) =
      followMeasurings level journal calls := by
  induction calls generalizing journal with
  | nil => rfl
  | cons call rest irest =>
    obtain ⟨hcall, hrest⟩ := List.forall_mem_cons.1 ih
    simp only [Visit.bareAll, followMeasurings, hcall, irest hrest]

theorem followMeasuring_bare (level : LogLevel) (journal : Journal) (visit : Visit Measuring) :
    followMeasuring level journal visit.bare = followMeasuring level journal visit := by
  induction visit generalizing journal with
  | mk name event calls ih => simp only [Visit.bare, followMeasuring, followMeasurings_bare ih]

theorem followPlacings_bare {level : LogLevel} {calls : List (Nat × Visit Placing)}
    (ih : ∀ call ∈ calls, ∀ journal, followPlacing level journal call.2.bare =
      followPlacing level journal call.2) (journal : Journal) :
    followPlacings level journal (Visit.bareAll calls) = followPlacings level journal calls := by
  induction calls generalizing journal with
  | nil => rfl
  | cons call rest irest =>
    obtain ⟨hcall, hrest⟩ := List.forall_mem_cons.1 ih
    simp only [Visit.bareAll, followPlacings, hcall, irest hrest]

theorem followPlacing_bare (level : LogLevel) (journal : Journal) (visit : Visit Placing) :
    followPlacing level journal visit.bare = followPlacing level journal visit := by
  induction visit generalizing journal with
  | mk name event calls ih => simp only [Visit.bare, followPlacing, followPlacings_bare ih]

end Journal

/-! ## Trees -/

/-- What is hidden shows. -/
def Visibility.shown : Visibility → Visibility
  | .hidden => .visible
  | .visible => .visible
  | .collapsed => .collapsed

def Frame.shown (frame : Frame) : Frame := { frame with visibility := frame.visibility.shown }

namespace Leaf

/-- The leaf with another visibility of its own, if it has one. -/
def setVisibility (leaf : Leaf) (visibility : Visibility) : Leaf :=
  match leaf with
  | canvas ideal _ observer => canvas ideal visibility observer
  | button label _ bounds => button label visibility bounds
  | text content _ bounds => text content visibility bounds
  | spacer _ | portrait => leaf

/-- The leaf in a node with the visibility `outer`, which shows if that or the leaf is hidden. -/
def shown (outer : Visibility) (leaf : Leaf) : Leaf :=
  match outer with
  | .hidden => leaf.setVisibility .visible
  | .visible | .collapsed => leaf.setVisibility leaf.visibility.shown

section Shown

variable (outer : Visibility) (leaf : Leaf)

/-- What does not depend on the visibility of a leaf does not depend on whether it is hidden. -/
theorem apply_shown {α : Type} (f : Leaf → α)
    (h : ∀ leaf visibility, f (setVisibility leaf visibility) = f leaf) :
    f (leaf.shown outer) = f leaf := by
  cases outer <;> exact h ..

@[simp] theorem name_shown : (leaf.shown outer).name = leaf.name :=
  apply_shown outer leaf name fun leaf _ => by cases leaf <;> rfl

@[simp] theorem observer?_shown : (leaf.shown outer).observer? = leaf.observer? :=
  apply_shown outer leaf observer? fun leaf _ => by cases leaf <;> rfl

@[simp] theorem measure_shown (given : Constraints) :
    (leaf.shown outer).measure given = leaf.measure given :=
  apply_shown outer leaf (·.measure given) fun leaf _ => by cases leaf <;> rfl

@[simp] theorem minExtent_shown (axis : Axis) (other : Int) :
    (leaf.shown outer).minExtent axis other = leaf.minExtent axis other :=
  apply_shown outer leaf (·.minExtent axis other) fun leaf _ => by cases leaf <;> rfl

@[simp] theorem place_shown (bounds : Rect) :
    (leaf.shown outer).place bounds = (leaf.place bounds).shown outer := by
  cases outer <;> cases leaf <;> rfl

end Shown

end Leaf

namespace Node

mutual
/-- The tree without the collapsed children of stacks and tables, with everything hidden shown. -/
def erase : Node → Node
  | leaf frame content => leaf frame.shown (content.shown frame.visibility)
  | padding frame insets child => padding frame.shown insets child.erase
  | align frame alignment measured child => align frame.shown alignment measured child.erase
  | stack frame style totals items => stack frame.shown style totals (eraseItems items)
  | table frame grid cells => table frame.shown grid (eraseCells cells)

/-- The children of a stack that are left. -/
def eraseItems : List (Item Node) → List (Item Node)
  | [] => []
  | ⟨node, flex, measured⟩ :: rest =>
    if node.isLive then ⟨node.erase, flex, measured⟩ :: eraseItems rest else eraseItems rest

/-- The cells of a table, of which some become empty. -/
def eraseCells : List (Option Node) → List (Option Node)
  | [] => []
  | none :: rest => none :: eraseCells rest
  | some node :: rest => (if node.isLive then some node.erase else none) :: eraseCells rest
end

/-- A child of a stack that is left. -/
def eraseItem (item : Item Node) : Item Node := { item with node := item.node.erase }

/-- What is left in a cell. -/
def eraseCell (cell : Option Node) : Option Node := (cell.filter isLive).map erase

theorem eraseCell_of_live {child : Node} (hl : child.isLive = true) :
    eraseCell (some child) = some child.erase := by
  rw [eraseCell, Option.filter_some, if_pos hl, Option.map_some]

theorem eraseCell_of_not_live {child : Node} (hl : child.isLive ≠ true) :
    eraseCell (some child) = none := by
  rw [eraseCell, Option.filter_some, if_neg hl, Option.map_none]

theorem eraseItems_cons_of_live {item : Item Node} (hl : item.node.isLive = true)
    (rest : List (Item Node)) : eraseItems (item :: rest) = eraseItem item :: eraseItems rest :=
  if_pos hl

theorem eraseItems_cons_of_not_live {item : Item Node} (hl : item.node.isLive ≠ true)
    (rest : List (Item Node)) : eraseItems (item :: rest) = eraseItems rest := if_neg hl

theorem eraseItems_eq (items : List (Item Node)) :
    eraseItems items = (items.filter (·.node.isLive)).map eraseItem := by
  induction items with
  | nil => rfl
  | cons item rest ih =>
    by_cases hl : item.node.isLive = true
    · rw [eraseItems_cons_of_live hl, List.filter_cons, if_pos hl, ih, List.map_cons]
    · rw [eraseItems_cons_of_not_live hl, List.filter_cons, if_neg hl, ih]

theorem eraseCells_eq (cells : List (Option Node)) : eraseCells cells = cells.map eraseCell := by
  induction cells with
  | nil => rfl
  | cons cell rest ih =>
    rw [List.map_cons, ← ih]
    cases cell with
    | none => rfl
    | some child =>
      rw [eraseCells]
      split
      · rename_i hl; rw [eraseCell_of_live hl]
      · rename_i hl; rw [eraseCell_of_not_live hl]

/-- What was hidden is visible, and nothing else changes its visibility. -/
theorem visibility_erase (node : Node) : node.erase.visibility = node.visibility.shown := by
  cases node with
  | leaf frame content =>
    obtain ⟨visibility, bounds⟩ := frame
    cases visibility
    · cases content <;> rfl
    · cases content <;> rfl
    · rfl
  | padding frame | align frame | stack frame | table frame =>
    obtain ⟨visibility, bounds⟩ := frame
    cases visibility <;> rfl

@[simp] theorem isLive_erase (node : Node) : node.erase.isLive = node.isLive := by
  rw [isLive, isLive, isCollapsed, isCollapsed, visibility_erase]
  cases node.visibility <;> rfl

@[simp] theorem bounds_erase (node : Node) : node.erase.bounds = node.bounds := by
  cases node <;> rfl

theorem map_filter_eraseItems {α : Type} (f : Item Node → α) (items : List (Item Node)) :
    ((eraseItems items).filter (·.node.isLive)).map f =
      (items.filter (·.node.isLive)).map fun item => f (eraseItem item) := by
  have hlive : (fun item : Item Node => item.node.isLive) ∘ eraseItem =
      fun item : Item Node => item.node.isLive :=
    funext fun item => isLive_erase item.node
  rw [eraseItems_eq, List.filter_map, List.map_map, hlive, filter_filter_of_imp fun _ h => h]
  rfl

theorem liveCount_eraseItems (items : List (Item Node)) :
    liveCount (eraseItems items) = liveCount items := by
  rw [liveCount, liveCount, eraseItems_eq, List.countP_map, List.countP_filter]
  exact List.countP_congr fun item _ => by simp [eraseItem]

/-! ## What is left -/

theorem filter_filterMap_eraseCells (cells : List (Option Node)) :
    ((eraseCells cells).filterMap id).filter isLive =
      ((cells.filterMap id).filter isLive).map erase := by
  induction cells with
  | nil => rfl
  | cons cell rest ih =>
    cases cell with
    | none => exact ih
    | some child =>
      by_cases hl : child.isLive = true <;> simpa [eraseCells, hl] using ih

theorem map_snd_callees_erase (node : Node) :
    node.erase.callees.map Prod.snd = (node.callees.map Prod.snd).map erase := by
  rw [map_snd_callees, map_snd_callees]
  cases node with
  | leaf frame content => rfl
  | padding frame insets child => rfl
  | align frame alignment measured child => rfl
  | stack frame style totals items =>
    rw [erase, children, children, List.filter_map, List.filter_map, List.map_map]
    exact map_filter_eraseItems (·.node) items
  | table frame grid cells => exact filter_filterMap_eraseCells cells

/-- The nodes that are left are those that a pass reaches, in the same order. -/
theorem map_snd_preorder_erase (root : Node) :
    root.erase.preorder.map Prod.snd = (root.preorder.map Prod.snd).map erase := by
  have hbelow (root : Node) : root.preorder.map Prod.snd =
      root :: (root.callees.map Prod.snd).flatMap fun child => child.preorder.map Prod.snd := by
    rw [preorder_eq, List.map_cons, List.map_flatMap, List.flatMap_map]
    simp only [List.map_map]
    rfl
  induction root using visited_induct with
  | step root ih =>
    rw [hbelow, hbelow, map_snd_callees_erase, List.flatMap_map, List.map_cons, List.map_flatMap]
    refine congrArg _ (List.flatMap_congr fun child hc => ?_)
    obtain ⟨call, hcall, rfl⟩ := List.mem_map.1 hc
    exact ih _ (mem_visited_iff.2 ⟨call.1, mem_callees.1 hcall⟩)

example : (stackOf { axis := .horizontal }
      [(ofLeaf (.canvas ⟨4, 4⟩ .hidden none), 0), (ofLeaf (.canvas ⟨9, 9⟩ .collapsed none), 1),
        (pad (.all 1) (ofLeaf (.button "Ok" .collapsed default)), 0)]).erase =
    stackOf { axis := .horizontal }
      [(ofLeaf (.canvas ⟨4, 4⟩ .visible none), 0),
        (pad (.all 1) (ofLeaf (.button "Ok" .collapsed default)), 0)] := rfl

/-! ## Least extents -/

theorem itemExtents_eraseItems {items : List (Item Node)} (axis : Axis) (other : Int)
    (h : ∀ item ∈ items, item.node.erase.minExtent axis other = item.node.minExtent axis other) :
    itemExtents axis other (eraseItems items) = itemExtents axis other items := by
  induction items with
  | nil => rfl
  | cons item rest ih =>
    obtain ⟨hitem, hrest⟩ := List.forall_mem_cons.1 h
    rw [eraseItems, itemExtents]
    split
    · rename_i hl
      rw [itemExtents, isLive_erase, if_pos hl, hitem, ih hrest]
    · exact ih hrest

theorem cellExtents_eraseCells {cells : List (Option Node)} (axis : Axis) (other : Int)
    (h : ∀ child, some child ∈ cells →
      child.erase.minExtent axis other = child.minExtent axis other) (done : List (Option Int)) :
    cellExtents axis other done (eraseCells cells) = cellExtents axis other done cells := by
  induction cells generalizing done with
  | nil => rfl
  | cons cell rest ih =>
    have hrest := ih fun child hc => h child (List.mem_cons_of_mem _ hc)
    cases cell with
    | none => rw [eraseCells, cellExtents, cellExtents, hrest]
    | some child =>
      rw [eraseCells, cellExtents]
      split
      · rename_i hl
        rw [cellExtents, isLive_erase, if_pos hl, h child List.mem_cons_self]
        simp only [hrest]
      · rw [cellExtents, hrest]

/-- Least extents do not depend on what is erased. -/
theorem minExtent_erase (node : Node) (axis : Axis) (other : Int) :
    node.erase.minExtent axis other = node.minExtent axis other := by
  induction node generalizing axis other with
  | leaf frame content =>
    rw [erase, minExtent, minExtent]
    exact Leaf.minExtent_shown ..
  | padding frame insets child ih => simp only [erase, minExtent, ih]
  | align frame alignment measured child ih => simp only [erase, minExtent, ih]
  | stack frame style totals items ih =>
    have hitems (other : Int) := itemExtents_eraseItems axis other fun item hi => ih item hi ..
    simp only [erase, minExtent, hitems, liveCount_eraseItems]
  | table frame grid cells ih =>
    have hcells (other : Int) :=
      cellExtents_eraseCells axis other (fun child hc => ih child hc ..) []
    simp only [erase, minExtent, hcells]

end Node

end BoxLayout
