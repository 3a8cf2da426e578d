import Mathlib.Order.Bounds.Defs
import BoxLayout.Node.Edit
import BoxLayout.Node.Path
import BoxLayout.Proofs.Arrange
import BoxLayout.Proofs.Cells
import BoxLayout.Proofs.Preorder
import BoxLayout.Proofs.Sharing

/-!
# Tables tile

A table asks each cell for its size without limits, makes each track as large as its largest cell
and holds every cell to the slot where its tracks cross. Placing then puts the slots side by side
from the origin of the box on, so that they tile a rectangle whatever the size of the box
(`Node.table_tiles`).

Cells are addressed by row and column as a client addresses them (`Node.HasCell`), while the passes
go by their numbers: `Grid.index` and `Grid.trackOf` translate one into the other.
-/

namespace BoxLayout

namespace Grid

variable {grid : Grid}

/-- The track along one axis of the cell at a row and a column. -/
def trackAt (axis : Axis) (row col : Nat) : Nat :=
  match axis with
  | .horizontal => col
  | .vertical => row

theorem trackOf_eq_trackAt {row col i : Nat} (h : grid.index row col = .ok i) (axis : Axis) :
    grid.trackOf axis i = trackAt axis row col := by
  cases axis with
  | horizontal => exact (trackOf_index h).1
  | vertical => exact (trackOf_index h).2

/-- A cell is found at its row and its column. -/
theorem index_trackOf {i : Nat} (hi : i < grid.size) (hmax : i ≤ maxIndex) :
    grid.index (grid.trackOf .vertical i) (grid.trackOf .horizontal i) = .ok i := by
  have hcell : grid.trackOf .vertical i * grid.cols + grid.trackOf .horizontal i = i :=
    Nat.div_add_mod' i grid.cols
  exact index_eq_ok_iff.2
    ⟨⟨trackOf_lt_count .vertical hi, trackOf_lt_count .horizontal hi⟩, by omega, hcell.symm⟩

theorem hasTracks_measured (sizes : List (Option Size)) : (grid.measured sizes).HasTracks :=
  ⟨isMeasured_measured grid sizes, fun _ => extents_measured sizes ▸ nonneg_of_mem_cover⟩

/-- A slot lies where the tracks before it end. -/
theorem slotIn_eq {row col i : Nat} (h : grid.index row col = .ok i) (rect : Rect) :
    grid.slotIn rect i = ⟨⟨rect.origin.x + (grid.widths.toList.take col).sum,
      rect.origin.y + (grid.heights.toList.take row).sum⟩, grid.slotSize i⟩ := by
  obtain ⟨hcol, hrow⟩ := trackOf_index h
  rw [slotIn, hcol, hrow]
  rfl

end Grid

/-- The maximum from zero on of a set of lengths is the greatest of them, if there is one. -/
theorem Extent.isGreatest_foldl_max {answers : Set Int} {vs : List Int}
    (h : ∀ v, v ∈ answers ↔ v ∈ vs) (hnn : ∀ v ∈ answers, 0 ≤ v) :
    IsGreatest answers (vs.foldl max 0) ∨ answers = ∅ ∧ vs.foldl max 0 = 0 := by
  cases hmax : vs.max? with
  | none =>
    obtain rfl := List.max?_eq_none_iff.1 hmax
    exact .inr ⟨Set.eq_empty_of_forall_notMem fun v hv => List.not_mem_nil ((h v).1 hv), rfl⟩
  | some v =>
    obtain ⟨hv, hle⟩ := List.max?_eq_some_iff.1 hmax
    have hfold : vs.foldl max 0 = v := by
      rw [← largest_eq_foldl fun v hv => hnn v ((h v).2 hv), largest, hmax, Option.getD_some]
    rw [hfold]
    exact .inl ⟨(h v).2 hv, fun w hw => hle w ((h w).1 hw)⟩

namespace Node

/-- A child that takes part lies at a row and a column. -/
def HasCell (root : Node) (row col : Nat) (child : Node) : Prop :=
  root.child (.cell row col) = .ok child ∧ child.isLive = true

/-- What the cells of one track answer along one axis if they are asked for any size. -/
def answersIn (root : Node) (axis : Axis) (k : Nat) : Set Int :=
  {v | ∃ row col child found, root.HasCell row col child ∧ Grid.trackAt axis row col = k ∧
    child.measure .free = .ok found ∧ found.size.along axis = v}

variable {frame : Frame} {grid sized : Grid} {cells : List (Option Node)} {given : Constraints}
  {m : Measured} {rect : Rect} {p : Placed} {once again : Option Node × Nat → Measured}
  {row col i : Nat} {child : Node}

theorem hasCell_table_iff : (table frame grid cells).HasCell row col child ↔
    ∃ i, grid.index row col = .ok i ∧ (table frame grid cells).visitedAt i = some child := by
  simp only [HasCell, Node.child, visitedAt_table_eq_some_iff]
  cases hindex : grid.index row col with
  | error fault => simp
  | ok i =>
    cases hi : cells[i]? with
    | none => simp [hi]
    | some cell => cases cell <;> simp [hi]

theorem nonneg_of_mem_answersIn (h : (table frame grid cells).AllReached HasNonnegInsets)
    {axis : Axis} {k : Nat} {v : Int} (hv : v ∈ (table frame grid cells).answersIn axis k) :
    0 ≤ v := by
  obtain ⟨row, col, child, found, hcell, -, hf, rfl⟩ := hv
  obtain ⟨i, -, hchild⟩ := hasCell_table_iff.1 hcell
  have hc := ((allReached_iff _).1 h).2 child (mem_visited_iff.2 ⟨i, hchild⟩)
  exact (isProper_of_measure hc hf axis).1

theorem index_trackOf_of_mem (hl : (table frame grid cells).IsNumbered) {cell : Option Node}
    (hi : cells[i]? = some cell) :
    grid.index (grid.trackOf .vertical i) (grid.trackOf .horizontal i) = .ok i := by
  have hlt := (List.getElem?_eq_some_iff.1 hi).1
  have hmax : Grid.maxCells ≤ Grid.maxIndex := by decide
  have hcount : cells.length ≤ Grid.maxCells := hl.trans_le grid.cellCount_le_maxCells
  exact Grid.index_trackOf (hlt.trans_le hl.length_le) ((hlt.le.trans hcount).trans hmax)

/-! ## Measuring -/

section Measuring

variable (hl : (table frame grid cells).IsNumbered)
  (honce : ∀ cell ∈ cells.zipIdx, isLiveCell cell = true →
    (content cell).measure .free = .ok (once cell))
  (hsized : sized = grid.measured (pick isLiveCell (fun cell => (once cell).size) cells.zipIdx))

include hl honce

theorem mem_answersIn_iff {axis : Axis} {k : Nat} {v : Int} :
    v ∈ (table frame grid cells).answersIn axis k ↔
      v ∈ (grid.track axis k (pick isLiveCell (fun cell => (once cell).size) cells.zipIdx)).map
        (·.along axis) := by
  rw [List.mem_map]
  constructor
  · rintro ⟨row, col, child, found, hcell, hk, hf, rfl⟩
    obtain ⟨i, hindex, hchild⟩ := hasCell_table_iff.1 hcell
    obtain ⟨hi, hlive⟩ := visitedAt_table_eq_some_iff.1 hchild
    have hmem : (some child, i) ∈ cells.zipIdx := List.mem_zipIdx_iff_getElem?.2 hi
    obtain rfl := Except.ok.inj (hf.symm.trans (honce _ hmem hlive))
    exact ⟨_, mem_track_pick.2
      ⟨_, hmem, hlive, (Grid.trackOf_eq_trackAt hindex axis).trans hk, rfl⟩, rfl⟩
  · rintro ⟨_, hsize, rfl⟩
    obtain ⟨cell, hmem, hlive, hk, rfl⟩ := mem_track_pick.1 hsize
    obtain ⟨-, hi, hchild⟩ := exists_of_isLiveCell hmem hlive
    have hindex := index_trackOf_of_mem hl hi
    exact ⟨_, _, _, _, hasCell_table_iff.2
        ⟨_, hindex, visitedAt_table_eq_some_iff.2 ⟨hi, hchild⟩⟩,
      (Grid.trackOf_eq_trackAt hindex axis).symm.trans hk, honce cell hmem hlive, rfl⟩

variable (hinsets : (table frame grid cells).AllReached HasNonnegInsets)

include hsized hinsets

/-- A track is as large as the greatest answer in it, and empty if there is none. -/
theorem exists_extent_measured {axis : Axis} {k : Nat} (hk : k < grid.count axis) :
    ∃ v, (sized.extents axis)[k]? = some v ∧
      (IsGreatest ((table frame grid cells).answersIn axis k) v ∨
        (table frame grid cells).answersIn axis k = ∅ ∧ v = 0) := by
  refine ⟨_, ?_, Extent.isGreatest_foldl_max (fun _ => mem_answersIn_iff hl honce) fun _ =>
    nonneg_of_mem_answersIn hinsets⟩
  rw [hsized, Grid.extents_measured, Grid.getElem?_cover hk]

/-- The last call on a cell holds it to its slot, and it answers the slot. -/
theorem last_of_visitedAt (hagain : ∀ cell ∈ cells.zipIdx, isLiveCell cell = true →
      (content cell).measure (.exactly (sized.slotSize cell.2)) = .ok (again cell))
    (hcalls : m.visit.calls = Measured.calls (pick isLiveCell once cells.zipIdx) ++
      Measured.calls (pick isLiveCell again cells.zipIdx))
    (hchild : (table frame grid cells).visitedAt i = some child) :
    m.visit.last? [i] = some ⟨.exactly (sized.slotSize i), sized.slotSize i⟩ := by
  obtain ⟨hi, hlive⟩ := visitedAt_table_eq_some_iff.1 hchild
  have hmem : (some child, i) ∈ cells.zipIdx := List.mem_zipIdx_iff_getElem?.2 hi
  have hnumber : i < grid.size := Nat.lt_of_lt_of_le (List.getElem?_eq_some_iff.1 hi).1 hl.length_le
  have hc := ((allReached_iff _).1 hinsets).2 child (mem_visited_iff.2 ⟨i, hchild⟩)
  have hm := hagain _ hmem hlive
  have hsize : (again (some child, i)).size = sized.slotSize i := by
    refine Size.eq_of_along fun axis => along_eq_of_exactly hc (honce _ hmem hlive) hm
      (Constraints.along_exactly ..) ?_
    rw [hsized]
    exact (Grid.along_slotSize_bounds axis hnumber (getElem?_pick_cell hi hlive)).1
  refine (lastCall_table hcalls hi hlive hm).last [] _ ?_
  rw [Visit.last?_nil, event_of_measure hm, hsize]

end Measuring

/-! ## Placing -/

/-- A placed child of a table lies in the slot of its cell. -/
theorem bounds_of_visitedAt (hl : cells.length ≤ grid.size)
    (hp : (table frame grid cells).place rect = .ok p) (hv : p.node.visitedAt i = some child) :
    i < grid.size ∧ child.bounds = grid.slotIn rect i := by
  obtain ⟨_, _, _, hm, -⟩ := place_table hp
  obtain ⟨placed, hfound, hplaced⟩ := visitedAt_place_table hp i
  rw [hfound] at hv
  obtain ⟨before, hbefore, rfl⟩ := Option.map_eq_some_iff.1 hv
  obtain ⟨slot, hslot, hq⟩ := hplaced before hbefore
  obtain ⟨hi, -⟩ := visitedAt_table_eq_some_iff.1 hbefore
  have hnumber : i < grid.size := Nat.lt_of_lt_of_le (List.getElem?_eq_some_iff.1 hi).1 hl
  exact ⟨hnumber, (bounds_of_place hq).trans (Grid.eq_of_slot hm hnumber hslot)⟩

theorem hasCell_place_iff (hp : (table frame grid cells).place rect = .ok p) :
    p.node.HasCell row col child ↔
      ∃ i, grid.index row col = .ok i ∧ p.node.visitedAt i = some child := by
  obtain ⟨_, _, _, -, -, -, -, hnode⟩ := place_table hp
  rw [hnode]
  exact hasCell_table_iff

/-- A cell is placed where the tracks before it end. -/
theorem exists_placed (hl : cells.length ≤ grid.size)
    (hp : (table frame grid cells).place rect = .ok p) (hindex : grid.index row col = .ok i)
    (hchild : (table frame grid cells).visitedAt i = some child) :
    ∃ placed, p.node.HasCell row col placed ∧
      placed.bounds = ⟨⟨rect.origin.x + (grid.widths.toList.take col).sum,
        rect.origin.y + (grid.heights.toList.take row).sum⟩, grid.slotSize i⟩ := by
  obtain ⟨placed, hfound, -⟩ := visitedAt_place_table hp i
  rw [hchild] at hfound
  refine ⟨_, (hasCell_place_iff hp).2 ⟨i, hindex, hfound⟩, ?_⟩
  rw [(bounds_of_visitedAt hl hp hfound).2, Grid.slotIn_eq hindex]

/-- Placed cells do not overlap, and those of one track are aligned. -/
theorem apart_and_aligned_of_place (hl : cells.length ≤ grid.size) (ht : grid.HasTracks)
    (hp : (table frame grid cells).place rect = .ok p) {row' col' : Nat} {other : Node}
    (ha : p.node.HasCell row col child) (hb : p.node.HasCell row' col' other) :
    ((row, col) ≠ (row', col') → child.bounds.IsApart other.bounds) ∧
      ∀ axis, Grid.trackAt axis row col = Grid.trackAt axis row' col' →
        child.bounds.start axis = other.bounds.start axis ∧
          child.bounds.extent axis = other.bounds.extent axis := by
  obtain ⟨i, hi, hva⟩ := (hasCell_place_iff hp).1 ha
  obtain ⟨j, hj, hvb⟩ := (hasCell_place_iff hp).1 hb
  obtain ⟨hin, hbounds⟩ := bounds_of_visitedAt hl hp hva
  obtain ⟨hjn, hbounds'⟩ := bounds_of_visitedAt hl hp hvb
  rw [hbounds, hbounds']
  refine ⟨fun hne => Grid.isApart_slotIn ht hin hjn ?_, fun axis htrack => ?_⟩
  · rintro rfl
    obtain ⟨hcol, hrow⟩ := Grid.trackOf_index hi
    obtain ⟨hcol', hrow'⟩ := Grid.trackOf_index hj
    exact hne (Prod.ext (hrow.symm.trans hrow') (hcol.symm.trans hcol'))
  · rw [← Grid.trackOf_eq_trackAt hi, ← Grid.trackOf_eq_trackAt hj] at htrack
    refine ⟨by rw [Grid.start_slotIn, Grid.start_slotIn, htrack], ?_⟩
    calc (grid.slotIn rect i).extent axis
        = (grid.extents axis).getD (grid.trackOf axis i) 0 := Grid.along_slotSize i
      _ = (grid.extents axis).getD (grid.trackOf axis j) 0 := by rw [htrack]
      _ = (grid.slotIn rect j).extent axis := (Grid.along_slotSize j).symm

/-- Measuring a table makes each track as large as the greatest answer of a cell in it that is
asked for any size, and as nothing if no cell in it takes part. The table answers what it may of
all tracks together, and the last answer of each cell is the slot where its tracks cross. Placing
then puts the slots side by side from the origin of the box on, whatever the size of the box, so
that no two cells overlap and the cells of one track are aligned. -/
theorem table_tiles (hl : (table frame grid cells).IsNumbered)
    (hinsets : (table frame grid cells).AllReached HasNonnegInsets)
    (hm : (table frame grid cells).measure given = .ok m) :
    let root := table frame grid cells
    ∃ sized, m.node.grid? = some sized ∧
      (∀ row col child, root.HasCell row col child →
        ∃ found, child.measure .free = .ok found) ∧
      (∀ axis, (sized.extents axis).size = grid.count axis ∧ ∀ k < grid.count axis,
        ∃ v, (sized.extents axis)[k]? = some v ∧
          (IsGreatest (root.answersIn axis k) v ∨ root.answersIn axis k = ∅ ∧ v = 0)) ∧
      given.constrain ⟨Extent.total sized.widths.toList, Extent.total sized.heights.toList⟩ =
        .ok m.size ∧
      (∀ row col child, root.HasCell row col child → ∃ slot,
        (∀ axis, (sized.extents axis)[Grid.trackAt axis row col]? = some (slot.along axis)) ∧
        m.visit.last? [row * grid.cols + col] = some ⟨.exactly slot, slot⟩ ∧
        ∀ rect p, m.node.place rect = .ok p → ∃ placed, p.node.HasCell row col placed ∧
          placed.bounds = ⟨⟨rect.origin.x + (sized.widths.toList.take col).sum,
            rect.origin.y + (sized.heights.toList.take row).sum⟩, slot⟩) ∧
      ∀ rect p, m.node.place rect = .ok p →
        ∀ row col child row' col' other, p.node.HasCell row col child →
          p.node.HasCell row' col' other →
          ((row, col) ≠ (row', col') → child.bounds.IsApart other.bounds) ∧
          ∀ axis, Grid.trackAt axis row col = Grid.trackAt axis row' col' →
            child.bounds.start axis = other.bounds.start axis ∧
              child.bounds.extent axis = other.bounds.extent axis := by
  intro root
  obtain ⟨-, once, again, sized, hsized, honce, hagain, ha, hnode, hcalls⟩ := run_table hm
  have ht : sized.HasTracks := hsized ▸ Grid.hasTracks_measured _
  -- measuring keeps the dimensions, so that a cell has the same number before and after
  have hindexed (row col : Nat) : grid.index row col = sized.index row col := by rw [hsized]; rfl
  have hnumbered : (cells.zipIdx.map fun cell =>
      if isLiveCell cell then some (again cell).node else cell.1).length ≤ sized.size := by
    rw [List.length_map, List.length_zipIdx, hsized]
    exact hl.length_le
  refine ⟨sized, by rw [hnode]; rfl, ?_, ?_, ha, ?_, ?_⟩
  · intro row col child hcell
    obtain ⟨i, -, hchild⟩ := hasCell_table_iff.1 hcell
    obtain ⟨hi, hlive⟩ := visitedAt_table_eq_some_iff.1 hchild
    exact ⟨_, honce (some child, i) (List.mem_zipIdx_iff_getElem?.2 hi) hlive⟩
  · intro axis
    refine ⟨hsized ▸ Grid.size_extents_measured grid _ axis, fun k hk => ?_⟩
    exact exists_extent_measured hl honce hsized hinsets hk
  · intro row col child hcell
    obtain ⟨i, hindex, hchild⟩ := hasCell_table_iff.1 hcell
    have hplaced := hindexed row col ▸ hindex
    obtain ⟨-, -, rfl⟩ := Grid.index_eq_ok_iff.1 hindex
    refine ⟨sized.slotSize _, fun axis => ?_,
      last_of_visitedAt hl honce hsized hinsets hagain hcalls hchild, fun rect p hp => ?_⟩
    · obtain ⟨v, hv, -, hsize, -⟩ := Grid.exists_extent ht (Grid.index_lt_size hplaced) axis
      rw [← Grid.trackOf_eq_trackAt hplaced, hv, hsize]
    · have hsettled := @visitedAt_measured frame grid _ _ frame sized _ hagain
        (row * grid.cols + col)
      rw [hchild] at hsettled
      exact exists_placed hnumbered (hnode ▸ hp) hplaced hsettled
  · intro rect p hp row col child row' col' other hcell hcell'
    rw [hnode] at hp
    exact apart_and_aligned_of_place hnumbered ht hp hcell hcell'

/-- Two rows of three cells, of which two are empty and one is collapsed, in too small a box. -/
theorem table_tiles_with_holes :
    let root := table {} { rows := 2, cols := 3, sized := true }
      [some (ofLeaf (.spacer ⟨20, 5⟩)), none, some (ofLeaf (.canvas ⟨90, 90⟩ .collapsed none)),
        none, some (pad (.all 2) (ofLeaf (.spacer ⟨6, 4⟩))), some (ofLeaf (.spacer ⟨7, 9⟩))]
    ∃ m p placed, root.measure (.upTo ⟨10, 10⟩) = .ok m ∧ m.size = ⟨10, 10⟩ ∧
      m.node.place ⟨⟨3, 7⟩, ⟨10, 10⟩⟩ = .ok p ∧
      m.visit.last? [4] = some ⟨.exactly ⟨10, 9⟩, ⟨10, 9⟩⟩ ∧
      p.node.HasCell 1 1 placed ∧ placed.bounds = ⟨⟨23, 12⟩, ⟨10, 9⟩⟩ := by
  intro root
  have hnumbered : root.IsNumbered := rfl
  have hinsets : root.AllReached HasNonnegInsets := by decide +kernel
  obtain ⟨m, hm, hfound⟩ := map_eq_ok_iff.1 (by decide +kernel : (fun m => (m.size,
      m.node.grid?.map fun sized => (sized.widths, sized.heights),
      (m.node.place ⟨⟨3, 7⟩, ⟨10, 10⟩⟩).toOption.isSome)) <$> root.measure (.upTo ⟨10, 10⟩) =
    .ok (⟨10, 10⟩, some (#[20, 10, 7], #[5, 9]), true))
  simp only [Prod.mk.injEq] at hfound
  obtain ⟨hsize, hextents, hplaced⟩ := hfound
  obtain ⟨p, hp⟩ := exists_of_isSome hplaced
  obtain ⟨sized, hsized, -, -, -, hcells, -⟩ := table_tiles hnumbered hinsets hm
  rw [hsized] at hextents
  obtain ⟨hwidths, hheights⟩ := Prod.mk.inj (Option.some.inj hextents)
  obtain ⟨⟨width, height⟩, hslot, hlast, hplaces⟩ := hcells 1 1 _ ⟨rfl, rfl⟩
  obtain ⟨placed, hcell, hbounds⟩ := hplaces _ p hp
  rw [hwidths, hheights] at hbounds
  have hw : sized.widths[1]? = some width := hslot .horizontal
  have hh : sized.heights[1]? = some height := hslot .vertical
  rw [hwidths] at hw
  rw [hheights] at hh
  obtain rfl := Option.some.inj hw
  obtain rfl := Option.some.inj hh
  exact ⟨m, p, placed, hm, hsize, hp, hlast, hcell, hbounds⟩

end Node

end BoxLayout
