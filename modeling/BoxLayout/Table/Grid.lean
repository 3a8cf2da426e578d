import BoxLayout.Constraints.Derive
import BoxLayout.Rect

/-!
# Grids

The arithmetic of a table: its dimensions, the *tracks* (columns along the horizontal axis, rows
along the vertical one) and the extents that measuring gave them. Cells are listed row by row, so
cell `i` lies in column `i % cols` and row `i / cols`. Each track is as large as its largest cell,
and every cell fills its slot whatever box the table gets.

The dimensions of a table may be such that memory cannot hold its cells, or not the extents of its
tracks. A table of the first kind is *oversized*: it keeps its dimensions and has no cells. One of
the second kind, which may do without cells if it has tracks along one axis only, cannot be
measured.

* `trackOf_index`: the cell at a row and a column lies in the tracks so numbered.
* `tracks_eq`: the cells fall into tracks by their numbers.
* `size_extents_measured`: after measuring there is an extent for every track.
* `getElem?_lines`: a track starts where the extents of those before it end.
-/

namespace BoxLayout

/-- The dimensions of a table and the extents of its tracks. -/
structure Grid where
  rows : Nat := 0
  cols : Nat := 0
  /-- The dimensions have been set. -/
  sized : Bool := false
  /-- The widths of the columns, empty before the first measuring. -/
  widths : Array Int := #[]
  /-- The heights of the rows, empty before the first measuring. -/
  heights : Array Int := #[]
  deriving DecidableEq, Repr, Inhabited

namespace Grid

/-- The greatest number that a cell can have. -/
def maxIndex : Nat := 18446744073709551615

/-- The number of bytes that memory holds in one piece. -/
def maxBytes : Nat := 9223372036854775807

/-- The greatest number of tracks along one axis, the extent of each of which takes 4 bytes. -/
def maxTracks : Nat := maxBytes / 4

/-- The greatest number of cells, each of which takes 120 bytes. -/
def maxCells : Nat := maxBytes / 120

/-- Sets the dimensions, which is possible once. -/
def setSize (grid : Grid) (rows cols : Nat) : Except Fault Grid :=
  if grid.sized then .error (.alreadySized grid.rows grid.cols)
  else .ok { grid with rows, cols, sized := true }

/-- The number of cells. -/
def size (grid : Grid) : Nat := grid.rows * grid.cols

/-- There are more cells than memory can hold. -/
def isOversized (grid : Grid) : Bool := maxCells < grid.size

/-- The number of cells that a table has: one for each row and column, or none if memory cannot hold
that many. -/
def cellCount (grid : Grid) : Nat := if grid.isOversized then 0 else grid.size

/-- There are more tracks along one axis than memory can hold. -/
def hasTooManyTracks (grid : Grid) : Bool := maxTracks < grid.cols || maxTracks < grid.rows

/-- Finds room for the cells, after counting them. -/
def reserve (grid : Grid) : Except Fault Unit :=
  if maxIndex < grid.size then .error .overflow
  else if grid.isOversized then .error .capacity
  else .ok ()

/-- The grid of a table with the given dimensions. -/
def ofSize (rows cols : Nat) : Except Fault Grid := do
  let grid : Grid := { rows, cols, sized := true }
  grid.reserve
  return grid

/-- The number of a cell. -/
def index (grid : Grid) (row col : Nat) : Except Fault Nat :=
  if row < grid.rows ∧ col < grid.cols then
    if row * grid.cols + col ≤ maxIndex then .ok (row * grid.cols + col) else .error .overflow
  else .error (.cellOutOfRange row col grid.rows grid.cols)

/-- The number of tracks along one axis. -/
def count (grid : Grid) : Axis → Nat
  | .horizontal => grid.cols
  | .vertical => grid.rows

/-- The extents of the tracks along one axis. -/
def extents (grid : Grid) : Axis → Array Int
  | .horizontal => grid.widths
  | .vertical => grid.heights

/-- The track of cell `i` along one axis. -/
def trackOf (grid : Grid) (axis : Axis) (i : Nat) : Nat :=
  match axis with
  | .horizontal => i % grid.cols
  | .vertical => i / grid.cols

/-- What the cells of one track hold, from cells in order. -/
def track {α : Type} (grid : Grid) (axis : Axis) (k : Nat) (cells : List (Option α)) : List α :=
  cells.zipIdx.filterMap fun (cell, i) => if grid.trackOf axis i = k then cell else none

/-- Adds what a numbered cell holds in front of what its track holds. -/
def sortIn {α : Type} (grid : Grid) (axis : Axis) (cell : Option α × Nat)
    (tracks : Array (List α)) : Array (List α) :=
  match cell with
  | (none, _) => tracks
  | (some a, i) => tracks.modify (grid.trackOf axis i) (a :: ·)

/-- What the cells hold, track by track. -/
def tracks {α : Type} (grid : Grid) (axis : Axis) (cells : List (Option α)) : Array (List α) :=
  cells.zipIdx.foldr (sortIn grid axis) (Array.replicate (grid.count axis) [])

/-! ## Measuring -/

/-- The extents of the tracks along one axis for cells of the given sizes. -/
def cover (grid : Grid) (axis : Axis) (sizes : List (Option Size)) : Array Int :=
  (grid.tracks axis sizes).map fun track => (track.map (·.along axis)).foldl max 0

/-- The grid once its cells have been found to have the given sizes. -/
def measured (grid : Grid) (sizes : List (Option Size)) : Grid :=
  { grid with widths := grid.cover .horizontal sizes, heights := grid.cover .vertical sizes }

/-- The size of the slot of cell `i`. -/
def slotSize (grid : Grid) (i : Nat) : Size :=
  ⟨grid.widths.getD (grid.trackOf .horizontal i) 0, grid.heights.getD (grid.trackOf .vertical i) 0⟩

/-- The size of all slots together. -/
def contentSize (grid : Grid) : Size :=
  ⟨Extent.total grid.widths.toList, Extent.total grid.heights.toList⟩

/-- The least extent along one axis for cells with the given least extents. -/
def minExtent (grid : Grid) (axis : Axis) (extents : List (Option Int)) : Int :=
  Extent.total ((grid.tracks axis extents).map Extent.largest).toList

/-- The extent of one track along an axis on which the table has `v`. -/
def share (grid : Grid) (axis : Axis) (v : Int) : Except Fault Int :=
  Extent.scale v 1 (max (grid.count axis) 1)

/-! ## Placing -/

/-- There is an extent for every track. -/
def isMeasured (grid : Grid) : Bool :=
  grid.widths.size == grid.cols && grid.heights.size == grid.rows

/-- Where the tracks along one axis start if the first one starts at `pos`, and where the last one
ends. These are exact numbers, which may lie beyond the extents. -/
def lines (grid : Grid) (axis : Axis) (pos : Int) : Array Int :=
  (grid.extents axis).foldl (fun lines v => lines.push (lines.back?.getD pos + v)) #[pos]

/-- Where the last track along one axis ends if the first one starts at `pos`. -/
def stop (grid : Grid) (axis : Axis) (pos : Int) : Except Fault Int :=
  Extent.checked ((grid.extents axis).foldl (· + ·) pos)

/-- The slot of cell `i`, for columns and rows that start at the given lines. The columns are known
to end in range; a row need not. -/
def slot (grid : Grid) (lefts tops : Array Int) (i : Nat) : Except Fault Rect := do
  let top ← Extent.checked (tops.getD (grid.trackOf .vertical i) 0)
  return ⟨⟨lefts.getD (grid.trackOf .horizontal i) 0, top⟩, grid.slotSize i⟩

/-! ## Dimensions -/

theorem reserve_eq_ok_iff {grid : Grid} : grid.reserve = .ok () ↔ grid.isOversized = false := by
  have hmax : maxCells < maxIndex := by decide
  unfold reserve isOversized
  split
  · simp only [reduceCtorEq, decide_eq_false_iff_not, false_iff]
    omega
  · split <;> simp_all

theorem cellCount_of_isOversized_eq_false {grid : Grid} (h : grid.isOversized = false) :
    grid.cellCount = grid.size := if_neg (Bool.eq_false_iff.1 h)

theorem cellCount_le_size (grid : Grid) : grid.cellCount ≤ grid.size := by
  unfold cellCount
  split <;> omega

theorem cellCount_le_maxCells (grid : Grid) : grid.cellCount ≤ maxCells := by
  unfold cellCount
  split
  · exact Nat.zero_le _
  · rename_i h
    exact Nat.not_lt.1 (mt decide_eq_true h)

/-! ## Indices -/

theorem index_eq_ok_iff {grid : Grid} {row col i : Nat} :
    grid.index row col = .ok i ↔
      (row < grid.rows ∧ col < grid.cols) ∧ row * grid.cols + col ≤ maxIndex ∧
        i = row * grid.cols + col := by
  unfold index
  split <;> rename_i h
  · split <;> rename_i hc
    · simp [h, hc, eq_comm]
    · simp [hc]
  · simp [h]

theorem index_lt_size {grid : Grid} {row col i : Nat} (h : grid.index row col = .ok i) :
    i < grid.size := by
  obtain ⟨⟨hr, hc⟩, _, rfl⟩ := index_eq_ok_iff.1 h
  have := Nat.mul_le_mul_right grid.cols hr
  rw [Nat.succ_mul] at this
  unfold size
  omega

theorem trackOf_index {grid : Grid} {row col i : Nat} (h : grid.index row col = .ok i) :
    grid.trackOf .horizontal i = col ∧ grid.trackOf .vertical i = row := by
  obtain ⟨⟨hr, hc⟩, _, rfl⟩ := index_eq_ok_iff.1 h
  have hpos : 0 < grid.cols := Nat.zero_lt_of_lt hc
  constructor
  · simp [trackOf, Nat.mul_comm row, Nat.mod_eq_of_lt hc]
  · simp [trackOf, Nat.mul_comm row, Nat.mul_add_div hpos, Nat.div_eq_of_lt hc]

/-! ## Tracks -/

theorem getElem?_foldr_sortIn {α : Type} (grid : Grid) (axis : Axis)
    (cells : List (Option α × Nat)) (tracks : Array (List α)) (k : Nat) :
    (cells.foldr (sortIn grid axis) tracks)[k]? =
      tracks[k]?.map ((cells.filterMap fun (cell, i) =>
        if grid.trackOf axis i = k then cell else none) ++ ·) := by
  induction cells with
  | nil => simp
  | cons cell rest ih =>
    obtain ⟨content, i⟩ := cell
    rw [List.foldr_cons, List.filterMap_cons]
    cases content with
    | none =>
      simp only [sortIn, ite_self]
      exact ih
    | some a =>
      simp only [sortIn]
      rw [Array.getElem?_modify, ih]
      split
      · rename_i h
        cases tracks[k]? <;> simp
      · rename_i h
        simp

theorem tracks_eq {α : Type} (grid : Grid) (axis : Axis) (cells : List (Option α)) :
    (grid.tracks axis cells).toList =
      (List.range (grid.count axis)).map fun k => grid.track axis k cells := by
  apply List.ext_getElem? fun k => ?_
  rw [Array.getElem?_toList, tracks, getElem?_foldr_sortIn, List.getElem?_map,
    Array.getElem?_replicate]
  by_cases h : k < grid.count axis
  · rw [List.getElem?_range h]
    simp [h, track]
  · rw [List.getElem?_eq_none (by simpa using h)]
    simp [h]

theorem size_tracks {α : Type} (grid : Grid) (axis : Axis) (cells : List (Option α)) :
    (grid.tracks axis cells).size = grid.count axis := by
  rw [← Array.length_toList, tracks_eq, List.length_map, List.length_range]

theorem size_extents_measured (grid : Grid) (sizes : List (Option Size)) (axis : Axis) :
    ((grid.measured sizes).extents axis).size = grid.count axis := by
  cases axis <;> simp [measured, extents, cover, size_tracks]

theorem isMeasured_measured (grid : Grid) (sizes : List (Option Size)) :
    (grid.measured sizes).isMeasured = true := by
  simp [isMeasured, measured, cover, size_tracks, count]

/-! ## Lines -/

theorem toList_foldl_push (extents : List Int) (lines : Array Int) (pos last : Int)
    (h : lines.back? = some last) :
    (extents.foldl (fun lines v => lines.push (lines.back?.getD pos + v)) lines).toList =
      lines.toList ++ (List.range extents.length).map fun k =>
        (extents.take (k + 1)).foldl (· + ·) last := by
  induction extents generalizing lines last with
  | nil => simp
  | cons v rest ih =>
    rw [List.foldl_cons, h, Option.getD_some, ih (lines.push (last + v)) (last + v) (by simp),
      List.length_cons, List.range_succ_eq_map]
    simp [Function.comp_def]

theorem getElem?_lines {grid : Grid} {axis : Axis} {k : Nat} (pos : Int)
    (h : k ≤ (grid.extents axis).size) :
    (grid.lines axis pos)[k]? = some (((grid.extents axis).toList.take k).foldl (· + ·) pos) := by
  rw [← Array.getElem?_toList, lines, ← Array.foldl_toList, toList_foldl_push _ _ pos pos (by simp)]
  cases k with
  | zero => simp
  | succ k =>
    rw [List.getElem?_append_right (by simp)]
    simp [List.getElem?_range (show k < (grid.extents axis).size from h)]

end Grid

end BoxLayout
