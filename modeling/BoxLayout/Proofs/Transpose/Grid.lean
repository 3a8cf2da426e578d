import Mathlib.Data.List.Nodup
import BoxLayout.Proofs.Cells
import BoxLayout.Proofs.Transpose.Basic

/-!
# Exchanging rows and columns

The grid with rows and columns exchanged (`Grid.transpose`), and its cells in the order in which
they come to lie then (`Grid.turn`). A table goes through its cells in another order after that, so
what it makes of them agrees only where the order is of no matter: each track holds the same cells
(`perm_track`), and as large as its largest cell it is as large as it was (`cover_transpose`).
-/

namespace BoxLayout

namespace Grid

def transpose (grid : Grid) : Grid :=
  { grid with rows := grid.cols, cols := grid.rows, widths := grid.heights, heights := grid.widths }

/-- The number of the cell that comes to lie at number `j` when rows and columns are exchanged. -/
def source (grid : Grid) (j : Nat) : Nat := j % grid.rows * grid.cols + j / grid.rows

/-- The cells in the order in which they come to lie when rows and columns are exchanged. -/
def turn {α : Type} (grid : Grid) (cells : List (Option α)) : List (Option α) :=
  (List.range cells.length).map fun j => cells[grid.source j]?.join

/-- Two rows of three cells become three rows of two. -/
example : turn { rows := 2, cols := 3 } ([1, 2, 3, 4, 5, 6].map some) =
    [1, 4, 2, 5, 3, 6].map some := by decide

variable {grid : Grid} {i j : Nat}

@[simp] theorem transpose_transpose (grid : Grid) : grid.transpose.transpose = grid := rfl

@[simp] theorem size_transpose (grid : Grid) : grid.transpose.size = grid.size :=
  Nat.mul_comm ..

@[simp] theorem isOversized_transpose (grid : Grid) :
    grid.transpose.isOversized = grid.isOversized := by
  rw [isOversized, isOversized, size_transpose]

@[simp] theorem cellCount_transpose (grid : Grid) : grid.transpose.cellCount = grid.cellCount := by
  rw [cellCount, cellCount, isOversized_transpose, size_transpose]

@[simp] theorem hasTooManyTracks_transpose (grid : Grid) :
    grid.transpose.hasTooManyTracks = grid.hasTooManyTracks := Bool.or_comm ..

@[simp] theorem count_transpose (axis : Axis) :
    grid.transpose.count axis = grid.count axis.flip := by cases axis <;> rfl

@[simp] theorem extents_transpose (axis : Axis) :
    grid.transpose.extents axis = grid.extents axis.flip := by cases axis <;> rfl

@[simp] theorem isMeasured_transpose (grid : Grid) :
    grid.transpose.isMeasured = grid.isMeasured := Bool.and_comm ..

@[simp] theorem share_transpose (axis : Axis) (v : Int) :
    grid.transpose.share axis v = grid.share axis.flip v := by
  rw [share, share, count_transpose]

@[simp] theorem contentSize_transpose (grid : Grid) :
    grid.transpose.contentSize = grid.contentSize.transpose := rfl

@[simp] theorem stop_transpose (axis : Axis) (pos : Int) :
    grid.transpose.stop axis pos = grid.stop axis.flip pos := by
  rw [stop, stop, extents_transpose]

@[simp] theorem lines_transpose (axis : Axis) (pos : Int) :
    grid.transpose.lines axis pos = grid.lines axis.flip pos := by
  rw [lines, lines, extents_transpose]

/-! ## The order of the cells -/

theorem source_lt (h : j < grid.size) : grid.source j < grid.size := by
  have hrows : 0 < grid.rows := Nat.pos_of_mul_pos_right (Nat.zero_lt_of_lt h)
  have hrow : j % grid.rows + 1 ≤ grid.rows := Nat.mod_lt j hrows
  have hcol : j / grid.rows < grid.cols := Nat.div_lt_of_lt_mul h
  calc grid.source j < (j % grid.rows + 1) * grid.cols := by
        rw [source, Nat.succ_mul]
        exact Nat.add_lt_add_left hcol _
    _ ≤ grid.rows * grid.cols := Nat.mul_le_mul_right _ hrow

/-- A cell lies in the track in which it came to lie when rows and columns were exchanged. -/
theorem trackOf_source (axis : Axis) (h : j < grid.size) :
    grid.trackOf axis (grid.source j) = grid.transpose.trackOf axis.flip j := by
  have hcol : j / grid.rows < grid.cols := Nat.div_lt_of_lt_mul h
  have hpos : 0 < grid.cols := Nat.zero_lt_of_lt hcol
  cases axis with
  | horizontal =>
    show grid.source j % grid.cols = j / grid.rows
    rw [source, Nat.mul_comm, Nat.mul_add_mod, Nat.mod_eq_of_lt hcol]
  | vertical =>
    show grid.source j / grid.cols = j % grid.rows
    rw [source, Nat.mul_comm, Nat.mul_add_div hpos, Nat.div_eq_of_lt hcol, Nat.add_zero]

theorem source_source (h : i < grid.size) : grid.source (grid.transpose.source i) = i := by
  have h' : i < grid.transpose.size := (size_transpose grid).symm ▸ h
  refine @eq_of_trackOf grid _ _ fun axis => ?_
  rw [trackOf_source axis (size_transpose grid ▸ source_lt h'), trackOf_source _ h',
    Axis.flip_flip, transpose_transpose]

theorem source_lt_cellCount (h : j < grid.cellCount) : grid.source j < grid.cellCount := by
  rcases Bool.eq_false_or_eq_true grid.isOversized with hg | hg
  · rw [cellCount, if_pos hg] at h
    exact absurd h (Nat.not_lt_zero j)
  · rw [cellCount_of_isOversized_eq_false hg] at h ⊢
    exact source_lt h

/-- Every cell comes to lie somewhere, and no two of them at the same place. -/
theorem perm_source (grid : Grid) :
    ((List.range grid.cellCount).map grid.source).Perm (List.range grid.cellCount) := by
  have hsize {i : Nat} (h : i < grid.cellCount) : i < grid.size :=
    Nat.lt_of_lt_of_le h grid.cellCount_le_size
  have hback {j : Nat} (h : j < grid.cellCount) : grid.transpose.source (grid.source j) = j :=
    @source_source grid.transpose _ ((size_transpose grid).symm ▸ hsize h)
  refine (List.perm_ext_iff_of_nodup ?_ List.nodup_range).2 fun i => ?_
  · refine List.Nodup.map_on (fun a ha b hb hab => ?_) List.nodup_range
    rw [← hback (List.mem_range.1 ha), hab, hback (List.mem_range.1 hb)]
  · rw [List.mem_map, List.mem_range]
    constructor
    · rintro ⟨j, hj, rfl⟩
      exact source_lt_cellCount (List.mem_range.1 hj)
    · intro hi
      have hi' : i < grid.transpose.cellCount := (cellCount_transpose grid).symm ▸ hi
      have hsource := cellCount_transpose grid ▸ source_lt_cellCount hi'
      exact ⟨_, List.mem_range.2 hsource, source_source (hsize hi)⟩

/-! ## Lists of cells -/

section Turn

variable {α β : Type} {cells : List (Option α)}

theorem turn_map (f : α → β) (cells : List (Option α)) :
    grid.turn (cells.map (Option.map f)) = (grid.turn cells).map (Option.map f) := by
  rw [turn, turn, List.length_map, List.map_map]
  refine List.map_congr_left fun j _ => ?_
  rw [Function.comp, List.getElem?_map]
  cases cells[grid.source j]? with
  | none => rfl
  | some cell => rfl

theorem zipIdx_turn (cells : List (Option α)) : (grid.turn cells).zipIdx =
    (List.range cells.length).map fun j => (cells[grid.source j]?.join, j) := by
  refine List.ext_getElem? fun j => ?_
  rw [List.getElem?_zipIdx, turn, List.getElem?_map, List.getElem?_map, Nat.zero_add]
  rcases Nat.lt_or_ge j cells.length with h | h
  · rw [List.getElem?_range h]
    rfl
  · rw [List.getElem?_eq_none (by simpa using h)]
    rfl

theorem getElem?_source (h : cells.length = grid.cellCount) (hj : j < grid.cellCount) :
    cells[grid.source j]? = some cells[grid.source j]?.join := by
  rw [List.getElem?_eq_getElem (h ▸ source_lt_cellCount hj)]
  rfl

theorem mem_zipIdx_turn (h : cells.length = grid.cellCount) {cell : Option α × Nat}
    (hc : cell ∈ (grid.turn cells).zipIdx) :
    cell.2 < grid.size ∧ (cell.1, grid.source cell.2) ∈ cells.zipIdx := by
  rw [zipIdx_turn] at hc
  obtain ⟨j, hj, rfl⟩ := List.mem_map.1 hc
  have hj : j < grid.cellCount := h ▸ List.mem_range.1 hj
  exact ⟨Nat.lt_of_lt_of_le hj grid.cellCount_le_size,
    List.mem_zipIdx_iff_getElem?.2 (getElem?_source h hj)⟩

/-- The cells are the same with the numbers that they had before. -/
theorem perm_zipIdx_turn (h : cells.length = grid.cellCount) :
    ((grid.turn cells).zipIdx.map (Prod.map id grid.source)).Perm cells.zipIdx := by
  have hcells : cells.zipIdx = (List.range grid.cellCount).map fun i => (cells[i]?.join, i) := by
    refine List.ext_getElem? fun i => ?_
    rw [List.getElem?_zipIdx, List.getElem?_map, Nat.zero_add]
    rcases Nat.lt_or_ge i grid.cellCount with hi | hi
    · simp [List.getElem?_range hi, List.getElem?_eq_getElem (h ▸ hi : i < cells.length)]
    · rw [List.getElem?_eq_none (h ▸ hi), List.getElem?_eq_none (by simpa using hi)]
      rfl
  have hturn : (grid.turn cells).zipIdx.map (Prod.map id grid.source) =
      ((List.range grid.cellCount).map grid.source).map fun i => (cells[i]?.join, i) := by
    rw [zipIdx_turn, h, List.map_map, List.map_map]
    rfl
  rw [hcells, hturn]
  exact (perm_source grid).map _

theorem perm_turn (h : cells.length = grid.cellCount) : (grid.turn cells).Perm cells := by
  have hperm := (perm_zipIdx_turn h).map Prod.fst
  rw [List.map_map, List.zipIdx_map_fst] at hperm
  have hturn : (grid.turn cells).zipIdx.map (Prod.fst ∘ Prod.map id grid.source) =
      grid.turn cells := List.zipIdx_map_fst 0 (grid.turn cells)
  rwa [hturn] at hperm

/-- What is made of each cell by itself is made of it wherever it lies. -/
theorem map_zipIdx_turn {γ : Type} (r : α → β) (h : cells.length = grid.cellCount)
    {f : Option α × Nat → Option γ} {f' : Option β × Nat → Option γ}
    (hf : ∀ cell ∈ (grid.turn cells).zipIdx,
      f' (cell.1.map r, cell.2) = f (cell.1, grid.source cell.2)) :
    ((grid.turn cells).map (Option.map r)).zipIdx.map f' = grid.turn (cells.zipIdx.map f) := by
  have hmap : ((grid.turn cells).map (Option.map r)).zipIdx.map f' =
      (grid.turn cells).zipIdx.map fun cell => f (cell.1, grid.source cell.2) := by
    rw [List.zipIdx_map, List.map_map]
    exact List.map_congr_left hf
  rw [hmap, zipIdx_turn, turn, List.length_map, List.length_zipIdx, List.map_map]
  refine List.map_congr_left fun j hj => ?_
  have hj : j < grid.cellCount := h ▸ List.mem_range.1 hj
  rw [List.getElem?_map, List.getElem?_zipIdx, getElem?_source h hj]
  simp

/-! ## Tracks -/

theorem perm_track (axis : Axis) (k : Nat) (h : cells.length = grid.cellCount) :
    (grid.transpose.track axis k (grid.turn cells)).Perm (grid.track axis.flip k cells) := by
  have hsame : grid.transpose.track axis k (grid.turn cells) =
      ((grid.turn cells).zipIdx.map (Prod.map id grid.source)).filterMap fun cell =>
        if grid.trackOf axis.flip cell.2 = k then cell.1 else none := by
    rw [track, List.filterMap_map]
    refine List.filterMap_congr fun cell hc => ?_
    have htrack := trackOf_source axis.flip (mem_zipIdx_turn h hc).1
    rw [Axis.flip_flip] at htrack
    simp only [Function.comp, Prod.map, htrack]
    rfl
  rw [hsame]
  exact (perm_zipIdx_turn h).filterMap _

end Turn

theorem cover_transpose (axis : Axis) {sizes : List (Option Size)}
    (h : sizes.length = grid.cellCount) :
    grid.transpose.cover axis (grid.turn (sizes.map (Option.map Size.transpose))) =
      grid.cover axis.flip sizes := by
  refine Array.toList_inj.1 ?_
  rw [toList_cover, toList_cover, count_transpose]
  refine List.map_congr_left fun k _ => ?_
  rw [turn_map, track_map, List.map_map]
  have hsizes : (fun size : Size => size.along axis) ∘ Size.transpose =
      fun size => size.along axis.flip := funext fun size => Size.along_transpose axis size
  rw [hsizes]
  exact ((perm_track axis k h).map _).foldl_eq _

theorem measured_transpose {sizes : List (Option Size)} (h : sizes.length = grid.cellCount) :
    grid.transpose.measured (grid.turn (sizes.map (Option.map Size.transpose))) =
      (grid.measured sizes).transpose := by
  rw [measured, cover_transpose _ h, cover_transpose _ h]
  rfl

theorem minExtent_transpose (axis : Axis) {extents : List (Option Int)}
    (h : extents.length = grid.cellCount) :
    grid.transpose.minExtent axis (grid.turn extents) = grid.minExtent axis.flip extents := by
  rw [minExtent, minExtent, Array.toList_map, Array.toList_map, tracks_eq, tracks_eq,
    count_transpose, List.map_map, List.map_map]
  refine congrArg Extent.total (List.map_congr_left fun k _ => ?_)
  exact Extent.largest_eq_of_perm (perm_track axis k h)

/-! ## Slots -/

theorem slotSize_transpose (h : j < grid.size) :
    grid.transpose.slotSize j = (grid.slotSize (grid.source j)).transpose := by
  refine Size.eq_of_along fun axis => ?_
  rw [Size.along_transpose, along_slotSize, along_slotSize, trackOf_source _ h, Axis.flip_flip,
    extents_transpose]

theorem slot_transpose {lefts tops : Array Int} {slot : Rect} (h : j < grid.size)
    (hs : grid.slot lefts tops (grid.source j) = .ok slot) (hr : Extent.InRange slot.origin.x) :
    grid.transpose.slot tops lefts j = .ok slot.transpose := by
  obtain ⟨top, ht, hs⟩ := bind_eq_ok_iff.1 hs
  cases hs
  have htop := (Extent.checked_eq_ok_iff.1 ht).2
  have hcol : grid.transpose.trackOf .vertical j = grid.trackOf .horizontal (grid.source j) :=
    (trackOf_source .horizontal h).symm
  have hrow : grid.transpose.trackOf .horizontal j = grid.trackOf .vertical (grid.source j) :=
    (trackOf_source .vertical h).symm
  rw [slot, hcol, hrow, slotSize_transpose h, ← htop]
  exact bind_eq_ok_iff.2 ⟨_, Extent.checked_of_inRange hr, rfl⟩

end Grid

end BoxLayout
