import BoxLayout.Proofs.Lengths
import BoxLayout.Proofs.Limits
import BoxLayout.Table.Grid

/-!
# Tracks of a table

A track is as large as the largest cell in it, so the slots that measuring gives the cells are
lengths where the cells are (`isProper_slotSize`), and no cell is larger than its track
(`exists_track_ge`).
-/

namespace BoxLayout

namespace Grid

variable {grid : Grid} {axis : Axis}

theorem trackOf_lt_count (axis : Axis) {i : Nat} (h : i < grid.size) :
    grid.trackOf axis i < grid.count axis := by
  have hcols : 0 < grid.cols := Nat.pos_of_mul_pos_left (Nat.zero_lt_of_lt h)
  cases axis with
  | horizontal => exact Nat.mod_lt i hcols
  | vertical => exact Nat.div_lt_of_lt_mul (Nat.mul_comm grid.rows _ ▸ h)

theorem mem_track {α : Type} {k : Nat} {cells : List (Option α)} {a : α} :
    a ∈ grid.track axis k cells ↔ ∃ i, cells[i]? = some (some a) ∧ grid.trackOf axis i = k := by
  simp only [track, List.mem_filterMap]
  constructor
  · rintro ⟨⟨cell, i⟩, hm, h⟩
    dsimp only at h
    split at h
    · rename_i hk
      exact ⟨i, h ▸ List.mem_zipIdx_iff_getElem?.1 hm, hk⟩
    · cases h
  · rintro ⟨i, hi, hk⟩
    exact ⟨(some a, i), List.mem_zipIdx_iff_getElem?.2 hi, if_pos hk⟩

theorem track_map {α β : Type} (f : α → β) (k : Nat) (cells : List (Option α)) :
    grid.track axis k (cells.map (Option.map f)) = (grid.track axis k cells).map f := by
  simp only [track, List.zipIdx_map, List.filterMap_map, List.map_filterMap]
  refine congrArg (List.filterMap · cells.zipIdx) (funext fun cell => ?_)
  simp only [Function.comp, Prod.map, id]
  by_cases hk : grid.trackOf axis cell.2 = k <;> simp [hk]

theorem toList_cover (sizes : List (Option Size)) : (grid.cover axis sizes).toList =
    (List.range (grid.count axis)).map fun k =>
      ((grid.track axis k sizes).map (·.along axis)).foldl max 0 := by
  rw [cover, Array.toList_map, tracks_eq, List.map_map]
  rfl

theorem getElem?_cover {sizes : List (Option Size)} {k : Nat} (hk : k < grid.count axis) :
    (grid.cover axis sizes)[k]? =
      some (((grid.track axis k sizes).map (·.along axis)).foldl max 0) := by
  rw [← Array.getElem?_toList, toList_cover, List.getElem?_map, List.getElem?_range hk]
  rfl

@[simp] theorem extents_measured (sizes : List (Option Size)) :
    (grid.measured sizes).extents axis = grid.cover axis sizes := by cases axis <;> rfl

@[simp] theorem trackOf_measured (sizes : List (Option Size)) (i : Nat) :
    (grid.measured sizes).trackOf axis i = grid.trackOf axis i := by cases axis <;> rfl

theorem along_slotSize (i : Nat) :
    (grid.slotSize i).along axis = (grid.extents axis).getD (grid.trackOf axis i) 0 := by
  cases axis <;> rfl

theorem along_contentSize : grid.contentSize.along axis =
    Extent.total (grid.extents axis).toList := by cases axis <;> rfl

/-- The least extent of a table is that of the tracks that cover its cells. -/
theorem minExtent_eq_total_cover {sizes : List (Option Size)}
    (h : ∀ size, some size ∈ sizes → 0 ≤ size.along axis) :
    grid.minExtent axis (sizes.map (Option.map (·.along axis))) =
      Extent.total (grid.cover axis sizes).toList := by
  rw [minExtent, Array.toList_map, tracks_eq, List.map_map, toList_cover]
  refine congrArg Extent.total (List.map_congr_left fun k _ => ?_)
  rw [Function.comp, track_map]
  refine Extent.largest_eq_foldl fun v hv => ?_
  obtain ⟨size, hs, rfl⟩ := List.mem_map.1 hv
  obtain ⟨i, hi, -⟩ := mem_track.1 hs
  exact h size (List.mem_of_getElem? hi)

theorem nonneg_of_mem_cover {sizes : List (Option Size)} :
    ∀ v ∈ (grid.cover axis sizes).toList, 0 ≤ v := by
  intro v hv
  rw [toList_cover] at hv
  obtain ⟨k, -, rfl⟩ := List.mem_map.1 hv
  exact Extent.le_foldl_max.1

/-- The track of a cell has an extent, and no less than the cell. -/
theorem exists_track_ge (axis : Axis) {sizes : List (Option Size)} {i : Nat}
    (hi : i < grid.size) {size : Size} (hs : sizes[i]? = some (some size)) :
    ∃ v, (grid.cover axis sizes)[grid.trackOf axis i]? = some v ∧ size.along axis ≤ v :=
  ⟨_, getElem?_cover (trackOf_lt_count axis hi),
    Extent.le_foldl_max.2 _ (List.mem_map_of_mem (mem_track.2 ⟨i, hs, rfl⟩))⟩

theorem along_slotSize_bounds (axis : Axis) {sizes : List (Option Size)} {i : Nat}
    (hi : i < grid.size) {size : Size} (hs : sizes[i]? = some (some size)) :
    size.along axis ≤ ((grid.measured sizes).slotSize i).along axis ∧
      ((grid.measured sizes).slotSize i).along axis ≤ List.sum (grid.cover axis sizes).toList := by
  obtain ⟨v, hv, hle⟩ := exists_track_ge axis hi hs
  rw [along_slotSize, extents_measured, trackOf_measured, Array.getD_eq_getD_getElem?, hv]
  exact ⟨hle, List.single_le_sum nonneg_of_mem_cover _
    (Array.mem_toList_iff.2 (Array.mem_of_getElem? hv))⟩

theorem isLength_of_mem_cover {sizes : List (Option Size)}
    (h : ∀ size, some size ∈ sizes → size.IsProper) :
    ∀ v ∈ (grid.cover axis sizes).toList, Extent.IsLength v := by
  intro v hv
  rw [toList_cover] at hv
  obtain ⟨k, -, rfl⟩ := List.mem_map.1 hv
  refine Extent.isLength_foldl_max fun v hv => ?_
  obtain ⟨size, hs, rfl⟩ := List.mem_map.1 hv
  obtain ⟨i, hi, -⟩ := mem_track.1 hs
  exact h size (List.mem_of_getElem? hi) axis

theorem isProper_slotSize {sizes : List (Option Size)}
    (h : ∀ size, some size ∈ sizes → size.IsProper) (i : Nat) :
    ((grid.measured sizes).slotSize i).IsProper := by
  intro axis
  rw [along_slotSize, extents_measured, Array.getD_eq_getD_getElem?]
  cases hv : (grid.cover axis sizes)[(grid.measured sizes).trackOf axis i]? with
  | none => exact Extent.isLength_zero
  | some v => exact isLength_of_mem_cover h v (Array.mem_toList_iff.2 (Array.mem_of_getElem? hv))

end Grid

end BoxLayout
