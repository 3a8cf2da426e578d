import BoxLayout.Proofs.Placing

/-!
# Tables place each cell in a slot of its own

In a box as large as its tracks together a table gives every cell the exact slot where its tracks
cross (`Grid.slotIn`). Slots lie inside the box and apart from each other, so that a placed table is
tidy (`Node.Arranges.table`).
-/

namespace BoxLayout

namespace Grid

variable {grid : Grid} {rect : Rect} {i j : Nat}

/-- Where the tracks before track `k` end along one axis, if the first one starts at zero. -/
def before (grid : Grid) (axis : Axis) (k : Nat) : Int := ((grid.extents axis).toList.take k).sum

/-- The slot of cell `i` in a box. -/
def slotIn (grid : Grid) (rect : Rect) (i : Nat) : Rect :=
  ⟨⟨rect.origin.x + grid.before .horizontal (grid.trackOf .horizontal i),
    rect.origin.y + grid.before .vertical (grid.trackOf .vertical i)⟩, grid.slotSize i⟩

/-- There is an extent for every track, and none is negative. -/
structure HasTracks (grid : Grid) : Prop where
  isMeasured : grid.isMeasured = true
  nonneg : ∀ axis, ∀ v ∈ (grid.extents axis).toList, 0 ≤ v

/-- The tracks are lengths, one for each number, and the box is as large as all of them. -/
structure HasRoom (grid : Grid) (rect : Rect) : Prop extends grid.HasTracks where
  isProper : rect.IsProper
  sum_le : ∀ axis, (grid.extents axis).toList.sum ≤ rect.extent axis

theorem start_slotIn (axis : Axis) : (grid.slotIn rect i).start axis =
    rect.start axis + grid.before axis (grid.trackOf axis i) := by cases axis <;> rfl

theorem size_extents (h : grid.isMeasured = true) (axis : Axis) :
    (grid.extents axis).size = grid.count axis := by
  simp only [isMeasured, Bool.and_eq_true, beq_iff_eq] at h
  cases axis with
  | horizontal => exact h.1
  | vertical => exact h.2

theorem exists_extent (h : grid.HasTracks) (hi : i < grid.size) (axis : Axis) :
    ∃ v, (grid.extents axis)[grid.trackOf axis i]? = some v ∧ 0 ≤ v ∧
      (grid.slotSize i).along axis = v ∧
      grid.before axis (grid.trackOf axis i + 1) = grid.before axis (grid.trackOf axis i) + v := by
  have hk : grid.trackOf axis i < (grid.extents axis).size :=
    size_extents h.isMeasured axis ▸ trackOf_lt_count axis hi
  have hv := Array.getElem?_eq_getElem hk
  refine ⟨_, hv, h.nonneg axis _ (Array.mem_toList_iff.2 (Array.getElem_mem hk)), ?_, ?_⟩
  · rw [along_slotSize, Array.getD_eq_getD_getElem?, hv, Option.getD_some]
  · exact Extent.sum_take_succ (Array.getElem?_toList ▸ hv)

theorem far_slotIn (h : grid.HasTracks) (hi : i < grid.size) (axis : Axis) :
    (grid.slotIn rect i).far axis =
      rect.start axis + grid.before axis (grid.trackOf axis i + 1) := by
  obtain ⟨v, -, -, hsize, hnext⟩ := exists_extent h hi axis
  rw [Rect.far, start_slotIn, hnext, ← hsize, Int.add_assoc]
  rfl

theorem isInside_slotIn (h : grid.HasRoom rect) (hi : i < grid.size) :
    (grid.slotIn rect i).IsInside rect := by
  intro axis
  have hbefore : 0 ≤ grid.before axis (grid.trackOf axis i) :=
    List.sum_nonneg fun v hv => h.nonneg axis v (List.mem_of_mem_take hv)
  have hafter : grid.before axis (grid.trackOf axis i + 1) ≤ rect.extent axis :=
    Int.le_trans ((List.take_sublist _ _).sum_le_sum (h.nonneg axis)) (h.sum_le axis)
  rw [start_slotIn, far_slotIn h.toHasTracks hi, Rect.far]
  omega

theorem eq_of_trackOf (h : ∀ axis, grid.trackOf axis i = grid.trackOf axis j) : i = j := by
  have hcol : i % grid.cols = j % grid.cols := h .horizontal
  have hrow : i / grid.cols = j / grid.cols := h .vertical
  rw [← Nat.div_add_mod i grid.cols, hcol, hrow, Nat.div_add_mod]

/-- Two cells lie in different tracks along some axis. -/
theorem isApart_slotIn (h : grid.HasTracks) (hi : i < grid.size) (hj : j < grid.size)
    (hne : i ≠ j) : (grid.slotIn rect i).IsApart (grid.slotIn rect j) := by
  obtain ⟨axis, haxis⟩ := Classical.not_forall.1 fun h => hne (eq_of_trackOf h)
  have hmono {k l : Nat} (hkl : k ≤ l) : grid.before axis k ≤ grid.before axis l :=
    (List.take_sublist_take_left hkl).sum_le_sum fun v hv =>
      h.nonneg axis v (List.mem_of_mem_take hv)
  refine ⟨axis, ?_⟩
  rw [far_slotIn h hi, far_slotIn h hj, start_slotIn, start_slotIn]
  rcases Nat.lt_or_gt_of_ne haxis with hlt | hlt
  · have := hmono (Nat.succ_le_of_lt hlt)
    exact .inl (Int.add_le_add_left this _)
  · have := hmono (Nat.succ_le_of_lt hlt)
    exact .inr (Int.add_le_add_left this _)

theorem stop_isOk (h : grid.HasRoom rect) (axis : Axis) :
    ∃ v, grid.stop axis (rect.start axis) = .ok v := by
  obtain ⟨hstart, hextent, hinf⟩ := h.isProper axis
  have hnn := List.sum_nonneg (h.nonneg axis)
  have hle := h.sum_le axis
  unfold Rect.far at hinf
  have hword : Extent.inf = 2147483647 := rfl
  rw [stop, ← Array.foldl_toList, Extent.foldl_add]
  exact ⟨_, Extent.IsLength.checked_eq ⟨by omega, by omega⟩⟩

theorem getD_lines (h : grid.isMeasured = true) (hi : i < grid.size) (axis : Axis) (pos : Int) :
    (grid.lines axis pos).getD (grid.trackOf axis i) 0 =
      pos + grid.before axis (grid.trackOf axis i) := by
  have hk := trackOf_lt_count axis hi
  rw [← size_extents h axis] at hk
  rw [Array.getD_eq_getD_getElem?, getElem?_lines pos (Nat.le_of_lt hk), Option.getD_some,
    Extent.foldl_add, before]

/-- A cell that gets a slot gets its own. -/
theorem eq_of_slot (h : grid.isMeasured = true) (hi : i < grid.size) {slot : Rect}
    (hs : grid.slot (grid.lines .horizontal rect.origin.x) (grid.lines .vertical rect.origin.y) i =
      .ok slot) : slot = grid.slotIn rect i := by
  rw [Grid.slot, getD_lines h hi, getD_lines h hi] at hs
  obtain ⟨top, htop, hs⟩ := bind_eq_ok_iff.1 hs
  obtain ⟨-, rfl⟩ := Extent.checked_eq_ok_iff.1 htop
  exact (Except.ok.inj hs).symm

theorem slot_eq (h : grid.HasRoom rect) (hi : i < grid.size) :
    grid.slot (grid.lines .horizontal rect.origin.x) (grid.lines .vertical rect.origin.y) i =
      .ok (grid.slotIn rect i) := by
  obtain ⟨hstart, hextent, hinf⟩ := h.isProper .vertical
  obtain ⟨hs, hf⟩ := isInside_slotIn h hi .vertical
  obtain ⟨v, -, hv, hsize, -⟩ := exists_extent h.toHasTracks hi .vertical
  have htop : Extent.IsLength ((grid.slotIn rect i).start .vertical) := by
    refine ⟨by omega, ?_⟩
    unfold Rect.far at hf hinf
    have : (grid.slotIn rect i).extent .vertical = v := hsize
    omega
  rw [slot, getD_lines h.isMeasured hi, getD_lines h.isMeasured hi]
  exact bind_eq_ok_iff.2 ⟨_, htop.checked_eq, rfl⟩

end Grid

instance : Inhabited Placed := ⟨⟨default, .mk "" ⟨default, none⟩ []⟩⟩

namespace Node

theorem placeCells_map_pick (r : Node → Node) (hr : ∀ child, (r child).isLive = child.isLive)
    (slot : Nat → Except Fault Rect) (cells : List (Option Node)) :
    placeCells slot 0 [] (cells.map (Option.map r)) =
      pickM isLiveCell (fun cell => slot cell.2 >>= (r (content cell)).place) cells.zipIdx := by
  rw [placeCells_eq, List.zipIdx_map, List.mapM_map, pickM]
  refine congrArg (List.mapM · cells.zipIdx) (funext fun cell => ?_)
  obtain ⟨found, i⟩ := cell
  cases found with
  | none => rfl
  | some node =>
    simp only [Function.comp, Prod.map, Option.map_some, placeCell, hr]
    by_cases hl : node.isLive = true
    · rw [if_pos hl, if_pos (show isLiveCell (some node, i) = true from hl)]
      cases hs : slot i <;> simp only [id, hs] <;> rfl
    · rw [if_neg hl, if_neg (show ¬ isLiveCell (some node, i) = true from hl)]

theorem placeCells_pick (slot : Nat → Except Fault Rect) (cells : List (Option Node)) :
    placeCells slot 0 [] cells =
      pickM isLiveCell (fun cell => slot cell.2 >>= (content cell).place) cells.zipIdx := by
  have h := placeCells_map_pick id (fun _ => rfl) slot cells
  rwa [Option.map_id, List.map_id] at h

theorem zipWith_settleCell_placed (f : Option Node × Nat → Placed) (cells : List (Option Node)) :
    List.zipWith Placed.settleCell cells (pick isLiveCell f cells.zipIdx) =
      cells.zipIdx.map fun cell => if isLiveCell cell then some (f cell).node else cell.1 := by
  rw [zipWith_pick_zipIdx]
  refine List.map_congr_left fun cell _ => ?_
  by_cases hp : isLiveCell cell = true
  · simp [hp, Placed.settleCell]
  · simp [hp, Placed.settleCell]

/-- The cells that take part still do if what becomes of them takes part. -/
theorem visited_settled {frame : Frame} {grid : Grid} {f : Option Node × Nat → Node}
    {cells : List (Option Node × Nat)}
    (h : ∀ cell ∈ cells, isLiveCell cell = true → (f cell).isLive = true) :
    (Node.table frame grid (cells.map fun cell =>
        if isLiveCell cell then some (f cell) else cell.1)).visited =
      (cells.filter isLiveCell).map f := by
  induction cells with
  | nil => rfl
  | cons cell rest ih =>
    obtain ⟨hcell, hrest⟩ := List.forall_mem_cons.1 h
    have hr := ih hrest
    rw [visited] at hr
    rw [visited, List.map_cons, List.filter_cons]
    by_cases hl : isLiveCell cell = true
    · rw [if_pos hl, if_pos hl, List.map_cons, List.filterMap_cons_some (f := id) rfl,
        List.filter_cons, if_pos (hcell hl), hr]
    · rw [if_neg hl, if_neg hl]
      obtain ⟨found, i⟩ := cell
      cases found with
      | none => exact hr
      | some node =>
        rw [List.filterMap_cons_some (f := id) (b := node) rfl, List.filter_cons,
          if_neg (show ¬ node.isLive = true from hl), hr]

theorem pairwise_lt_zipIdx {α : Type} (xs : List α) :
    xs.zipIdx.Pairwise fun a b => a.2 < b.2 := by
  refine List.pairwise_map.1 ?_
  rw [List.zipIdx_map_snd]
  exact List.pairwise_lt_range'

/-- A table of children in the slots of their cells is tidy. -/
theorem allReached_isTidy_table {frame : Frame} {grid : Grid} {cells : List (Option Node)}
    {g : Option Node × Nat → Node} (hroom : grid.HasRoom frame.bounds)
    (hl : cells.length ≤ grid.size)
    (hg : ∀ cell ∈ cells.zipIdx, isLiveCell cell = true →
      (g cell).bounds = grid.slotIn frame.bounds cell.2 ∧ (g cell).AllReached IsTidy ∧
        (g cell).isLive = (content cell).isLive) :
    (Node.table frame grid (cells.zipIdx.map fun cell =>
      if isLiveCell cell then some (g cell) else cell.1)).AllReached IsTidy := by
  have hnumber {cell : Option Node × Nat} (h : cell ∈ cells.zipIdx) : cell.2 < grid.size :=
    Nat.lt_of_lt_of_le (List.getElem?_eq_some_iff.1 (List.mem_zipIdx_iff_getElem?.1 h)).1 hl
  have hvisited := @visited_settled frame grid g cells.zipIdx fun cell hmem hlc =>
    (hg cell hmem hlc).2.2.trans (exists_of_isLiveCell hmem hlc).2.2
  rw [allReached_iff, hvisited]
  refine ⟨⟨?_, ?_, ?_⟩, ?_⟩
  · rw [hvisited]
    refine forall_mem_map_filter.2 fun cell hmem hlc => ?_
    rw [(hg cell hmem hlc).1]
    exact Grid.isInside_slotIn hroom (hnumber hmem)
  · rw [hvisited]
    refine List.pairwise_map.2 (((pairwise_lt_zipIdx cells).filter _).imp_of_mem ?_)
    intro a b ha hb hlt
    obtain ⟨ha, hla⟩ := List.mem_filter.1 ha
    obtain ⟨hb, hlb⟩ := List.mem_filter.1 hb
    rw [(hg a ha hla).1, (hg b hb hlb).1]
    exact Grid.isApart_slotIn hroom.toHasTracks (hnumber ha) (hnumber hb) (Nat.ne_of_lt hlt)
  · intro _ _ h
    cases h
  · exact forall_mem_map_filter.2 fun cell hmem hlc => (hg cell hmem hlc).2.1

theorem Arranges.table {frame : Frame} {grid : Grid} {cells : List (Option Node)} {size : Size}
    (hl : cells.length ≤ grid.size) (hm : grid.isMeasured = true)
    (hn : ∀ axis, ∀ v ∈ (grid.extents axis).toList, 0 ≤ v)
    (hle : ∀ axis, List.sum (grid.extents axis).toList ≤ size.along axis)
    (hc : ∀ (i : Nat) (child : Node), cells[i]? = some (some child) → child.isLive = true →
      child.Arranges (grid.slotSize i)) : (Node.table frame grid cells).Arranges size := by
  rintro rect rfl hproper
  have hroom : grid.HasRoom rect := ⟨⟨hm, hn⟩, hproper, hle⟩
  have hplaces : ∀ cell ∈ cells.zipIdx, isLiveCell cell = true →
      Outcome (overflowIf ((Node.table frame grid cells).Overruns rect ∧ ¬ rect.IsClose))
      (fun placed : Placed => placed.node.bounds = grid.slotIn rect cell.2 ∧
        placed.node.AllReached IsTidy ∧ placed.node.isLive = (content cell).isLive)
      (grid.slot (grid.lines .horizontal rect.origin.x) (grid.lines .vertical rect.origin.y)
        cell.2 >>= (content cell).place) := fun cell hmem hlive => by
    obtain ⟨-, hi, hlc⟩ := exists_of_isLiveCell hmem hlive
    have hnumber : cell.2 < grid.size :=
      Nat.lt_of_lt_of_le (List.getElem?_eq_some_iff.1 hi).1 hl
    have hslot := Grid.slot_eq hroom hnumber
    refine .bind_ok hslot (Hands.place (.table hi hlc hslot) (hc _ _ hi hlc) hproper
      (Grid.isInside_slotIn hroom hnumber) fun axis => ?_)
    obtain ⟨v, -, hv, hsize, -⟩ := Grid.exists_extent hroom.toHasTracks hnumber axis
    exact show 0 ≤ (grid.slotSize cell.2).along axis from hsize ▸ hv
  obtain ⟨right, hright⟩ : ∃ v, grid.stop .horizontal rect.origin.x = .ok v :=
    Grid.stop_isOk hroom .horizontal
  obtain ⟨bottom, hbottom⟩ : ∃ v, grid.stop .vertical rect.origin.y = .ok v :=
    Grid.stop_isOk hroom .vertical
  have hplaced := Outcome.pickM hplaces
  rw [← placeCells_pick] at hplaced
  rw [place, if_pos hm]
  refine Outcome.map (.bind_ok hright (hplaced.bind ?_)) fun _ => id
  rintro _ ⟨g, hg, rfl⟩
  refine .bind_ok hbottom (.ok ⟨rfl, ?_, by rw [isLive_table, isLive_table]⟩)
  rw [zipWith_settleCell_placed]
  exact @allReached_isTidy_table { frame with bounds := rect } _ _ _ hroom hl hg

end Node

end BoxLayout
