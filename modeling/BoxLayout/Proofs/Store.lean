import BoxLayout.Node.Edit
import BoxLayout.Proofs.Conditions
import BoxLayout.Proofs.Remeasure
import BoxLayout.Proofs.Replace

/-!
# What a table holds

A host sizes a table, fills and reads its cells, measures and places it, in any order (`TableCall`).
What the table is then can be told from the calls that went through, without looking at the table:
its dimensions, what each cell was last filled with, whether there are extents for its tracks.
`TableCall.Tells` relates such a history to the parts of a table. Every call that goes through keeps
it (`TableCall.Tells.of_run`), hence so does every sequence of calls (`TableCall.tells_of_makeAll`),
and it decides what the next call does (`Node.table_keeps_its_cells`).
-/

namespace BoxLayout

/-- A fault that a caller could have avoided by looking first. -/
def Fault.isRefusal (fault : Fault) : Bool := fault.message?.isSome

/-- What a host can do with a table. -/
inductive TableCall where
  | setSize (rows cols : Nat)
  | setCell (row col : Nat) (child : Node)
  | readCell (row col : Nat)
  | measure (given : Constraints)
  | place (bounds : Rect)

namespace TableCall

/-- The table after the call. -/
def run (table : Node) : TableCall → Except Fault Node
  | setSize rows cols => table.setTableSize rows cols
  | setCell row col child => table.setCell row col child
  | readCell row col => (fun _ => table) <$> table.cell row col
  | measure given => Measured.node <$> table.measure given
  | place bounds => Placed.node <$> table.place bounds

/-- Makes one more call on a table, for which `done` are the calls that went through, the last one
first. A call that is refused leaves the table as it was; there is no going on after another
fault. -/
def make (state : Node × List TableCall) (call : TableCall) :
    Except Fault (Node × List TableCall) :=
  match call.run state.1 with
  | .ok table => .ok (table, call :: state.2)
  | .error fault => if fault.isRefusal then .ok state else .error fault

/-- Makes calls one after the other. -/
def makeAll (state : Node × List TableCall) (calls : List TableCall) :
    Except Fault (Node × List TableCall) :=
  calls.foldlM make state

/-- A table that is new, without dimensions or with some, and the calls that it comes to. -/
inductive IsNew : Node × List TableCall → Prop
  | unsized : IsNew (.emptyTable, [])
  | sized {rows cols : Nat} {grid : Grid} : Grid.ofSize rows cols = .ok grid →
      IsNew (.tableOf grid [], [.setSize rows cols])

/-! ## Reading a history -/

/-- The dimensions that a call sets. -/
def dims? : TableCall → Option (Nat × Nat)
  | setSize rows cols => some (rows, cols)
  | setCell .. | readCell .. | measure _ | place _ => none

/-- What a call puts into a cell. -/
def fills? (row col : Nat) : TableCall → Option Node
  | setCell r c child => if r = row ∧ c = col then some child else none
  | setSize .. | readCell .. | measure _ | place _ => none

def isMeasuring : TableCall → Bool
  | measure _ => true
  | setSize .. | setCell .. | readCell .. | place _ => false

/-- The table is measured or placed. -/
def isPass : TableCall → Bool
  | measure _ | place _ => true
  | setSize .. | setCell .. | readCell .. => false

/-- The calls after the last one of which something holds. -/
def since (p : TableCall → Bool) (done : List TableCall) : List TableCall :=
  done.takeWhile fun call => !p call

/-- How often dimensions were set. -/
def countSized (done : List TableCall) : Nat := done.countP (·.dims?.isSome)

/-- The dimensions that were set, none at first. -/
def dims (done : List TableCall) : Nat × Nat := (done.findSome? dims?).getD (0, 0)

/-- The table has been measured since its dimensions were set. -/
def isLaidOut (done : List TableCall) : Bool := (since (·.dims?.isSome) done).any isMeasuring

/-- What a cell was last filled with. -/
def stored (row col : Nat) (done : List TableCall) : Option Node := done.findSome? (fills? row col)

/-- The table has been measured or placed since a cell was last filled. -/
def isPassed (row col : Nat) (done : List TableCall) : Bool :=
  (since (fun call => (call.fills? row col).isSome) done).any isPass

/-- The content of a cell is what it was last filled with, but for what measuring and placing
write. -/
def Holds (row col : Nat) (done : List TableCall) (content : Option Node) : Prop :=
  Option.Rel Node.CacheEqual (stored row col done) content ∧
    (isPassed row col done = false → content = stored row col done)

/-- A table with these parts is what the calls have made of a new one. -/
structure Tells (done : List TableCall) (grid : Grid) (cells : List (Option Node)) : Prop where
  dims : (grid.rows, grid.cols) = dims done
  once : countSized done = if grid.sized then 1 else 0
  numbered : grid.isOversized = false
  length : cells.length = grid.size
  measured : isLaidOut done = true → grid.isMeasured = true
  unmeasured : isLaidOut done = false → grid.widths.size = 0 ∧ grid.heights.size = 0
  holds : ∀ row col i, grid.index row col = .ok i → ∃ content, cells[i]? = some content ∧
    Holds row col done content
  outside : ∀ row col, ¬ (row < grid.rows ∧ col < grid.cols) → stored row col done = none

variable {done : List TableCall} {call : TableCall} {row col : Nat} {content : Option Node}

/-! ## Histories with one more call -/

theorem since_cons (p : TableCall → Bool) (call : TableCall) (done : List TableCall) :
    since p (call :: done) = if p call then [] else call :: since p done := by
  rw [since, List.takeWhile_cons]
  cases p call <;> rfl

theorem countSized_cons :
    countSized (call :: done) = countSized done + if call.dims?.isSome then 1 else 0 :=
  List.countP_cons ..

theorem isLaidOut_cons : isLaidOut (call :: done) =
    if call.dims?.isSome then false else call.isMeasuring || isLaidOut done := by
  rw [isLaidOut, since_cons]
  cases call.dims?.isSome <;> rfl

theorem stored_cons : stored row col (call :: done) =
    (call.fills? row col).or (stored row col done) := by
  rw [stored, stored, List.findSome?_cons]
  cases call.fills? row col <;> rfl

theorem isPassed_cons : isPassed row col (call :: done) =
    if (call.fills? row col).isSome then false else call.isPass || isPassed row col done := by
  rw [isPassed, since_cons]
  cases (call.fills? row col).isSome <;> rfl

/-- Without dimensions a table is empty. -/
theorem dims_of_countSized_eq_zero (h : countSized done = 0) : dims done = (0, 0) := by
  have hnone : done.findSome? dims? = none := List.findSome?_eq_none_iff.2 fun call hc => by
    simpa using List.countP_eq_zero.1 h call hc
  rw [dims, hnone]
  rfl

namespace Holds

theorem fill {child : Node} (hf : call.fills? row col = some child) :
    Holds row col (call :: done) (some child) := by
  rw [Holds, stored_cons, hf]
  exact ⟨.some rfl, fun _ => rfl⟩

theorem keep (hf : call.fills? row col = none) (hp : call.isPass = false)
    (h : Holds row col done content) : Holds row col (call :: done) content := by
  rw [Holds, stored_cons, isPassed_cons, hf, hp]
  exact h

theorem pass {content' : Option Node} (hf : call.fills? row col = none) (hp : call.isPass = true)
    (h : Holds row col done content) (hc : Option.Rel Node.CacheEqual content content') :
    Holds row col (call :: done) content' := by
  obtain ⟨hrel, -⟩ := h
  rw [Holds, stored_cons, isPassed_cons, hf, hp, Option.none_or]
  refine ⟨?_, nofun⟩
  generalize stored row col done = first at hrel ⊢
  cases hrel with
  | none => exact hc
  | some hfirst =>
    cases hc with
    | some hsecond => exact .some (hfirst.trans hsecond)

end Holds

/-! ## One more call -/

/-- The cells after a call that came to those cells that take part. -/
theorem exists_cell_of_pass {cells : List (Option Node)} {found : Option Node × Nat → Node}
    (h : ∀ cell ∈ cells.zipIdx, Node.isLiveCell cell = true →
      (found cell).CacheEqual (Node.content cell)) {i : Nat} (hi : cells[i]? = some content) :
    ∃ content', (cells.zipIdx.map fun cell =>
        if Node.isLiveCell cell then some (found cell) else cell.1)[i]? = some content' ∧
      Option.Rel Node.CacheEqual content content' := by
  have hcell : (content, i) ∈ cells.zipIdx := List.mem_zipIdx_iff_getElem?.2 hi
  refine ⟨_, by rw [List.getElem?_map, List.getElem?_zipIdx, hi]; rfl, ?_⟩
  dsimp only
  rw [Nat.zero_add]
  cases content with
  | none => exact .none
  | some child =>
    by_cases hl : Node.isLiveCell (some child, i) = true
    · rw [if_pos hl]
      exact .some (h _ hcell hl).symm
    · rw [if_neg hl]
      exact .some rfl

namespace Tells

variable {frame : Frame} {grid : Grid} {cells : List (Option Node)}

/-- Before it has dimensions a table is empty. -/
theorem empty_of_unsized (h : Tells done grid cells) (hs : grid.sized = false) :
    grid.rows = 0 ∧ grid.cols = 0 := by
  have hcount : countSized done = 0 := by rw [h.once, hs]; rfl
  exact Prod.mk.inj (h.dims.trans (dims_of_countSized_eq_zero hcount))

theorem exists_index (h : Tells done grid cells) (hr : row < grid.rows) (hc : col < grid.cols) :
    ∃ i, grid.index row col = .ok i := by
  refine ⟨_, Grid.index_eq_ok_iff.2 ⟨⟨hr, hc⟩, ?_, rfl⟩⟩
  have hle : ¬ Grid.maxCells < grid.rows * grid.cols := of_decide_eq_false h.numbered
  have hmax : Grid.maxCells < Grid.maxIndex := by decide
  have hrow := Nat.mul_le_mul_right grid.cols hr
  rw [Nat.succ_mul] at hrow
  omega

theorem sizes_eq (h : Tells done grid cells) :
    (grid.widths.size, grid.heights.size) = (0, 0) ∨
      (grid.widths.size, grid.heights.size) = (grid.cols, grid.rows) := by
  cases hl : isLaidOut done with
  | false => exact .inl (Prod.ext_iff.2 (h.unmeasured hl))
  | true => exact .inr (Prod.ext_iff.2 (by simpa [Grid.isMeasured] using h.measured hl))

/-- The extents of the tracks are as many as the tracks if they were found out, or if there are no
tracks. -/
theorem isMeasured_iff (h : Tells done grid cells) :
    grid.isMeasured = true ↔ isLaidOut done = true ∨ (grid.rows, grid.cols) = (0, 0) := by
  cases hl : isLaidOut done with
  | true => exact ⟨fun _ => .inl rfl, fun _ => h.measured hl⟩
  | false =>
    obtain ⟨hw, hh⟩ := h.unmeasured hl
    rw [Grid.isMeasured, hw, hh, Bool.and_eq_true, beq_iff_eq, beq_iff_eq, Prod.mk.injEq]
    constructor
    · rintro ⟨hcols, hrows⟩
      exact .inr ⟨hrows.symm, hcols.symm⟩
    · rintro (hl | ⟨hrows, hcols⟩)
      · cases hl
      · exact ⟨hcols.symm, hrows.symm⟩

theorem setSize {rows cols : Nat} (h : Tells done grid cells) (hs : grid.sized = false)
    (hn : Grid.isOversized { grid with rows, cols, sized := true } = false) :
    Tells (.setSize rows cols :: done) { grid with rows, cols, sized := true }
      (List.replicate (rows * cols) none) := by
  -- A table without dimensions has no cells, so that nothing can have been stored.
  obtain ⟨hr, hc⟩ := h.empty_of_unsized hs
  have hnone (row col : Nat) : stored row col done = none :=
    h.outside row col fun hin => absurd hin.1 (hr ▸ Nat.not_lt_zero row)
  have hsizes : grid.widths.size = 0 ∧ grid.heights.size = 0 := by
    rcases h.sizes_eq with hz | hz
    · exact Prod.mk.inj hz
    · rw [hr, hc] at hz
      exact Prod.mk.inj hz
  refine ⟨rfl, ?_, hn, List.length_replicate, ?_, fun _ => hsizes,
    fun row col i hi => ⟨none, ?_, ?_⟩, fun row col _ => hnone row col⟩
  · rw [countSized_cons, h.once, hs]
    rfl
  · rw [isLaidOut_cons]
    exact nofun
  · exact List.getElem?_replicate_of_lt (Grid.index_lt_size hi)
  · rw [Holds, stored_cons, hnone]
    exact ⟨.none, fun _ => rfl⟩

theorem setCell {child : Node} {i : Nat} (h : Tells done grid cells)
    (hi : grid.index row col = .ok i) :
    Tells (.setCell row col child :: done) grid (cells.set i (some child)) := by
  refine ⟨h.dims, h.once, h.numbered, by rw [List.length_set, h.length], h.measured, h.unmeasured,
    fun r c j hj => ?_, fun r c hout => ?_⟩
  · by_cases hrc : row = r ∧ col = c
    · obtain ⟨rfl, rfl⟩ := hrc
      cases hi.symm.trans hj
      have hlt : i < cells.length := h.length ▸ Grid.index_lt_size hi
      exact ⟨_, List.getElem?_set_self hlt, .fill (if_pos ⟨rfl, rfl⟩)⟩
    · -- The tracks of a cell tell it from every other one.
      have hne : i ≠ j := by
        rintro rfl
        obtain ⟨hcol, hrow⟩ := Grid.trackOf_index hi
        obtain ⟨hcol', hrow'⟩ := Grid.trackOf_index hj
        exact hrc ⟨hrow.symm.trans hrow', hcol.symm.trans hcol'⟩
      obtain ⟨content, hcontent, hholds⟩ := h.holds r c j hj
      exact ⟨content, (List.getElem?_set_ne hne).trans hcontent, hholds.keep (if_neg hrc) rfl⟩
  · have hne : ¬ (row = r ∧ col = c) := by
      rintro ⟨rfl, rfl⟩
      exact hout (Grid.index_eq_ok_iff.1 hi).1
    have hkept : (TableCall.setCell row col child).fills? r c = none := if_neg hne
    rw [stored_cons, hkept, h.outside r c hout]
    rfl

theorem readCell (h : Tells done grid cells) : Tells (.readCell row col :: done) grid cells := by
  refine ⟨h.dims, h.once, h.numbered, h.length, h.measured, h.unmeasured, fun r c i hi => ?_,
    h.outside⟩
  obtain ⟨content, hcontent, hholds⟩ := h.holds r c i hi
  exact ⟨content, hcontent, hholds.keep rfl rfl⟩

section Pass

variable {found : Option Node × Nat → Node}

theorem holds_of_pass (h : Tells done grid cells)
    (hfound : ∀ cell ∈ cells.zipIdx, Node.isLiveCell cell = true →
      (found cell).CacheEqual (Node.content cell))
    (hf : ∀ row col, call.fills? row col = none) (hp : call.isPass = true) :
    ∀ row col i, grid.index row col = .ok i → ∃ content, (cells.zipIdx.map fun cell =>
        if Node.isLiveCell cell then some (found cell) else cell.1)[i]? = some content ∧
      Holds row col (call :: done) content := by
  intro row col i hi
  obtain ⟨content, hcontent, hholds⟩ := h.holds row col i hi
  obtain ⟨content', hcontent', hrel⟩ := exists_cell_of_pass hfound hcontent
  exact ⟨content', hcontent', hholds.pass (hf row col) hp hrel⟩

theorem measure {given : Constraints} {sizes : List (Option Size)} (h : Tells done grid cells)
    (hfound : ∀ cell ∈ cells.zipIdx, Node.isLiveCell cell = true →
      (found cell).CacheEqual (Node.content cell)) :
    Tells (.measure given :: done) (grid.measured sizes) (cells.zipIdx.map fun cell =>
      if Node.isLiveCell cell then some (found cell) else cell.1) := by
  have hlength := h.length
  refine ⟨h.dims, h.once, h.numbered, by rwa [List.length_map, List.length_zipIdx],
    fun _ => Grid.isMeasured_measured grid sizes, fun hl => ?_,
    h.holds_of_pass hfound (fun _ _ => rfl) rfl, h.outside⟩
  rw [isLaidOut_cons] at hl
  cases hl

theorem place {bounds : Rect} (h : Tells done grid cells)
    (hfound : ∀ cell ∈ cells.zipIdx, Node.isLiveCell cell = true →
      (found cell).CacheEqual (Node.content cell)) :
    Tells (.place bounds :: done) grid (cells.zipIdx.map fun cell =>
      if Node.isLiveCell cell then some (found cell) else cell.1) := by
  have hlength := h.length
  exact ⟨h.dims, h.once, h.numbered, by rwa [List.length_map, List.length_zipIdx], h.measured,
    h.unmeasured, h.holds_of_pass hfound (fun _ _ => rfl) rfl, h.outside⟩

end Pass

/-- A call that goes through leaves what it and the calls before it tell. -/
theorem of_run {next : Node} (h : Tells done grid cells)
    (hr : call.run (.table frame grid cells) = .ok next) :
    ∃ frame' grid' cells', next = .table frame' grid' cells' ∧
      Tells (call :: done) grid' cells' := by
  cases call with
  | setSize rows cols =>
    obtain ⟨_, hdims, hr⟩ := bind_eq_ok_iff.1 hr
    obtain ⟨sized, hsized, hdims⟩ := bind_eq_ok_iff.1 hdims
    cases hdims
    obtain ⟨_, hreserve, hr⟩ := bind_eq_ok_iff.1 hr
    cases hr
    unfold Grid.setSize at hsized
    split at hsized
    · cases hsized
    · rename_i hs
      cases hsized
      exact ⟨_, _, _, rfl, h.setSize (Bool.eq_false_of_not_eq_true hs)
        (Grid.reserve_eq_ok_iff.1 hreserve)⟩
  | setCell row col child =>
    obtain ⟨i, hi, hr⟩ := bind_eq_ok_iff.1 hr
    split at hr
    · cases hr
      exact ⟨_, _, _, rfl, h.setCell hi⟩
    · cases hr
  | readCell row col =>
    obtain ⟨content, -, rfl⟩ := map_eq_ok_iff.1 hr
    exact ⟨_, _, _, rfl, h.readCell⟩
  | measure given =>
    obtain ⟨m, hm, rfl⟩ := map_eq_ok_iff.1 hr
    obtain ⟨_, again, sized, rfl, -, hagain, -, hnode⟩ := Node.measure_table hm
    exact ⟨_, _, _, hnode, h.measure fun cell hc hl => Node.retain_of_measure (hagain cell hc hl)⟩
  | place bounds =>
    obtain ⟨p, hp, rfl⟩ := map_eq_ok_iff.1 hr
    obtain ⟨_, _, placed, -, -, -, hplaced, hnode⟩ := Node.place_table hp
    refine ⟨_, _, _, hnode, h.place fun cell hc hl => ?_⟩
    obtain ⟨slot, -, hfound⟩ := hplaced cell hc hl
    exact Node.retain_of_place hfound

end Tells

/-! ## Many calls -/

/-- The table is what the calls have made of a new one. -/
inductive Told : Node × List TableCall → Prop
  | intro {frame : Frame} {grid : Grid} {cells : List (Option Node)} {done : List TableCall} :
      Tells done grid cells → Told (.table frame grid cells, done)

variable {state next start : Node × List TableCall}

theorem tells_empty : Tells [] {} [] :=
  ⟨rfl, rfl, rfl, rfl, nofun, fun _ => ⟨rfl, rfl⟩,
    fun row _ _ hi => absurd (Grid.index_eq_ok_iff.1 hi).1.1 (Nat.not_lt_zero row),
    fun _ _ _ => rfl⟩

theorem Told.of_isNew (h : IsNew state) : Told state := by
  cases h with
  | unsized => exact .intro tells_empty
  | sized hg =>
    obtain ⟨_, hreserve, hg⟩ := bind_eq_ok_iff.1 hg
    cases hg
    have hnew := tells_empty.setSize rfl (Grid.reserve_eq_ok_iff.1 hreserve)
    rw [Node.tableOf, List.foldl_nil, Array.toList_replicate]
    exact .intro hnew

theorem Told.make (h : Told state) (hm : make state call = .ok next) : Told next := by
  obtain ⟨htells⟩ := h
  unfold TableCall.make at hm
  split at hm
  · rename_i hr
    obtain ⟨_, _, _, rfl, hnew⟩ := htells.of_run hr
    cases hm
    exact .intro hnew
  · split at hm
    · cases hm
      exact .intro htells
    · cases hm

/-- However many calls are made on a new table, it is what those that went through tell. -/
theorem Told.makeAll {calls : List TableCall} (h : Told state)
    (hm : makeAll state calls = .ok next) : Told next := by
  induction calls generalizing state with
  | nil =>
    cases hm
    exact h
  | cons call rest ih =>
    rw [TableCall.makeAll, List.foldlM_cons] at hm
    obtain ⟨between, hfirst, hm⟩ := bind_eq_ok_iff.1 hm
    exact ih (h.make hfirst) hm

/-- So the tables that calls can make are numbered. -/
theorem Told.isNumbered (h : Told state) : state.1.IsNumbered := by
  obtain ⟨htells⟩ := h
  exact htells.length.trans (Grid.cellCount_of_isOversized_eq_false htells.numbered).symm

namespace Tells

variable {frame : Frame} {grid : Grid} {cells : List (Option Node)}

/-! ## The next call -/

theorem countSized_le (h : Tells done grid cells) : countSized done ≤ 1 := by
  rw [h.once]
  split <;> omega

/-- A table can be given dimensions once, if memory holds that many cells. -/
theorem setTableSize_of_countSized (h : Tells done grid cells) (rows cols : Nat) :
    if countSized done = 0 then
      (∃ next, (Node.table frame grid cells).setTableSize rows cols = .ok next) ↔
        rows * cols ≤ Grid.maxCells
    else (Node.table frame grid cells).setTableSize rows cols =
      .error (.alreadySized grid.rows grid.cols) := by
  rw [Node.setTableSize, Node.setDimensions, Grid.setSize, h.once]
  cases grid.sized with
  | true => rfl
  | false =>
    have hreserve : Grid.reserve { grid with rows, cols, sized := true } = .ok () ↔
        rows * cols ≤ Grid.maxCells := by
      rw [Grid.reserve_eq_ok_iff, Grid.isOversized, decide_eq_false_iff_not, Nat.not_lt]
      exact Iff.rfl
    rw [if_pos (if_neg Bool.false_ne_true), ← hreserve]
    change (∃ next, (Node.table frame { grid with rows, cols, sized := true } cells).makeCells =
      .ok next) ↔ _
    constructor
    · rintro ⟨next, hnext⟩
      obtain ⟨_, hok, -⟩ := bind_eq_ok_iff.1 hnext
      exact hok
    · exact fun hok => ⟨_, bind_eq_ok_iff.2 ⟨_, hok, rfl⟩⟩

/-- A cell in range can be filled and read. -/
theorem cell_of_lt (h : Tells done grid cells) (hin : row < grid.rows ∧ col < grid.cols)
    (child : Node) :
    (∃ next, (Node.table frame grid cells).setCell row col child = .ok next) ∧
      ∃ content, (Node.table frame grid cells).cell row col = .ok content ∧
        Holds row col done content := by
  obtain ⟨i, hi⟩ := h.exists_index hin.1 hin.2
  have hlt : i < cells.length := h.length ▸ Grid.index_lt_size hi
  obtain ⟨content, hcontent, hholds⟩ := h.holds row col i hi
  refine ⟨⟨_, bind_eq_ok_iff.2 ⟨i, hi, if_pos hlt⟩⟩, content, bind_eq_ok_iff.2 ⟨i, hi, ?_⟩, hholds⟩
  rw [hcontent]
  rfl

/-- Where placing needs the extent of a track or the line where it starts, there is one. -/
theorem trackOf_lt (h : Tells done grid cells) (hm : grid.isMeasured = true) (axis : Axis)
    (pos : Int) {i : Nat} (hi : i < cells.length) :
    grid.trackOf axis i < (grid.extents axis).size ∧
      grid.trackOf axis i < (grid.lines axis pos).size := by
  have hlt : grid.trackOf axis i < (grid.extents axis).size :=
    Grid.size_extents hm axis ▸ Grid.trackOf_lt_count axis (h.length ▸ hi)
  exact ⟨hlt, (Array.getElem?_eq_some_iff.1 (Grid.getElem?_lines pos hlt.le)).1⟩

end Tells

end TableCall

namespace Node

variable {frame : Frame} {grid : Grid} {cells : List (Option Node)} {bounds : Rect}

/-- In a table that has an extent for every track, only a child can turn out not to have been
measured. -/
theorem exists_child_of_notMeasured (hm : grid.isMeasured = true)
    (h : (table frame grid cells).place bounds = .error .notMeasured) :
    ∃ child slot, some child ∈ cells ∧ child.place slot = .error .notMeasured := by
  have hchecked (v : Int) : Extent.checked v ≠ .error .notMeasured := fun h =>
    Fault.noConfusion (Extent.checked_eq_error_iff.1 h).2
  rw [place] at h
  have hplace := map_eq_error_iff.1 h
  rw [if_pos hm] at hplace
  rcases bind_eq_error_iff.1 hplace with hstop | ⟨right, -, hplace⟩
  · exact absurd hstop (hchecked _)
  rcases bind_eq_error_iff.1 hplace with hcells | ⟨placed, -, hplace⟩
  · rw [placeCells_eq] at hcells
    obtain ⟨⟨content, i⟩, hc, hcell⟩ := exists_of_mapM_eq_error hcells
    cases content with
    | none => cases hcell
    | some child =>
      rw [placeCell] at hcell
      split at hcell
      · rcases bind_eq_error_iff.1 hcell with hslot | ⟨slot, -, hcell⟩
        · rcases bind_eq_error_iff.1 hslot with htop | ⟨top, -, hslot⟩
          · exact absurd htop (hchecked _)
          · cases hslot
        · exact ⟨child, slot, List.mem_of_getElem? (List.mem_zipIdx_iff_getElem?.1 hc),
            map_eq_error_iff.1 hcell⟩
      · cases hcell
  · rcases bind_eq_error_iff.1 hplace with hstop | ⟨bottom, -, hplace⟩
    · exact absurd hstop (hchecked _)
    · cases hplace

/-- Whatever calls are made on a new table. It always has one cell for each row and column, none
before it has dimensions, and extents for no track or for each. It can be given dimensions once, any
of which memory holds the cells. A cell can be filled and read if and only if it is in range, and it
then has what it was last filled with. The table refuses to be placed if and only if there are
tracks and it was not measured since it has them; otherwise the extents and lines that placing needs
are there, and only a child can turn out not to have been measured. -/
theorem table_keeps_its_cells {start : Node × List TableCall} {calls : List TableCall}
    {node : Node} {done : List TableCall} (hs : TableCall.IsNew start)
    (hm : TableCall.makeAll start calls = .ok (node, done)) :
    ∃ frame grid cells, node = table frame grid cells ∧
      ((grid.rows, grid.cols) = TableCall.dims done ∧ cells.length = grid.rows * grid.cols ∧
        (TableCall.countSized done = 0 → (grid.rows, grid.cols) = (0, 0)) ∧
        ((grid.widths.size, grid.heights.size) = (0, 0) ∨
          (grid.widths.size, grid.heights.size) = (grid.cols, grid.rows))) ∧
      (TableCall.countSized done ≤ 1 ∧ ∀ rows cols,
        if TableCall.countSized done = 0 then
          (∃ next, node.setTableSize rows cols = .ok next) ↔ rows * cols ≤ Grid.maxCells
        else node.setTableSize rows cols = .error (.alreadySized grid.rows grid.cols)) ∧
      (∀ row col child,
        if row < grid.rows ∧ col < grid.cols then
          (∃ next, node.setCell row col child = .ok next) ∧
            ∃ content, node.cell row col = .ok content ∧ TableCall.Holds row col done content
        else
          node.setCell row col child = .error (.cellOutOfRange row col grid.rows grid.cols) ∧
            node.cell row col = .error (.cellOutOfRange row col grid.rows grid.cols)) ∧
      if (grid.rows, grid.cols) ≠ (0, 0) ∧ TableCall.isLaidOut done = false then
        ∀ bounds, node.place bounds = .error .notMeasured
      else
        (∀ axis pos i, i < cells.length → grid.trackOf axis i < (grid.extents axis).size ∧
          grid.trackOf axis i < (grid.lines axis pos).size) ∧
        ∀ bounds, node.place bounds = .error .notMeasured →
          ∃ child slot, some child ∈ cells ∧ child.place slot = .error .notMeasured := by
  obtain ⟨h⟩ := (TableCall.Told.of_isNew hs).makeAll hm
  rename_i frame grid cells
  refine ⟨frame, grid, cells, rfl, ⟨h.dims, h.length, fun hc => ?_, h.sizes_eq⟩,
    ⟨h.countSized_le, h.setTableSize_of_countSized⟩, fun row col child => ?_, ?_⟩
  · exact h.dims.trans (TableCall.dims_of_countSized_eq_zero hc)
  · split
    · rename_i hin
      exact h.cell_of_lt hin child
    · rename_i hout
      have hindex : grid.index row col = .error (.cellOutOfRange row col grid.rows grid.cols) :=
        if_neg hout
      exact ⟨bind_eq_error_iff.2 (.inl hindex), bind_eq_error_iff.2 (.inl hindex)⟩
  · split
    · rename_i hbefore
      intro bounds
      have hm : ¬ grid.isMeasured = true := fun hm => by
        rcases h.isMeasured_iff.1 hm with hl | hz
        · exact Bool.false_ne_true (hbefore.2.symm.trans hl)
        · exact hbefore.1 hz
      rw [place, if_neg hm]
      rfl
    · rename_i hafter
      have hm : grid.isMeasured = true := h.isMeasured_iff.2 (by
        rw [not_and_or, not_ne_iff, Bool.not_eq_false] at hafter
        exact hafter.symm)
      exact ⟨fun axis pos i hi => h.trackOf_lt hm axis pos hi,
        fun bounds => exists_child_of_notMeasured hm⟩

/-- A table that is measured before it has dimensions, given them, and filled in a cell that it has
and in one that it does not have. -/
theorem table_keeps_its_cells_when_refused :
    ∃ node, TableCall.makeAll (emptyTable, [])
        [.measure .free, .setSize 2 2, .setCell 1 0 (ofLeaf .portrait),
          .setCell 0 2 (ofLeaf .portrait)] =
      .ok (node, [.setCell 1 0 (ofLeaf .portrait), .setSize 2 2, .measure .free]) ∧
      node.cell 1 0 = .ok (some (ofLeaf .portrait)) ∧ node.cell 0 1 = .ok none ∧
      node.cell 0 2 = .error (.cellOutOfRange 0 2 2 2) ∧
      node.setTableSize 1 1 = .error (.alreadySized 2 2) ∧
      ∀ bounds, node.place bounds = .error .notMeasured := by
  obtain ⟨node, hm⟩ : ∃ node, TableCall.makeAll (emptyTable, [])
      [.measure .free, .setSize 2 2, .setCell 1 0 (ofLeaf .portrait),
        .setCell 0 2 (ofLeaf .portrait)] =
      .ok (node, [.setCell 1 0 (ofLeaf .portrait), .setSize 2 2, .measure .free]) := ⟨_, rfl⟩
  obtain ⟨_, grid, _, -, ⟨hdims, -, -, -⟩, ⟨-, hsize⟩, hcell, hplace⟩ :=
    table_keeps_its_cells .unsized hm
  obtain ⟨hrows, hcols⟩ := Prod.mk.inj (hdims.trans (rfl : _ = (2, 2)))
  have hcell (row col : Nat) := hcell row col default
  rw [hrows, hcols] at hcell hsize hplace
  refine ⟨node, hm, ?_, ?_, (hcell 0 2).2, hsize 1 1, hplace⟩
  · obtain ⟨-, content, hcontent, -, hsame⟩ := hcell 1 0
    exact hcontent.trans (congrArg _ (hsame rfl))
  · obtain ⟨-, content, hcontent, hrel, -⟩ := hcell 0 1
    change Option.Rel _ none content at hrel
    cases hrel
    exact hcontent

end Node

end BoxLayout
