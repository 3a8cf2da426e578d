import BoxLayout.Proofs.Transpose.Node

/-!
# Measuring a tree with its axes exchanged

Under transposed constraints a transposed tree gives the transposed answer with as many calls, and
is left as the transposed tree is (`Node.Turns`).
-/

namespace BoxLayout

/-- What the transposed tree found out, next to what the tree did. -/
structure Measured.Mirrors (m m' : Measured) : Prop where
  size : m'.size = m.size.transpose
  node : m'.node = m.node.transpose
  calls : m'.visit.size = m.visit.size

namespace Measured

theorem Mirrors.of_finding {m : Measured} {finding : Node.Finding} {name : String}
    {given : Constraints} (hs : finding.answer = m.size.transpose)
    (hn : finding.node = m.node.transpose)
    (hc : Visit.sizeAll finding.calls = Visit.sizeAll m.visit.calls) :
    m.Mirrors (finding.measured name given) :=
  ⟨hs, hn, by rw [Visit.size_eq m.visit, ← hc]; rfl⟩

end Measured

namespace Node

/-- The transposed tree is measured as the tree is. -/
def Turns (node : Node) : Prop := ∀ (given : Constraints) (m : Measured),
  node.measure given = .ok m →
    ∃ m', node.transpose.measure given.transpose = .ok m' ∧ m.Mirrors m'

end Node

/-! ## Stacks -/

namespace Sharing

/-- The steps of the transposed stack. -/
def transpose (run : Sharing) (style : StackStyle) : Sharing :=
  let once (item : Item Node) := value (item.node.measure run.offer.transpose)
  let enlarged (item : Item Node) := value (style.transpose.enlarge run.offer.transpose run.extra
    run.flex item.flex ((once item).size.along style.axis.flip))
  { run with
    offer := run.offer.transpose
    once, enlarged
    again := fun item => value (item.node.measure (enlarged item)) }

open Node

variable {run : Sharing} {style : StackStyle} {stack : Node} {items : List (Item Node)}
  {given : Constraints}

theorem shares_transpose (item : Item Node) :
    (run.transpose style).shares (transposeItem item) = run.shares item := by
  rw [shares, isLive_transposeItem]
  rfl

theorem filter_shares_transpose (items : List (Item Node)) :
    (items.map transposeItem).filter (run.transpose style).shares =
      (items.filter run.shares).map transposeItem := by
  rw [List.filter_map]
  exact congrArg (List.map transposeItem) (List.filter_congr fun item _ => shares_transpose item)

section Run

variable (hr : run.IsRun stack style items given)
  (ht : ∀ item ∈ items, item.node.isLive = true → item.node.Turns) {item : Item Node}

include hr ht

theorem once_transpose (hi : item ∈ items) (hl : item.node.isLive = true) :
    item.node.transpose.measure run.offer.transpose =
        .ok ((run.transpose style).once (transposeItem item)) ∧
      (run.once item).Mirrors ((run.transpose style).once (transposeItem item)) := by
  obtain ⟨m', hm', hmirror⟩ := ht item hi hl _ _ (hr.once item hi hl)
  have hvalue : (run.transpose style).once (transposeItem item) = m' := congrArg value hm'
  rw [hvalue]
  exact ⟨hm', hmirror⟩

theorem along_once_transpose (hi : item ∈ items) (hl : item.node.isLive = true) (axis : Axis) :
    ((run.transpose style).once (transposeItem item)).size.along axis =
      (run.once item).size.along axis.flip := by
  rw [(once_transpose hr ht hi hl).2.size, Size.along_transpose]

theorem enlarged_transpose (hi : item ∈ items) (hq : run.shares item = true) :
    style.transpose.enlarge run.offer.transpose run.extra run.flex item.flex
        (((run.transpose style).once (transposeItem item)).size.along style.axis.flip) =
      .ok ((run.transpose style).enlarged (transposeItem item)) ∧
    (run.transpose style).enlarged (transposeItem item) = (run.enlarged item).transpose := by
  have hok : style.transpose.enlarge run.offer.transpose run.extra run.flex item.flex
      (((run.transpose style).once (transposeItem item)).size.along style.axis.flip) =
        .ok (run.enlarged item).transpose := by
    rw [along_once_transpose hr ht hi (isLive_of_shares item hq), Axis.flip_flip]
    exact StackStyle.enlarge_transpose (hr.enlarged item hi hq)
  have hvalue : (run.transpose style).enlarged (transposeItem item) =
      (run.enlarged item).transpose := congrArg value hok
  rw [hvalue]
  exact ⟨hok, rfl⟩

theorem again_transpose (hi : item ∈ items) (hq : run.shares item = true) :
    item.node.transpose.measure ((run.transpose style).enlarged (transposeItem item)) =
        .ok ((run.transpose style).again (transposeItem item)) ∧
      (run.again item).Mirrors ((run.transpose style).again (transposeItem item)) := by
  obtain ⟨m', hm', hmirror⟩ := ht item hi (isLive_of_shares item hq) _ _ (hr.again item hi hq)
  rw [← (enlarged_transpose hr ht hi hq).2] at hm'
  have hvalue : (run.transpose style).again (transposeItem item) = m' := congrArg value hm'
  rw [hvalue]
  exact ⟨hm', hmirror⟩

theorem along_again_transpose (hi : item ∈ items) (hq : run.shares item = true) (axis : Axis) :
    ((run.transpose style).again (transposeItem item)).size.along axis =
      (run.again item).size.along axis.flip := by
  rw [(again_transpose hr ht hi hq).2.size, Size.along_transpose]

theorem onceAlong_transpose (axis : Axis) :
    (run.transpose style).onceAlong axis (items.map transposeItem) =
      run.onceAlong axis.flip items := by
  rw [onceAlong, filter_map_transposeItem, List.map_map]
  refine List.map_congr_left fun item hm => ?_
  obtain ⟨hi, hl⟩ := List.mem_filter.1 hm
  exact along_once_transpose hr ht hi hl axis

theorem againAlong_transpose (axis : Axis) :
    (run.transpose style).againAlong axis (items.map transposeItem) =
      run.againAlong axis.flip items := by
  rw [againAlong, filter_shares_transpose, List.map_map]
  refine List.map_congr_left fun item hm => ?_
  obtain ⟨hi, hq⟩ := List.mem_filter.1 hm
  exact along_again_transpose hr ht hi hq axis

theorem changes_transpose (axis : Axis) :
    (run.transpose style).changes axis (items.map transposeItem) =
      run.changes axis.flip items := by
  rw [changes, filter_shares_transpose, List.map_map]
  refine List.map_congr_left fun item hm => ?_
  obtain ⟨hi, hq⟩ := List.mem_filter.1 hm
  exact congrArg₂ Prod.mk (along_once_transpose hr ht hi (isLive_of_shares item hq) axis)
    (along_again_transpose hr ht hi hq axis)

theorem breadthOf_transpose : (run.transpose style).breadthOf style.transpose
    (items.map transposeItem) = run.breadthOf style items := by
  rw [breadthOf, breadthOf, onceAlong_transpose hr ht, againAlong_transpose hr ht]
  simp only [StackStyle.axis_transpose, StackStyle.align_transpose, Axis.flip_flip]
  have hoffer : (run.transpose style).offer.along style.axis = run.offer.along style.axis.flip :=
    Constraints.along_transpose style.axis run.offer
  rw [hoffer]

theorem settled_transpose (hi : item ∈ items) :
    (run.transpose style).settled (transposeItem item) = transposeItem (run.settled item) := by
  by_cases hl : item.node.isLive = true
  · have hl' : (transposeItem item).node.isLive = true := (isLive_transposeItem item).trans hl
    have hlast : (run.last item).Mirrors ((run.transpose style).last (transposeItem item)) := by
      rw [last, last, shares_transpose]
      split
      · rename_i hq
        exact (again_transpose hr ht hi hq).2
      · exact (once_transpose hr ht hi hl).2
    rw [settled_of_isLive _ hl, settled_of_isLive _ hl', hlast.node, hlast.size]
    rfl
  · rw [settled, settled, isLive_transposeItem, if_neg hl, if_neg hl]

/-- The steps of the transposed stack are those of measuring it. -/
theorem isRun_transpose (hp : stack.AllReached IsPlain) :
    (run.transpose style).IsRun stack.transpose style.transpose (items.map transposeItem)
      given.transpose where
  flex := by
    rw [filter_map_transposeItem, List.map_map]
    exact hr.flex
  breadth := by
    have hbreadth := hr.breadth
    rw [Node.breadth] at hbreadth ⊢
    rw [StackStyle.needsBreadth_transpose]
    split
    · rename_i hneeds
      rw [if_pos hneeds] at hbreadth
      rw [StackStyle.axis_transpose, Axis.flip_flip]
      exact minExtent_transpose hp style.axis _ _ hbreadth
    · rename_i hneeds
      rw [if_neg hneeds] at hbreadth
      rw [StackStyle.axis_transpose, Constraints.along_transpose, Axis.flip_flip]
      exact hbreadth
  offer := by
    rw [liveCount_map_transposeItem]
    exact StackStyle.offer_transpose hr.offer
  once := by
    rw [List.forall_mem_map]
    intro item hi hl
    exact (once_transpose hr ht hi ((isLive_transposeItem item).symm.trans hl)).1
  extra := by
    rw [onceAlong_transpose hr ht, Constraints.along_transpose, StackStyle.axis_transpose,
      Axis.flip_flip]
    exact hr.extra
  enlarged := by
    rw [List.forall_mem_map]
    intro item hi hq
    exact (enlarged_transpose hr ht hi ((shares_transpose item).symm.trans hq)).1
  again := by
    rw [List.forall_mem_map]
    intro item hi hq
    exact (again_transpose hr ht hi ((shares_transpose item).symm.trans hq)).1
  extent := by
    rw [changes_transpose hr ht, onceAlong_transpose hr ht, StackStyle.axis_transpose,
      Axis.flip_flip]
    exact hr.extent

end Run

end Sharing

namespace Node

variable {frame : Frame}

theorem Turns.leaf {content : Leaf} (h : content.IsPlain) : (leaf frame content).Turns := by
  intro given m hm
  have hn := Constraints.isNormalized_transpose (isNormalized_of_measure hm)
  obtain ⟨ha, hnode, hcalls⟩ := run_leaf hm
  have hm' : (Node.leaf frame content).transpose.measure given.transpose =
      .ok (Finding.measured ⟨(Node.leaf frame content).transpose, m.size.transpose, []⟩
        (Node.leaf frame content).transpose.name given.transpose) := by
    rw [transpose, measure, if_neg (by simp [hn])]
    exact map_eq_ok_iff.2 ⟨_, bind_eq_ok_iff.2 ⟨_, Leaf.measure_transpose h ha, rfl⟩, rfl⟩
  refine ⟨_, hm', .of_finding rfl ?_ ?_⟩
  · rw [hnode]
  · rw [hcalls]

theorem Turns.padding {insets : Insets} {child : Node} (h : child.Turns) :
    (padding frame insets child).Turns := by
  intro given m hm
  have hn := Constraints.isNormalized_transpose (isNormalized_of_measure hm)
  obtain ⟨width, height, inner, found, hw, hh, hi, hf, ha, hnode, hcalls⟩ := run_padding hm
  obtain ⟨found', hf', hmirror⟩ := h inner found hf
  have ha' : insets.transpose.around found'.size = .ok m.size.transpose := by
    rw [hmirror.size]
    exact Insets.around_transpose ha
  have hm' : (Node.padding frame insets child).transpose.measure given.transpose =
      .ok (Finding.measured ⟨.padding frame.transpose insets.transpose found'.node,
        m.size.transpose, [(0, found'.visit)]⟩ (Node.padding frame insets child).transpose.name
          given.transpose) := by
    rw [transpose, measure, if_neg (by simp [hn])]
    refine map_eq_ok_iff.2 ⟨_, bind_eq_ok_iff.2 ⟨height, hh, bind_eq_ok_iff.2 ⟨width, hw,
      bind_eq_ok_iff.2 ⟨_, Constraints.inset_transpose hi, bind_eq_ok_iff.2 ⟨found', hf',
        bind_eq_ok_iff.2 ⟨_, ha', rfl⟩⟩⟩⟩⟩, rfl⟩
  refine ⟨_, hm', .of_finding rfl ?_ ?_⟩
  · rw [hnode, transpose, hmirror.node]
  · rw [hcalls, Visit.sizeAll, Visit.sizeAll, hmirror.calls]
    rfl

theorem Turns.align {alignment : Alignment} {measured : Size} {child : Node} (h : child.Turns) :
    (align frame alignment measured child).Turns := by
  intro given m hm
  have hn := Constraints.isNormalized_transpose (isNormalized_of_measure hm)
  obtain ⟨found, hf, ha, hnode, hcalls⟩ := run_align hm
  obtain ⟨found', hf', hmirror⟩ := h given.loosen found hf
  have ha' : given.transpose.constrain (alignment.transpose.scaled found'.size) =
      .ok m.size.transpose := by
    rw [hmirror.size, Alignment.scaled_transpose]
    exact Constraints.constrain_transpose ha
  have hm' : (Node.align frame alignment measured child).transpose.measure given.transpose =
      .ok (Finding.measured ⟨.align frame.transpose alignment.transpose found'.size found'.node,
        m.size.transpose, [(0, found'.visit)]⟩
          (Node.align frame alignment measured child).transpose.name given.transpose) := by
    rw [transpose, measure, if_neg (by simp [hn])]
    exact map_eq_ok_iff.2 ⟨_, bind_eq_ok_iff.2 ⟨found', hf', bind_eq_ok_iff.2 ⟨_, ha', rfl⟩⟩, rfl⟩
  refine ⟨_, hm', .of_finding rfl ?_ ?_⟩
  · rw [hnode, transpose, hmirror.node, hmirror.size]
  · rw [hcalls, Visit.sizeAll, Visit.sizeAll, hmirror.calls]
    rfl

theorem Turns.stack {style : StackStyle} {totals : StackTotals} {items : List (Item Node)}
    (hp : (stack frame style totals items).AllReached IsPlain)
    (h : ∀ item ∈ items, item.node.isLive = true → item.node.Turns) :
    (stack frame style totals items).Turns := by
  intro given m hm
  have hn := Constraints.isNormalized_transpose (isNormalized_of_measure hm)
  have hcount := liveCount_map_transposeItem items
  rw [transpose_stack]
  rcases Classical.em (liveCount items = 0) with hl | hl
  · obtain ⟨ha, hnode, hcalls⟩ := run_stack_empty hm hl
    refine ⟨_, measure_of_empty hn (hcount.trans hl) (Constraints.constrain_transpose ha),
      .of_finding rfl ?_ ?_⟩
    · rw [hnode, transpose_stack]
    · rw [hcalls]
  · obtain ⟨run, hr, ha, hnode, hcalls⟩ := run_stack hm hl
    have hr' := Sharing.isRun_transpose hr h hp
    rw [transpose_stack] at hr'
    have ha' : given.transpose.constrain (.ofAxis style.transpose.axis (run.transpose style).extent
        ((run.transpose style).breadthOf style.transpose (items.map transposeItem))) =
          .ok m.size.transpose := by
      rw [Sharing.breadthOf_transpose hr h, StackStyle.axis_transpose, ← Size.transpose_ofAxis]
      exact Constraints.constrain_transpose ha
    refine ⟨_, measure_of_isRun hn (hcount ▸ hl) hr' ha', .of_finding rfl ?_ ?_⟩
    · rw [hnode, transpose_stack, List.map_map, List.map_map]
      refine congrArg _ (List.map_congr_left fun item hi => ?_)
      exact Sharing.settled_transpose hr h hi
    · rw [hcalls, Visit.sizeAll_append, Visit.sizeAll_append, Measured.sizeAll_calls_pick,
        Measured.sizeAll_calls_pick, Measured.sizeAll_calls_pick, Measured.sizeAll_calls_pick,
        filter_map_transposeItem, Sharing.filter_shares_transpose, List.map_map, List.map_map]
      congr 2
      · refine List.map_congr_left fun item hm => ?_
        obtain ⟨hi, hl⟩ := List.mem_filter.1 hm
        exact (Sharing.once_transpose hr h hi hl).2.calls
      · refine List.map_congr_left fun item hm => ?_
        obtain ⟨hi, hq⟩ := List.mem_filter.1 hm
        exact (Sharing.again_transpose hr h hi hq).2.calls

/-! ## Tables -/

section Table

variable {grid : Grid} {cells : List (Option Node)}

/-- The transposed cells answer what the cells did. -/
theorem measure_turned (hl : cells.length = grid.cellCount)
    (h : ∀ child, some child ∈ cells → child.isLive = true → child.Turns)
    (offer offer' : Nat → Constraints)
    (ho : ∀ j < grid.size, offer' j = (offer (grid.source j)).transpose)
    {found : Option Node × Nat → Measured} (hf : ∀ cell ∈ cells.zipIdx, isLiveCell cell = true →
      (content cell).measure (offer cell.2) = .ok (found cell)) :
    ∃ found' : Option Node × Nat → Measured,
      (∀ cell ∈ ((grid.turn cells).map (Option.map transpose)).zipIdx, isLiveCell cell = true →
        (content cell).measure (offer' cell.2) = .ok (found' cell)) ∧
      ∀ cell ∈ (grid.turn cells).zipIdx, isLiveCell cell = true →
        (found (cell.1, grid.source cell.2)).Mirrors (found' (transposeCell cell)) := by
  refine exists_turned grid cells
    (R := fun cell m' => (found (cell.1, grid.source cell.2)).Mirrors m') fun cell hc hlive => ?_
  obtain ⟨hj, hmem⟩ := Grid.mem_zipIdx_turn hl hc
  obtain ⟨-, hi, hchild⟩ := exists_of_isLiveCell hmem hlive
  have hturn := h _ (List.mem_of_getElem? hi) hchild _ _ (hf _ hmem hlive)
  rw [← ho _ hj] at hturn
  rw [content_transposeCell hlive]
  exact hturn

theorem sizeAll_calls_turn (hl : cells.length = grid.cellCount)
    {found found' : Option Node × Nat → Measured}
    (h : ∀ cell ∈ (grid.turn cells).zipIdx, isLiveCell cell = true →
      (found (cell.1, grid.source cell.2)).Mirrors (found' (transposeCell cell))) :
    Visit.sizeAll (Measured.calls
        (pick isLiveCell found' ((grid.turn cells).map (Option.map transpose)).zipIdx)) =
      Visit.sizeAll (Measured.calls (pick isLiveCell found cells.zipIdx)) := by
  have hturn : pick isLiveCell (fun cell => (found' cell).visit.size)
        ((grid.turn cells).map (Option.map transpose)).zipIdx =
      grid.turn ((pick isLiveCell (fun cell => (found cell).visit.size) cells.zipIdx).map
        (Option.map id)) := pick_turn id hl fun cell hc hlive => (h cell hc hlive).calls
  rw [Option.map_id, List.map_id] at hturn
  rw [Measured.sizeAll_calls, Measured.sizeAll_calls, map_pick, map_pick]
  have hlength : (pick isLiveCell (fun cell => (found cell).visit.size) cells.zipIdx).length =
      grid.cellCount := by rw [length_pick, List.length_zipIdx, hl]
  refine Eq.trans (congrArg (fun sizes => (List.filterMap id sizes).sum) hturn) ?_
  exact ((Grid.perm_turn hlength).filterMap id).sum_eq

theorem Turns.table (hp : (table frame grid cells).IsPlain)
    (h : ∀ child, some child ∈ cells → child.isLive = true → child.Turns) :
    (table frame grid cells).Turns := by
  intro given m hm
  have hn := Constraints.isNormalized_transpose (isNormalized_of_measure hm)
  obtain ⟨hg, once, again, sized, hsized, honce, hagain, ha, hnode, hcalls⟩ := run_table hm
  have hl : cells.length = grid.cellCount := hp
  obtain ⟨once', honce', hmirror⟩ :=
    measure_turned hl h (fun _ => .free) (fun _ => .free) (fun _ _ => rfl) honce
  have hsized' : sized.transpose = grid.transpose.measured (pick isLiveCell
      (fun cell => (once' cell).size) ((grid.turn cells).map (Option.map transpose)).zipIdx) := by
    rw [pick_turn (f := fun cell => (once cell).size) Size.transpose hl
        fun cell hc hlive => (hmirror cell hc hlive).size,
      Grid.measured_transpose (by rw [length_pick, List.length_zipIdx, hl]), ← hsized]
  obtain ⟨again', hagain', hmirror'⟩ := measure_turned hl h
    (fun i => .exactly (sized.slotSize i)) (fun j => .exactly (sized.transpose.slotSize j))
    (fun j hj => by
      have hj : j < sized.size := hsized ▸ hj
      rw [Grid.slotSize_transpose hj, hsized]
      rfl) hagain
  have ha' : given.transpose.constrain sized.transpose.contentSize = .ok m.size.transpose := by
    rw [Grid.contentSize_transpose]
    exact Constraints.constrain_transpose ha
  rw [transpose_table]
  refine ⟨_, measure_table_of_answers hn ((Grid.hasTooManyTracks_transpose grid).trans hg) honce'
    hsized' hagain' ha', .of_finding rfl ?_ ?_⟩
  · rw [hnode, transpose, transposeCells_eq]
    refine congrArg (Node.table frame.transpose sized.transpose) ?_
    rw [settled_turn (f := fun cell => (again cell).node) hl
      fun cell hc hlive => (hmirror' cell hc hlive).node, ← Grid.turn_map, hsized]
    rfl
  · rw [hcalls, Visit.sizeAll_append, Visit.sizeAll_append, sizeAll_calls_turn hl hmirror,
      sizeAll_calls_turn hl hmirror']

end Table

/-- Under transposed constraints a transposed tree gives the transposed answer with as many calls,
and is left transposed. -/
theorem turns_of_allReached {root : Node} (h : root.AllReached IsPlain) : root.Turns := by
  induction root with
  | leaf frame content => exact .leaf (allReached_leaf.1 h)
  | padding frame insets child ih => exact .padding (ih (allReached_padding.1 h).2)
  | align frame alignment measured child ih => exact .align (ih (allReached_align.1 h).2)
  | stack frame style totals items ih =>
    exact .stack h fun item hi hl => ih item hi ((allReached_stack.1 h).2 item hi hl)
  | table frame grid cells ih =>
    obtain ⟨hp, hcells⟩ := allReached_table.1 h
    exact .table hp fun child hc hl => ih child hc (hcells child hc hl)

end Node

end BoxLayout
