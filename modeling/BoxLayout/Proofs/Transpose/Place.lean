import BoxLayout.Proofs.Replace
import BoxLayout.Proofs.Transpose.Measure

/-!
# Placing a tree with its axes exchanged

A measured tree that is placed in a box, and the transposed tree in the transposed box, are left as
transposes of each other (`Node.turnsInPlace_of_allReached`). With what the other modules say of
measuring and of least extents this makes up the duality of the axes (`Node.layout_transpose`).

A table looks at the starts of its rows one by one, but only at the end of the last one of its
columns. Exchanging the axes exchanges these checks, so it matters that a column cannot start out of
range before the last one ends in range: boxes start at extents (`Rect.StartsInRange`), and no track
of a measured table has a negative extent (`Node.IsFilled`).
-/

namespace BoxLayout

/-- The box starts at extents. -/
def Rect.StartsInRange (rect : Rect) : Prop := ∀ axis, Extent.InRange (rect.start axis)

/-! ## Slots start at extents -/

theorem Rect.startsInRange_of_inset {rect inner : Rect} {insets : Insets}
    (h : rect.inset insets = .ok inner) : inner.StartsInRange := fun axis => by
  obtain ⟨hstart, -⟩ := Rect.inset_eq_ok_iff.1 h axis
  obtain ⟨hr, e⟩ := Extent.add_eq_ok_iff.1 hstart
  rw [e]
  exact hr

theorem Alignment.startsInRange_of_slot {alignment : Alignment} {bounds slot : Rect} {child : Size}
    (h : alignment.slot bounds child = .ok slot) : slot.StartsInRange := fun axis => by
  obtain ⟨offset, -, hr, e⟩ :=
    Alignment.position_eq_ok_iff.1 ((Alignment.slot_eq_ok_iff.1 h).2 axis)
  rw [e]
  exact hr

theorem CrossAlign.inRange_of_span {align : CrossAlign} {whole span : Span} {size : Int}
    (h : align.span whole size = .ok span) (hw : Extent.InRange whole.start) :
    Extent.InRange span.start := by
  cases align with
  | start => cases h; exact hw
  | center =>
    obtain ⟨room, -, h⟩ := bind_eq_ok_iff.1 h
    obtain ⟨start, hs, h⟩ := bind_eq_ok_iff.1 h
    cases h
    obtain ⟨hr, rfl⟩ := Extent.add_eq_ok_iff.1 hs
    exact hr
  | stop =>
    obtain ⟨stop, -, h⟩ := bind_eq_ok_iff.1 h
    obtain ⟨start, hs, h⟩ := bind_eq_ok_iff.1 h
    cases h
    obtain ⟨hr, rfl⟩ := Extent.sub_eq_ok_iff.1 hs
    exact hr
  | stretch => cases h; exact hw

namespace StackStyle

variable {style : StackStyle} {bounds : Rect}

theorem startsInRange_of_slot {main : Span} {size : Size} {slot : Rect}
    (h : style.slot bounds main size = .ok slot) (hm : Extent.InRange main.start)
    (hb : bounds.StartsInRange) : slot.StartsInRange := by
  obtain ⟨cross, hc, h⟩ := bind_eq_ok_iff.1 h
  cases h
  refine (Axis.forall_iff style.axis).2 ⟨?_, ?_⟩
  · rw [Rect.start_ofAxis]
    exact hm
  · rw [Rect.start_flip_ofAxis]
    exact CrossAlign.inRange_of_span hc (hb style.axis.flip)

theorem inRange_of_sliceSpan {count index : Nat} {span : Span}
    (h : style.sliceSpan bounds count index = .ok span) : Extent.InRange span.start := by
  obtain ⟨_, -, h⟩ := bind_eq_ok_iff.1 h
  obtain ⟨first, hf, h⟩ := bind_eq_ok_iff.1 h
  obtain ⟨_, -, h⟩ := bind_eq_ok_iff.1 h
  obtain ⟨_, -, h⟩ := bind_eq_ok_iff.1 h
  obtain ⟨_, -, h⟩ := bind_eq_ok_iff.1 h
  cases h
  obtain ⟨hr, rfl⟩ := Extent.add_eq_ok_iff.1 hf
  exact hr

theorem each_startsInRange (hb : bounds.StartsInRange) (totals : StackTotals)
    (sizes : List (Option Size)) :
    (style.slots bounds totals sizes).Each (fun _ slot => slot.StartsInRange) sizes :=
  each_slots (fun _ _ _ hpos hs => startsInRange_of_slot hs hpos hb)
    fun _ _ _ _ _ _ hspan hs => startsInRange_of_slot hs (inRange_of_sliceSpan hspan) hb

end StackStyle

theorem Grid.startsInRange_of_slot {grid : Grid} {bounds slot : Rect} {right : Int} {i : Nat}
    (hm : grid.isMeasured = true) (hn : ∀ axis, ∀ v ∈ (grid.extents axis).toList, 0 ≤ v)
    (hi : i < grid.size) (hb : bounds.StartsInRange)
    (hstop : grid.stop .horizontal bounds.origin.x = .ok right)
    (hs : grid.slot (grid.lines .horizontal bounds.origin.x)
      (grid.lines .vertical bounds.origin.y) i = .ok slot) : slot.StartsInRange := by
  obtain ⟨top, ht, hs⟩ := bind_eq_ok_iff.1 hs
  cases hs
  obtain ⟨htop, rfl⟩ := Extent.checked_eq_ok_iff.1 ht
  intro axis
  cases axis with
  | vertical => exact htop
  | horizontal =>
    -- the column lies between the start of the box and the end of the last column
    obtain ⟨hright, -⟩ := Extent.checked_eq_ok_iff.1 hstop
    rw [← Array.foldl_toList, Extent.foldl_add] at hright
    have hbefore : 0 ≤ grid.before .horizontal (grid.trackOf .horizontal i) :=
      List.sum_nonneg fun v hv => hn .horizontal v (List.mem_of_mem_take hv)
    have hall : grid.before .horizontal (grid.trackOf .horizontal i) ≤
        (grid.extents .horizontal).toList.sum :=
      (List.take_sublist _ _).sum_le_sum (hn .horizontal)
    show Extent.InRange ((grid.lines .horizontal bounds.origin.x).getD _ 0)
    rw [getD_lines hm hi]
    exact ⟨Int.le_trans (hb .horizontal).1 (Int.le_add_of_nonneg_right hbefore),
      Int.le_trans (Int.add_le_add_left hall _) hright.2⟩

namespace Node

/-- The cells of a table are numbered, and none of its tracks has a negative extent. -/
def IsFilled : Node → Prop
  | table frame grid cells =>
    (table frame grid cells).IsNumbered ∧ ∀ axis, ∀ v ∈ (grid.extents axis).toList, 0 ≤ v
  | leaf .. | padding .. | align .. | stack .. => True

theorem isFilled_of_measure {node : Node} {given : Constraints} {m : Measured} (hp : node.IsPlain)
    (hm : node.measure given = .ok m) : m.node.IsFilled := by
  cases node with
  | leaf frame content =>
    rw [(measure_leaf hm).2]
    exact trivial
  | padding frame insets child =>
    obtain ⟨_, _, _, _, -, -, -, -, -, hnode⟩ := measure_padding hm
    rw [hnode]
    exact trivial
  | align frame alignment measured child =>
    obtain ⟨_, -, -, hnode⟩ := measure_align hm
    rw [hnode]
    exact trivial
  | stack frame style totals items =>
    rcases Classical.em (liveCount items = 0) with hl | hl
    · rw [(measure_stack_empty hm hl).2]
      exact trivial
    · obtain ⟨_, -, -, hnode⟩ := measure_stack hm hl
      rw [hnode]
      exact trivial
  | table frame grid cells =>
    obtain ⟨-, once, again, sized, rfl, -, -, -, hnode, -⟩ := run_table hm
    rw [hnode]
    refine ⟨?_, fun axis v hv => ?_⟩
    · rw [IsNumbered, List.length_map, List.length_zipIdx]
      exact hp
    · rw [Grid.extents_measured] at hv
      exact Grid.nonneg_of_mem_cover v hv

/-- The transposed tree is placed as the tree is. -/
def TurnsInPlace (node : Node) : Prop := ∀ (bounds : Rect) (p : Placed), bounds.StartsInRange →
  node.place bounds = .ok p →
    ∃ p', node.transpose.place bounds.transpose = .ok p' ∧ p'.node = p.node.transpose

variable {frame : Frame}

theorem TurnsInPlace.leaf {content : Leaf} : (leaf frame content).TurnsInPlace := by
  intro bounds p hb hp
  have hplace : content.transpose.place bounds.transpose = (content.place bounds).transpose := by
    cases content <;> rfl
  rw [transpose, place, place_leaf hp]
  refine ⟨_, map_eq_ok_iff.2 ⟨_, rfl, rfl⟩, ?_⟩
  dsimp only
  rw [hplace]
  rfl

theorem TurnsInPlace.padding {insets : Insets} {child : Node} (h : child.TurnsInPlace) :
    (padding frame insets child).TurnsInPlace := by
  intro bounds p hb hp
  obtain ⟨inner, placed, hi, hc, hnode⟩ := place_padding hp
  obtain ⟨placed', hc', hturn⟩ := h inner placed (Rect.startsInRange_of_inset hi) hc
  rw [transpose, place]
  refine ⟨_, map_eq_ok_iff.2 ⟨_, bind_eq_ok_iff.2 ⟨_, Rect.inset_transpose hi,
    bind_eq_ok_iff.2 ⟨placed', hc', rfl⟩⟩, rfl⟩, ?_⟩
  rw [hnode, transpose, ← hturn]
  rfl

theorem TurnsInPlace.align {alignment : Alignment} {measured : Size} {child : Node}
    (h : child.TurnsInPlace) : (align frame alignment measured child).TurnsInPlace := by
  intro bounds p hb hp
  obtain ⟨slot, placed, hs, hc, hnode⟩ := place_align hp
  obtain ⟨placed', hc', hturn⟩ := h slot placed (Alignment.startsInRange_of_slot hs) hc
  rw [transpose, place]
  refine ⟨_, map_eq_ok_iff.2 ⟨_, bind_eq_ok_iff.2 ⟨_, Alignment.slot_transpose hs,
    bind_eq_ok_iff.2 ⟨placed', hc', rfl⟩⟩, rfl⟩, ?_⟩
  rw [hnode, transpose, ← hturn]
  rfl

/-! ## Stacks -/

theorem measuredSizes_map_transposeItem (items : List (Item Node)) :
    measuredSizes (items.map transposeItem) =
      (measuredSizes items).map (Option.map Size.transpose) := by
  rw [measuredSizes, measuredSizes, List.map_map, List.map_map]
  refine List.map_congr_left fun item _ => ?_
  simp only [Function.comp, isLive_transposeItem]
  split <;> rfl

theorem placeItems_transpose {items : List (Item Node)} {slots : Slots}
    {placed : List (Option Placed)} (hs : slots.Suits (measuredSizes items))
    (hr : slots.Each (fun _ slot => slot.StartsInRange) (measuredSizes items))
    (h : ∀ item ∈ items, item.node.isLive = true → item.node.TurnsInPlace)
    (hp : placeItems items slots = .ok placed) :
    ∃ placed', placeItems (items.map transposeItem) slots.transpose = .ok placed' ∧
      List.zipWith Placed.settle (items.map transposeItem) placed' =
        (List.zipWith Placed.settle items placed).map transposeItem := by
  induction items generalizing slots placed with
  | nil =>
    cases slots with
    | fault fault => cases hp
    | done => exact ⟨[], rfl, rfl⟩
    | next slot slots =>
      cases slot with
      | none => exact ⟨[], rfl, rfl⟩
      | some slot => exact ⟨[], rfl, rfl⟩
  | cons item rest ih =>
    obtain ⟨hitem, hrest⟩ := List.forall_mem_cons.1 h
    cases slots with
    | fault fault => cases hp
    | done =>
      rw [placeItems_done] at hp
      refine ⟨_, placeItems_done _, ?_⟩
      rw [zipWith_settle_none, ← Except.ok.inj hp, zipWith_settle_none]
    | next slot slots =>
      obtain ⟨hslot, hsuits⟩ := slot_eq_none_iff hs
      rw [measuredSizes_cons] at hr
      cases slot with
      | none =>
        rw [if_neg (hslot.1 rfl)] at hr
        obtain ⟨others, ho, rfl⟩ := placeItems_none_eq_ok_iff.1 hp
        obtain ⟨others', ho', hturn⟩ := ih hsuits hr hrest ho
        refine ⟨none :: others', ?_, ?_⟩
        · rw [List.map_cons, Slots.transpose, Option.map_none]
          exact placeItems_none_eq_ok_iff.2 ⟨others', ho', rfl⟩
        · rw [List.map_cons, List.zipWith_cons_cons, hturn, List.zipWith_cons_cons, List.map_cons]
          rfl
      | some slot =>
        have hl : item.node.isLive = true :=
          Decidable.of_not_not (mt hslot.2 (Option.some_ne_none slot))
        rw [if_pos hl] at hr
        obtain ⟨q, others, hq, ho, rfl⟩ := placeItems_some_eq_ok_iff.1 hp
        obtain ⟨others', ho', hturn⟩ := ih hsuits hr.2 hrest ho
        obtain ⟨q', hq', hturned⟩ := hitem hl slot q hr.1 hq
        refine ⟨some q' :: others', ?_, ?_⟩
        · rw [List.map_cons, Slots.transpose, Option.map_some]
          exact placeItems_some_eq_ok_iff.2 ⟨q', others', hq', ho', rfl⟩
        · rw [List.map_cons, List.zipWith_cons_cons, hturn, List.zipWith_cons_cons, List.map_cons,
            Placed.settle, hturned]
          rfl

theorem TurnsInPlace.stack {style : StackStyle} {totals : StackTotals} {items : List (Item Node)}
    (h : ∀ item ∈ items, item.node.isLive = true → item.node.TurnsInPlace) :
    (stack frame style totals items).TurnsInPlace := by
  intro bounds p hb hp
  obtain ⟨placed, hc, hnode⟩ := place_stack hp
  obtain ⟨placed', hc', hturn⟩ := placeItems_transpose StackStyle.suits_slots
    (StackStyle.each_startsInRange hb ..) h hc
  rw [← StackStyle.slots_transpose, ← measuredSizes_map_transposeItem] at hc'
  rw [transpose_stack, place]
  refine ⟨_, map_eq_ok_iff.2 ⟨_, bind_eq_ok_iff.2 ⟨placed', hc', rfl⟩, rfl⟩, ?_⟩
  rw [hnode, transpose_stack, ← hturn]
  rfl

/-! ## Tables -/

theorem TurnsInPlace.table {grid : Grid} {cells : List (Option Node)}
    (hf : (table frame grid cells).IsFilled)
    (h : ∀ child, some child ∈ cells → child.isLive = true → child.TurnsInPlace) :
    (table frame grid cells).TurnsInPlace := by
  intro bounds p hb hp
  obtain ⟨hl, hn⟩ := hf
  obtain ⟨right, bottom, placed, hm, hright, hbottom, hplaced, hnode⟩ := place_table hp
  have hlefts : grid.transpose.lines .horizontal bounds.transpose.origin.x =
      grid.lines .vertical bounds.origin.y := Grid.lines_transpose ..
  have htops : grid.transpose.lines .vertical bounds.transpose.origin.y =
      grid.lines .horizontal bounds.origin.x := Grid.lines_transpose ..
  obtain ⟨placed', hplaced', hturn⟩ := exists_turned grid cells
    (f := fun cell => grid.transpose.slot (grid.lines .vertical bounds.origin.y)
      (grid.lines .horizontal bounds.origin.x) cell.2 >>= (content cell).place)
    (R := fun cell q => q.node = (placed (cell.1, grid.source cell.2)).node.transpose)
    fun cell hc hlive => by
      obtain ⟨hj, hmem⟩ := Grid.mem_zipIdx_turn hl hc
      obtain ⟨-, hi, hchild⟩ := exists_of_isLiveCell hmem hlive
      obtain ⟨slot, hs, hq⟩ := hplaced _ hmem hlive
      have hrange : slot.StartsInRange :=
        Grid.startsInRange_of_slot hm hn (Grid.source_lt hj) hb hright hs
      obtain ⟨q', hq', hturned⟩ := h _ (List.mem_of_getElem? hi) hchild slot _ hrange hq
      rw [content_transposeCell hlive]
      exact ⟨q', bind_eq_ok_iff.2 ⟨_, Grid.slot_transpose hj hs (hrange .horizontal), hq'⟩,
        hturned⟩
  have hcells : placeCells (grid.transpose.slot (grid.lines .vertical bounds.origin.y)
      (grid.lines .horizontal bounds.origin.x)) 0 []
        ((grid.turn cells).map (Option.map transpose)) = .ok (pick isLiveCell placed'
          ((grid.turn cells).map (Option.map transpose)).zipIdx) := by
    rw [placeCells_pick]
    exact pickM_eq_ok_iff.2 ⟨placed', hplaced', rfl⟩
  rw [transpose_table, place, if_pos ((Grid.isMeasured_transpose grid).trans hm), hlefts, htops]
  refine ⟨_, map_eq_ok_iff.2 ⟨_, bind_eq_ok_iff.2 ⟨bottom, ?_, bind_eq_ok_iff.2 ⟨_, hcells,
    bind_eq_ok_iff.2 ⟨right, ?_, rfl⟩⟩⟩, rfl⟩, ?_⟩
  · rw [Grid.stop_transpose]
    exact hbottom
  · rw [Grid.stop_transpose]
    exact hright
  · dsimp only
    rw [zipWith_settleCell_placed, hnode, transpose_table,
      settled_turn (f := fun cell => (placed cell).node) hl hturn]
    rfl

/-- In a transposed box a transposed tree is placed as the tree is in the box. -/
theorem turnsInPlace_of_allReached {root : Node} (h : root.AllReached IsFilled) :
    root.TurnsInPlace := by
  induction root with
  | leaf frame content => exact .leaf
  | padding frame insets child ih => exact .padding (ih (allReached_padding.1 h).2)
  | align frame alignment measured child ih => exact .align (ih (allReached_align.1 h).2)
  | stack frame style totals items ih =>
    exact .stack fun item hi hl => ih item hi ((allReached_stack.1 h).2 item hi hl)
  | table frame grid cells ih =>
    obtain ⟨hf, hcells⟩ := allReached_table.1 h
    exact .table hf fun child hc hl => ih child hc (hcells child hc hl)

/-- Where the layout of a tree of plain nodes comes to a result, so does that of the transposed
tree, and it is the transposed result: measuring answers the transposed size with as many calls,
placing leaves every node at the transposed place with the transposed sizes, and the tree needs
along an axis what the transposed tree needs along the other one. -/
theorem layout_transpose {root : Node} (h : root.AllReached IsPlain) :
    (∀ given m, root.measure given = .ok m →
      ∃ m', root.transpose.measure given.transpose = .ok m' ∧ m'.size = m.size.transpose ∧
        m'.visit.size = m.visit.size ∧ m'.node = m.node.transpose ∧
        ∀ bounds p, bounds.StartsInRange → m.node.place bounds = .ok p →
          ∃ p', m'.node.place bounds.transpose = .ok p' ∧ p'.node = p.node.transpose) ∧
      ∀ axis other least, root.minExtent axis.flip other = .ok least →
        root.transpose.minExtent axis other = .ok least := by
  refine ⟨fun given m hm => ?_, minExtent_transpose h⟩
  obtain ⟨m', hm', hmirror⟩ := turns_of_allReached h given m hm
  refine ⟨m', hm', hmirror.size, hmirror.calls, hmirror.node, fun bounds p hb hp => ?_⟩
  have hfilled : m.node.AllReached IsFilled :=
    h.of_measure (fun _ _ _ hp hm => isFilled_of_measure hp hm) hm
  rw [hmirror.node]
  exact turnsInPlace_of_allReached hfilled bounds p hb hp

/-- A row of a padded canvas, which shares in the room, and a table of two rows. The transposed tree
is a column, whose table has two columns. -/
theorem layout_transpose_row :
    let grid : Grid := { rows := 2, cols := 1, sized := true }
    let row := stackOf { axis := .horizontal, align := .stretch }
      [(pad ⟨1, 2, 3, 4⟩ (ofLeaf (.canvas ⟨10, 5⟩ .visible none)), 1),
        (table {} grid [some (ofLeaf (.spacer ⟨20, 8⟩)), some (ofLeaf (.spacer ⟨6, 9⟩))], 0)]
    let box : Rect := ⟨⟨7, 5⟩, ⟨100, 30⟩⟩
    ∃ m p m' p', row.measure (.exactly ⟨100, 30⟩) = .ok m ∧ m.node.place box = .ok p ∧
      row.transpose.measure (.exactly ⟨30, 100⟩) = .ok m' ∧ m'.size = ⟨30, 100⟩ ∧
      m'.visit.size = m.visit.size ∧ m'.node.place box.transpose = .ok p' ∧
      p'.node = p.node.transpose ∧ p'.node.children.map (·.bounds) =
        [⟨⟨5, 7⟩, ⟨30, 80⟩⟩, ⟨⟨5, 87⟩, ⟨30, 20⟩⟩] ∧
      row.transpose.minExtent .vertical 50 = .ok 36 := by
  intro grid row box
  have hkind : row.AllReached IsPlain := by
    simp only [row, stackOf, pad, ofLeaf, allReached_stack, List.map, List.forall_mem_cons,
      allReached_leaf, allReached_padding, allReached_table]
    refine ⟨trivial, fun _ => ⟨trivial, trivial⟩, fun _ => ⟨rfl, ?_⟩, by simp⟩
    intro child hc _
    simp only [List.mem_cons, Option.some.injEq, List.not_mem_nil, or_false] at hc
    rcases hc with rfl | rfl
    · exact allReached_leaf.2 trivial
    · exact allReached_leaf.2 trivial
  obtain ⟨hlayout, hleast⟩ := layout_transpose hkind
  obtain ⟨m, hm, hrest⟩ := map_eq_ok_iff.1 (by decide +kernel : (fun m => (m.size,
      (m.node.place box).toOption.map fun p => p.node.transpose.children.map (·.bounds))) <$>
        row.measure (.exactly ⟨100, 30⟩) =
    .ok (⟨100, 30⟩, some [⟨⟨5, 7⟩, ⟨30, 80⟩⟩, ⟨⟨5, 87⟩, ⟨30, 20⟩⟩]))
  simp only [Prod.mk.injEq] at hrest
  obtain ⟨hsize, hplaced⟩ := hrest
  obtain ⟨m', hm', hsize', hcalls, -, hplace⟩ := hlayout _ m hm
  cases hp : m.node.place box with
  | error fault => rw [hp] at hplaced; cases hplaced
  | ok p =>
    rw [hp] at hplaced
    obtain ⟨p', hp', hnode⟩ := hplace box p (fun axis => by cases axis <;> decide) hp
    exact ⟨m, p, m', p', hm, hp, hm', by rw [hsize', hsize]; rfl, hcalls, hp', hnode,
      by rw [hnode]; exact Option.some.inj hplaced, hleast .vertical 50 36 (by decide +kernel)⟩

end Node

end BoxLayout
