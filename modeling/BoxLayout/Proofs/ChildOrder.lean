import BoxLayout.Proofs.Natural
import BoxLayout.Proofs.Shares
import BoxLayout.Proofs.Signs

/-!
# The order of children

What a stack computes from its children are sums and maxima, and what each child gets depends on
these and on the child. So a stack with its children in another order is measured in the same way
(`Sharing.IsRun.perm`): it gives the same answer with as many calls, and leaves each child as it did
(`Node.measure_perm`). Its least extents are the same too (`Node.minExtent_perm`).

Sums stop at the greatest extent. They do not depend on the order as long as no term is negative,
and the total that is corrected child by child does not either as long as no child shrinks
(`StackStyle.foldlM_replaceIn_perm`). What a stack recalls of a collapsed child is not measured
again, so that a reordered child has to carry it along
(`order_shows_in_recalled_sizes_and_beyond_counting`).
-/

namespace BoxLayout

theorem sumFlex_perm {weights weights' : List Nat} (h : weights.Perm weights') :
    sumFlex weights = sumFlex weights' := by
  induction h with
  | nil => rfl
  | cons weight _ ih => rw [sumFlex, sumFlex, ih]
  | swap a b rest => rw [sumFlex, sumFlex, sumFlex, sumFlex, Nat.add_left_comm]
  | trans _ _ ih₁ ih₂ => exact ih₁.trans ih₂

namespace StackStyle

variable {style : StackStyle}

theorem totalFlex_perm {weights weights' : List Nat} (h : weights.Perm weights') :
    style.totalFlex weights = style.totalFlex weights' := by
  rw [totalFlex, totalFlex, sumFlex_perm h]

/-- The total comes to the same in any order, also where it stops at the greatest extent. -/
theorem foldlM_replaceIn_perm {changes changes' : List (Int × Int)} (hperm : changes.Perm changes')
    {total : Int} (h : ∀ change ∈ changes, 0 ≤ change.1 ∧ change.1 ≤ change.2)
    (hs : List.sum (changes.map (·.1)) ≤ total) (ht : total ≤ Extent.inf) :
    changes.foldlM replaceIn total = changes'.foldlM replaceIn total := by
  have hold : List.sum (changes'.map (·.1)) ≤ total := by
    rwa [← (hperm.map (·.1)).sum_eq]
  rw [foldlM_replaceIn_eq h hs ht,
    foldlM_replaceIn_eq (fun change hc => h change (hperm.mem_iff.2 hc)) hold ht,
    (hperm.map _).sum_eq]

theorem minMain_perm {extents extents' : List Int} (hperm : extents.Perm extents')
    (h : ∀ v ∈ extents, 0 ≤ v) : style.minMain extents = style.minMain extents' := by
  rw [minMain, minMain, Extent.largest_eq_of_perm hperm, hperm.length_eq,
    Extent.total_eq_of_perm hperm h]

end StackStyle

namespace Node

variable {frame : Frame} {style : StackStyle} {totals : StackTotals}
  {items items' : List (Item Node)} {given : Constraints} {m : Measured}

theorem liveCount_perm (hperm : items.Perm items') : liveCount items = liveCount items' :=
  hperm.countP_eq _

/-! ## Least extents -/

theorem exists_itemExtents_perm (hperm : items.Perm items') {axis : Axis} {other : Int}
    {extents : List Int} (h : itemExtents axis other items = .ok extents) :
    ∃ extents', itemExtents axis other items' = .ok extents' ∧ extents.Perm extents' := by
  obtain ⟨hfound, rfl⟩ := itemExtents_eq_ok h
  exact ⟨_, itemExtents_of_forall fun item hi hl => hfound item (hperm.mem_iff.2 hi) hl,
    (hperm.filter _).map _⟩

/-- Across the axis the greatest need counts, whatever the needs are. -/
theorem minExtent_flip_perm (hperm : items.Perm items') {main least : Int}
    (h : (stack frame style totals items).minExtent style.axis.flip main = .ok least) :
    (stack frame style totals items').minExtent style.axis.flip main = .ok least := by
  rw [minExtent, if_neg style.axis.flip_ne] at h ⊢
  obtain ⟨part, hpart, h⟩ := bind_eq_ok_iff.1 h
  obtain ⟨extents, he, h⟩ := bind_eq_ok_iff.1 h
  obtain ⟨extents', he', hp⟩ := exists_itemExtents_perm hperm he
  cases h
  rw [← liveCount_perm hperm, Extent.largest_eq_of_perm hp]
  exact bind_eq_ok_iff.2 ⟨part, hpart, bind_eq_ok_iff.2 ⟨extents', he', rfl⟩⟩

theorem minExtent_axis_perm (hperm : items.Perm items')
    (hl : ∀ item ∈ items, item.node.isLive = true → item.node.AllReached HasLengths)
    {other least : Int}
    (ho : Extent.IsLength other)
    (h : (stack frame style totals items).minExtent style.axis other = .ok least) :
    (stack frame style totals items').minExtent style.axis other = .ok least := by
  rw [minExtent, if_pos rfl] at h ⊢
  obtain ⟨extents, he, h⟩ := bind_eq_ok_iff.1 h
  obtain ⟨extents', he', hp⟩ := exists_itemExtents_perm hperm he
  cases h
  obtain ⟨hfound, rfl⟩ := itemExtents_eq_ok he
  have hnn : ∀ v ∈ (items.filter (·.node.isLive)).map fun item =>
      value (item.node.minExtent style.axis other), 0 ≤ v :=
    forall_mem_map_filter.2 fun item hi hlive =>
      (isLength_of_minExtent (hl item hi hlive) ho (hfound item hi hlive)).1
  rw [StackStyle.minMain_perm hp hnn]
  exact bind_eq_ok_iff.2 ⟨extents', he', rfl⟩

theorem minExtent_perm (hperm : items.Perm items')
    (hl : ∀ item ∈ items, item.node.isLive = true → item.node.AllReached HasLengths)
    {other least : Int} (ho : Extent.IsLength other) : ∀ axis,
      (stack frame style totals items).minExtent axis other = .ok least →
        (stack frame style totals items').minExtent axis other = .ok least :=
  (Axis.forall_iff style.axis).2
    ⟨minExtent_axis_perm hperm hl ho, minExtent_flip_perm hperm⟩

theorem breadth_perm (hperm : items.Perm items') {breadth : Int}
    (h : (stack frame style totals items).breadth style given = .ok breadth) :
    (stack frame style totals items').breadth style given = .ok breadth := by
  unfold Node.breadth at h ⊢
  split at h <;> rename_i hb
  · rw [if_pos hb]
    exact minExtent_flip_perm hperm h
  · rw [if_neg hb]
    exact h

end Node

/-! ## Runs -/

namespace Sharing

open Node

variable {run : Sharing} {frame : Frame} {style : StackStyle} {totals : StackTotals}
  {items items' : List (Item Node)} {given : Constraints}

theorem onceAlong_perm (run : Sharing) (hperm : items.Perm items') (axis : Axis) :
    (run.onceAlong axis items).Perm (run.onceAlong axis items') := (hperm.filter _).map _

theorem changes_perm (run : Sharing) (hperm : items.Perm items') (axis : Axis) :
    (run.changes axis items).Perm (run.changes axis items') := (hperm.filter _).map _

theorem breadthOf_perm (run : Sharing) (hperm : items.Perm items') :
    run.breadthOf style items = run.breadthOf style items' := by
  have hagain : (run.againAlong style.axis.flip items).Perm
      (run.againAlong style.axis.flip items') := (hperm.filter _).map _
  rw [breadthOf, breadthOf, ((run.onceAlong_perm hperm _).append hagain).foldl_eq]

theorem sizeAll_calls_perm (run : Sharing) (hperm : items.Perm items') :
    Visit.sizeAll (Measured.calls (pick (·.node.isLive) run.once items) ++
        Measured.calls (pick run.shares run.again items)) =
      Visit.sizeAll (Measured.calls (pick (·.node.isLive) run.once items') ++
        Measured.calls (pick run.shares run.again items')) := by
  have hsum (p : Item Node → Bool) (f : Item Node → Measured) :
      Visit.sizeAll (Measured.calls (pick p f items)) =
        Visit.sizeAll (Measured.calls (pick p f items')) := by
    rw [Measured.sizeAll_calls_pick, Measured.sizeAll_calls_pick,
      ((hperm.filter p).map fun item => (f item).visit.size).sum_eq]
  rw [Visit.sizeAll_append, Visit.sizeAll_append, hsum, hsum]

namespace IsRun

variable (h : run.IsRun (stack frame style totals items) style items given)
  (hc : ∀ item ∈ items, item.node.isLive = true → item.node.AllReached HasNonnegInsets)

include h hc

theorem nonneg_onceAlong : ∀ v ∈ run.onceAlong style.axis items, 0 ≤ v :=
  forall_mem_map_filter.2 fun item hi hl =>
    (isProper_of_measure (hc item hi hl) (h.once item hi hl) style.axis).1

omit hc in
/-- Where there is room to share the children have not used up all there is. -/
theorem total_lt (hn : given.isNormalized = true)
    (hnn : ∀ v ∈ run.onceAlong style.axis items, 0 ≤ v) (hpos : 0 < run.extra) :
    Extent.total (run.onceAlong style.axis items) < Extent.inf := by
  have hmain := Constraints.isNormalized_iff.1 hn style.axis
  have hroom := h.extra_eq_room hn hnn
  rw [if_neg (Nat.ne_of_gt (h.flex_pos hpos))] at hroom
  have hle := StackStyle.add_room_le hmain (Extent.isLength_total hnn).1 (hroom ▸ hpos)
  have := (Limits.isLength_hi hmain).2
  omega

/-- No child shrinks, and what the children chose at first has been counted. -/
theorem changes_spec (hn : given.isNormalized = true) :
    (∀ change ∈ run.changes style.axis items, 0 ≤ change.1 ∧ change.1 ≤ change.2) ∧
      List.sum ((run.changes style.axis items).map (·.1)) ≤
        Extent.total (run.onceAlong style.axis items) := by
  have hnn := h.nonneg_onceAlong hc
  rcases Int.lt_or_le 0 run.extra with hpos | hz
  · -- a stack that is cut into slices shares out nothing
    have hs : style.isHomogeneous = false := by
      cases hs : style.isHomogeneous with
      | false => rfl
      | true => exact absurd (h.extra_of_isHomogeneous hs) (Int.ne_of_gt hpos)
    have hf := h.isFaithful hs hc
    refine ⟨hf.forall_mem_changes h hs, ?_⟩
    rw [Extent.total_eq_sum hnn (h.total_lt hn hnn hpos)]
    exact hf.sum_changes_le
  · rw [changes_eq_nil (Int.le_antisymm hz h.isLength_extra.1)]
    exact ⟨nofun, (Extent.isLength_total hnn).1⟩

/-- What a stack computes while it is measured it also computes for its children in another
order. -/
theorem perm (hn : given.isNormalized = true) (hperm : items.Perm items') :
    run.IsRun (stack frame style totals items') style items' given := by
  have hnn := h.nonneg_onceAlong hc
  have htotal : Extent.total (run.onceAlong style.axis items') =
      Extent.total (run.onceAlong style.axis items) :=
    (Extent.total_eq_of_perm (run.onceAlong_perm hperm _) hnn).symm
  exact {
    flex := StackStyle.totalFlex_perm ((hperm.filter (·.node.isLive)).map (·.flex)) ▸ h.flex
    breadth := breadth_perm hperm h.breadth
    offer := liveCount_perm hperm ▸ h.offer
    once := fun item hi => h.once item (hperm.mem_iff.2 hi)
    extra := by
      rw [htotal]
      exact h.extra
    enlarged := fun item hi => h.enlarged item (hperm.mem_iff.2 hi)
    again := fun item hi => h.again item (hperm.mem_iff.2 hi)
    extent := by
      obtain ⟨hgrow, hsum⟩ := h.changes_spec hc hn
      rw [htotal, ← StackStyle.foldlM_replaceIn_perm (run.changes_perm hperm _) hgrow hsum
        (Extent.isLength_total hnn).2]
      exact h.extent }

end IsRun

end Sharing

/-! ## Measuring -/

namespace Node

variable {frame : Frame} {style : StackStyle} {totals : StackTotals}
  {items items' : List (Item Node)} {given : Constraints} {m : Measured}

/-- A measured stack is left with what became of each of its children. -/
theorem measure_perm (hperm : items.Perm items')
    (hinsets : (stack frame style totals items).AllReached HasNonnegInsets)
    (hm : (stack frame style totals items).measure given = .ok m) :
    ∃ (m' : Measured) (totals' : StackTotals) (after : Item Node → Item Node),
      (stack frame style totals items').measure given = .ok m' ∧ m'.size = m.size ∧
      m'.visit.size = m.visit.size ∧ m.node = stack frame style totals' (items.map after) ∧
      m'.node = stack frame style totals' (items'.map after) := by
  have hn := isNormalized_of_measure hm
  rcases Classical.em (liveCount items = 0) with hcount | hcount
  · obtain ⟨ha, hnode, hcalls⟩ := run_stack_empty hm hcount
    refine ⟨_, .zero, id, measure_of_empty hn (liveCount_perm hperm ▸ hcount) ha, rfl, ?_, ?_, ?_⟩
    · rw [Visit.size_eq m.visit, hcalls]
      rfl
    · rw [hnode, List.map_id]
    · rw [List.map_id]
      rfl
  · obtain ⟨run, hr, ha, hnode, hcalls⟩ := run_stack hm hcount
    have hr' := hr.perm (allReached_stack.1 hinsets).2 hn hperm
    rw [run.breadthOf_perm hperm] at ha
    refine ⟨_, ⟨run.flex, run.extent⟩, run.settled,
      measure_of_isRun hn (liveCount_perm hperm ▸ hcount) hr' ha, rfl, ?_, hnode, rfl⟩
    rw [Visit.size_eq m.visit, hcalls, run.sizeAll_calls_perm hperm]
    rfl

/-- The order of the children is of no matter for measuring. If a stack answers, it gives the same
answer with its children in another order, with as many calls and the same totals, and each child
is left with the same size and in the same state. The least extents of the stack are also the same
at every length, and are found in one order if they are in the other. -/
theorem measures_alike_in_any_order (hperm : items.Perm items') :
    ((stack frame style totals items).AllReached HasNonnegInsets → ∀ given m,
      (stack frame style totals items).measure given = .ok m →
        ∃ (m' : Measured) (totals' : StackTotals) (after : Item Node → Item Node),
          (stack frame style totals items').measure given = .ok m' ∧ m'.size = m.size ∧
          m'.visit.size = m.visit.size ∧ m.node = stack frame style totals' (items.map after) ∧
          m'.node = stack frame style totals' (items'.map after)) ∧
    ((∀ item ∈ items, item.node.isLive = true → item.node.AllReached HasLengths) →
      ∀ axis other least, Extent.IsLength other →
        ((stack frame style totals items).minExtent axis other = .ok least ↔
          (stack frame style totals items').minExtent axis other = .ok least)) :=
  ⟨fun hinsets _ _ hm => measure_perm hperm hinsets hm, fun hl axis _ _ ho =>
    ⟨minExtent_perm hperm hl ho axis,
      minExtent_perm hperm.symm (fun item hi => hl item (hperm.mem_iff.2 hi)) ho axis⟩⟩

/-- A row in which two children share 33 pixels, and the same row the other way round. -/
theorem reversed_row_measures_alike :
    let children := [(ofLeaf (.spacer ⟨10, 4⟩), 1), (pad (.all 2) (ofLeaf (.spacer ⟨5, 4⟩)), 2),
      (ofLeaf (.text "a text" .visible default), 0)]
    let row := stackOf { axis := .horizontal } children
    let back := stackOf { axis := .horizontal } children.reverse
    (∃ m m', row.measure (.upTo ⟨100, 20⟩) = .ok m ∧ back.measure (.upTo ⟨100, 20⟩) = .ok m' ∧
      m.size = ⟨100, 16⟩ ∧ m'.size = ⟨100, 16⟩ ∧ m'.visit.size = m.visit.size) ∧
    row.minExtent .horizontal 20 = .ok 51 ∧ back.minExtent .horizontal 20 = .ok 51 := by
  intro children row back
  have hinsets : row.AllReached HasNonnegInsets := by decide +kernel
  have hlengths : row.AllReached HasLengths := by decide +kernel
  have hleast : row.minExtent .horizontal 20 = .ok 51 := by decide +kernel
  obtain ⟨m, hm, hsize⟩ : ∃ m, row.measure (.upTo ⟨100, 20⟩) = .ok m ∧ m.size = ⟨100, 16⟩ :=
    map_eq_ok_iff.1 (by decide +kernel :
      Measured.size <$> row.measure (.upTo ⟨100, 20⟩) = .ok ⟨100, 16⟩)
  obtain ⟨hmeasure, hextent⟩ := @measures_alike_in_any_order {} { axis := .horizontal } .zero _ _
    ((List.reverse_perm children).symm.map _)
  obtain ⟨m', -, -, hm', hsize', hcalls, -⟩ := hmeasure hinsets _ m hm
  exact ⟨⟨m, m', hm, hm', hsize, hsize'.trans hsize, hcalls⟩, hleast,
    (hextent (allReached_stack.1 hlengths).2 .horizontal 20 51 (by decide)).1 hleast⟩

/-- The sizes that a stack recalls of its children, also of those that have been collapsed since. -/
def recalledSizes : Node → List Size
  | stack _ _ _ items => items.map (·.measured)
  | leaf .. | padding .. | align .. | table .. => []

theorem itemExtents_cons {axis : Axis} {other need : Int} {needs : List Int} {item : Item Node}
    {rest : List (Item Node)} (hl : item.node.isLive = true)
    (hneed : item.node.minExtent axis other = .ok need)
    (hrest : itemExtents axis other rest = .ok needs) :
    itemExtents axis other (item :: rest) = .ok (need :: needs) := by
  rw [itemExtents, if_pos hl, hneed, hrest]
  rfl

/-- A row of `first`, two spacers that fill more than there can be, and `last`. -/
def filledRow (first last : List Node) : Node :=
  stackOf { axis := .horizontal }
    ((first ++ [ofLeaf (.spacer ⟨2147483640, 1⟩), ofLeaf (.spacer ⟨20, 1⟩)] ++ last).map (·, 0))

/-- A child beside the spacers is measured with them, and its need counts last or first. -/
theorem minExtent_filledRow {child : Node} {need : Int} (hl : child.isLive = true)
    (hfit : child.AllReached IsFit)
    (hneed : child.minExtent .horizontal Extent.inf = .ok need) :
    ∃ m, (filledRow [] [child]).measure .free = .ok m ∧
      (filledRow [] [child]).minExtent .horizontal Extent.inf =
        .ok (Extent.total [2147483640, 20, need]) ∧
      (filledRow [child] []).minExtent .horizontal Extent.inf =
        .ok (Extent.total [need, 2147483640, 20]) := by
  have hspacer (size : Size) : (ofLeaf (.spacer size)).AllReached IsFit :=
    allReached_leaf.2 (isFit_leaf (Leaf.IsShort.isSafe trivial))
  have hlive (size : Size) : (ofLeaf (.spacer size)).isLive = true := rfl
  have hlight : ¬ (filledRow [] [child]).IsOverweight := by
    simp [filledRow, stackOf, IsOverweight, weights, StackStyle.isHomogeneous, hlive, hl, sumFlex]
  have hrow : (filledRow [] [child]).AllReached IsFit := by
    refine allReached_stack.2 ⟨isFit_stack hlight, ?_⟩
    simp only [List.nil_append, List.cons_append, List.map, List.forall_mem_cons]
    exact ⟨fun _ => hspacer _, fun _ => hspacer _, fun _ => hfit, List.forall_mem_nil _⟩
  obtain ⟨m, hm, -⟩ := measure_of_isFit hrow (by decide : Constraints.free.isNormalized = true)
  have hlast : itemExtents .horizontal Extent.inf
      [⟨ofLeaf (.spacer ⟨2147483640, 1⟩), 0, .zero⟩, ⟨ofLeaf (.spacer ⟨20, 1⟩), 0, .zero⟩,
        ⟨child, 0, .zero⟩] = .ok [2147483640, 20, need] :=
    itemExtents_cons rfl rfl (itemExtents_cons rfl rfl (itemExtents_cons hl hneed rfl))
  have hfirst : itemExtents .horizontal Extent.inf
      [⟨child, 0, .zero⟩, ⟨ofLeaf (.spacer ⟨2147483640, 1⟩), 0, .zero⟩,
        ⟨ofLeaf (.spacer ⟨20, 1⟩), 0, .zero⟩] = .ok [need, 2147483640, 20] :=
    itemExtents_cons hl hneed rfl
  simp only [filledRow, stackOf, List.nil_append, List.cons_append, List.append_nil, List.map]
    at hm ⊢
  refine ⟨m, hm, ?_, ?_⟩
  · rw [minExtent, if_pos rfl, hlast]
    rfl
  · rw [minExtent, if_pos rfl, hfirst]
    rfl

/-- Where the order does show. A stack recalls the size of a child that has been collapsed since it
was measured, but not if that child is taken out and put behind the others. And a sum that stops at
the greatest extent depends on where a term below zero stands, which only a label or slices that are
too many to be counted make. -/
theorem order_shows_in_recalled_sizes_and_beyond_counting :
    (∃ seen hidden m gone rest back m',
      (stackOf { axis := .horizontal } [(ofLeaf (.canvas ⟨7, 7⟩ .visible none), 0),
        (ofLeaf (.canvas ⟨5, 5⟩ .visible none), 0)]).measure .free = .ok seen ∧
      seen.node.modifyItem 0 (fun item =>
        { item with node := item.node.setVisibility .collapsed }) = .ok hidden ∧
      hidden.measure .free = .ok m ∧ m.node.recalledSizes = [⟨7, 7⟩, ⟨5, 5⟩] ∧
      m.node.remove 0 = .ok (gone, rest) ∧ rest.push gone 0 = .ok back ∧
      back.measure .free = .ok m' ∧ m'.node.recalledSizes = [⟨5, 5⟩, .zero]) ∧
    (let button := ofLeaf (.button (String.replicate 4294967291 'a') .visible default)
      ∃ m, (filledRow [] [button]).measure .free = .ok m ∧
        (filledRow [] [button]).minExtent .horizontal Extent.inf = .ok Extent.inf ∧
        (filledRow [button] []).minExtent .horizontal Extent.inf = .ok 2147483636) ∧
    let row := spacers 2147483648
    ∃ m, (filledRow [] [row]).measure .free = .ok m ∧
      (filledRow [] [row]).minExtent .horizontal Extent.inf = .ok Extent.inf ∧
      (filledRow [row] []).minExtent .horizontal Extent.inf = .ok 12 := by
  refine ⟨?_, ?_, ?_⟩
  · have hsizes : (do
        let seen ← (stackOf { axis := .horizontal } [(ofLeaf (.canvas ⟨7, 7⟩ .visible none), 0),
          (ofLeaf (.canvas ⟨5, 5⟩ .visible none), 0)]).measure .free
        let hidden ← seen.node.modifyItem 0 fun item =>
          { item with node := item.node.setVisibility .collapsed }
        let m ← hidden.measure .free
        let (gone, rest) ← m.node.remove 0
        let back ← rest.push gone 0
        let m' ← back.measure .free
        return (m.node.recalledSizes, m'.node.recalledSizes)) =
      .ok ([⟨7, 7⟩, ⟨5, 5⟩], [⟨5, 5⟩, .zero]) := by decide +kernel
    obtain ⟨seen, hseen, hsizes⟩ := bind_eq_ok_iff.1 hsizes
    obtain ⟨hidden, hhidden, hsizes⟩ := bind_eq_ok_iff.1 hsizes
    obtain ⟨m, hm, hsizes⟩ := bind_eq_ok_iff.1 hsizes
    obtain ⟨⟨gone, rest⟩, hgone, hsizes⟩ := bind_eq_ok_iff.1 hsizes
    obtain ⟨back, hback, hsizes⟩ := bind_eq_ok_iff.1 hsizes
    obtain ⟨m', hm', hsizes⟩ := bind_eq_ok_iff.1 hsizes
    obtain ⟨hbefore, hafter⟩ := Prod.mk.inj (Except.ok.inj hsizes)
    exact ⟨seen, hidden, m, gone, rest, back, m', hseen, hhidden, hm, hbefore, hgone, hback, hm',
      hafter⟩
  · have hsize : Leaf.buttonSize (String.replicate 4294967291 'a') = .ok ⟨-24, 24⟩ :=
      Leaf.buttonSize_of_length_eq (String.length_replicate ..)
    generalize String.replicate 4294967291 'a' = label at hsize ⊢
    have hneed : (ofLeaf (.button label .visible default)).minExtent .horizontal Extent.inf =
        .ok (-24) := by
      rw [ofLeaf, minExtent, Leaf.minExtent, hsize]
      rfl
    exact minExtent_filledRow rfl (allReached_leaf.2 (isFit_leaf (Leaf.isSafe_button hsize))) hneed
  · exact minExtent_filledRow rfl (allReached_spacers _) (minExtent_spacers (by decide) _)

end Node

end BoxLayout
