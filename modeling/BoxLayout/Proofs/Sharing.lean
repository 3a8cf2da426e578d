import BoxLayout.Proofs.Free

/-!
# How a stack shares out room

A stack that is not cut into slices asks each child freely along its axis. Those that have a weight
it then holds to what they chose and a share of the room on top (`Sharing.IsRun.along_enlarged`).
If children answer what they are held to (`Sharing.IsFaithful`), none of them shrinks, they use up
no more than the room there is, and the stack recalls the exact sum of what they answered last
(`Sharing.IsFaithful.extent_eq`). Insets that are not negative suffice for that
(`Sharing.IsRun.isFaithful`).
-/

namespace BoxLayout

namespace Node

variable {root : Node} {given : Constraints} {m : Measured}

theorem isProperlyPadded_of_measure (h : root.AllReached HasNonnegInsets)
    (hm : root.measure given = .ok m) : root.IsProperlyPadded := by
  induction root generalizing given m with
  | padding frame insets child ih =>
    obtain ⟨hi, hc⟩ := allReached_padding.1 h
    obtain ⟨hp, inner, found, hf, -⟩ := measure_padding_of_nonneg hi hm
    exact ⟨hp, ih hc hf⟩
  | leaf | align | stack | table => trivial

/-- Held to as much as it answered elsewhere, or to more, a tree answers what it is held to. -/
theorem along_eq_of_exactly (h : root.AllReached HasNonnegInsets) (hm : root.measure given = .ok m)
    {again : Constraints} {m' : Measured} (hm' : root.measure again = .ok m') {axis : Axis}
    {v : Int} (hv : again.along axis = .exactly v) (hle : m.size.along axis ≤ v) :
    m'.size.along axis = v := by
  have hp := isProperlyPadded_of_measure h hm
  have hlo := (admits_of_measure hp hm axis).1
  rw [(measure_bounds hp hm').2.2.1 axis v hv]
  omega

end Node

namespace Sharing

open Node

variable {run : Sharing} {stack : Node} {style : StackStyle} {items : List (Item Node)}
  {given : Constraints} {item : Item Node}

/-- The share of a child in the room. -/
def gain (run : Sharing) (item : Item Node) : Int :=
  StackStyle.share run.extra item.flex run.flex

/-- The extents along `axis` that the children answered last. -/
def lastAlong (run : Sharing) (axis : Axis) (items : List (Item Node)) : List Int :=
  (items.filter (·.node.isLive)).map fun item => (run.last item).size.along axis

theorem shares_iff_of_isLive (hl : item.node.isLive = true) :
    run.shares item = true ↔ 0 < run.extra ∧ 0 < item.flex := by
  rw [shares, hl, Bool.true_and, StackStyle.sharesIn_iff]

namespace IsRun

section

variable (h : run.IsRun stack style items given)

include h

theorem flex_eq (hs : style.isHomogeneous = false) :
    run.flex = sumFlex ((items.filter (·.node.isLive)).map (·.flex)) ∧ run.flex ≤ maxFlex := by
  rcases StackStyle.totalFlex_eq_ok_iff.1 h.flex with ⟨hh, -⟩ | ⟨-, hle, hsum⟩
  · rw [hs] at hh
    cases hh
  · exact ⟨hsum, hsum ▸ hle⟩

theorem flex_le (hs : style.isHomogeneous = false) (hi : item ∈ items)
    (hl : item.node.isLive = true) : item.flex ≤ run.flex :=
  (h.flex_eq hs).1 ▸ le_sumFlex (List.mem_map_of_mem (List.mem_filter.2 ⟨hi, hl⟩))

theorem isLength_extra : Extent.IsLength run.extra := by
  have hextra := h.extra
  split at hextra
  · exact Except.ok.inj hextra ▸ Extent.isLength_zero
  · obtain ⟨room, hroom, hextra⟩ := bind_eq_ok_iff.1 hextra
    obtain ⟨hrange, rfl⟩ := Extent.sub_eq_ok_iff.1 hroom
    have hmax := Except.ok.inj hextra
    have := hrange.2
    have := Extent.isLength_inf.1
    exact ⟨by omega, by omega⟩

theorem flex_pos (hpos : 0 < run.extra) : 0 < run.flex := by
  have hextra := h.extra
  split at hextra
  · have := Except.ok.inj hextra
    omega
  · omega

theorem extra_eq_room (hn : given.isNormalized = true)
    (hnn : ∀ v ∈ run.onceAlong style.axis items, 0 ≤ v) : run.extra = if run.flex = 0 then 0 else
      StackStyle.room (given.along style.axis)
        (Extent.total (run.onceAlong style.axis items)) := by
  have hextra := h.extra
  rw [StackStyle.spare_eq (Constraints.isNormalized_iff.1 hn _) (Extent.isLength_total hnn)]
    at hextra
  split at hextra <;> rename_i hflex
  · rw [if_pos hflex, Except.ok.inj hextra]
  · rw [if_neg hflex, Except.ok.inj hextra]

theorem gain_bounds (hs : style.isHomogeneous = false) (hi : item ∈ items)
    (hl : item.node.isLive = true) : 0 ≤ run.gain item ∧ run.gain item ≤ run.extra := by
  have hlength := h.isLength_extra
  rcases Int.lt_or_le 0 run.extra with hpos | hz
  · exact (StackStyle.scale_share hlength (h.flex_le hs hi hl) (h.flex_pos hpos)
      (h.flex_eq hs).2).2
  · have hzero : run.extra = 0 := Int.le_antisymm hz hlength.1
    rw [gain, StackStyle.share_of_ne (by rw [hzero]; decide), hzero]
    simp

/-- The shares add up to no more than the room. -/
theorem sum_gain_bounds (hs : style.isHomogeneous = false) (hne : run.extra ≠ Extent.inf) :
    0 ≤ List.sum ((items.filter (·.node.isLive)).map run.gain) ∧
      List.sum ((items.filter (·.node.isLive)).map run.gain) ≤ run.extra := by
  have hgain : ∀ v ∈ (items.filter (·.node.isLive)).map run.gain, 0 ≤ v ∧ v ≤ run.extra :=
    forall_mem_map_filter.2 fun _ hi hl => h.gain_bounds hs hi hl
  have hextra := h.isLength_extra.1
  refine ⟨List.sum_nonneg fun v hv => (hgain v hv).1, ?_⟩
  rcases Int.lt_or_le 0 run.extra with hpos | hz
  · have hle := StackStyle.sum_share_le hextra hne (h.flex_pos hpos)
      (Nat.le_of_eq (h.flex_eq hs).1.symm)
    rwa [List.map_map] at hle
  · rw [List.sum_eq_zero fun v hv => by have := hgain v hv; omega]
    exact hextra

/-- A child that is measured again is held to the extent that it chose and its share on top. -/
theorem along_enlarged (hs : style.isHomogeneous = false) (hi : item ∈ items)
    (hq : run.shares item = true) (ho : 0 ≤ (run.once item).size.along style.axis) :
    Extent.IsLength ((run.once item).size.along style.axis + run.gain item) ∧
      (run.enlarged item).along style.axis =
        .exactly ((run.once item).size.along style.axis + run.gain item) := by
  have hl := isLive_of_shares item hq
  have hscale := (StackStyle.scale_share h.isLength_extra (h.flex_le hs hi hl)
    (h.flex_pos (extra_pos_of_shares hq)) (h.flex_eq hs).2).1
  have hgain := (h.gain_bounds hs hi hl).1
  obtain ⟨share, hshare, he⟩ := bind_eq_ok_iff.1 (h.enlarged item hi hq)
  rw [hscale] at hshare
  cases hshare
  obtain ⟨v, hv, he⟩ := bind_eq_ok_iff.1 he
  obtain ⟨hrange, rfl⟩ := Extent.add_eq_ok_iff.1 hv
  have hlength : Extent.IsLength ((run.once item).size.along style.axis + run.gain item) :=
    ⟨Int.add_nonneg ho hgain, hrange.2⟩
  have hfree := h.along_offer (.inl hs)
  rw [Constraints.tightenAlong_eq (hfree ▸ Limits.isNormalized_free), hfree] at he
  refine ⟨hlength, ?_⟩
  rw [← Except.ok.inj he, Constraints.along_setAlong]
  exact congrArg Limits.exactly (Limits.nearest_free hlength)

end

end IsRun

/-- No first answer along the axis is negative, and a child that is measured again answers what it
is held to. -/
structure IsFaithful (run : Sharing) (axis : Axis) (items : List (Item Node)) : Prop where
  nonneg : ∀ item ∈ items, item.node.isLive = true → 0 ≤ (run.once item).size.along axis
  again_eq : ∀ item ∈ items, run.shares item = true →
    (run.again item).size.along axis = (run.once item).size.along axis + run.gain item

theorem IsRun.isFaithful (h : run.IsRun stack style items given)
    (hs : style.isHomogeneous = false)
    (hc : ∀ item ∈ items, item.node.isLive = true → item.node.AllReached HasNonnegInsets) :
    run.IsFaithful style.axis items where
  nonneg item hi hl := (isProper_of_measure (hc item hi hl) (h.once item hi hl) _).1
  again_eq item hi hq := by
    have hl := isLive_of_shares item hq
    have ho := (isProper_of_measure (hc item hi hl) (h.once item hi hl) style.axis).1
    have hgain := (h.gain_bounds hs hi hl).1
    exact along_eq_of_exactly (hc item hi hl) (h.once item hi hl) (h.again item hi hq)
      (h.along_enlarged hs hi hq ho).2 (by omega)

namespace IsFaithful

section

variable (hf : run.IsFaithful style.axis items) (h : run.IsRun stack style items given)

include hf

theorem nonneg_onceAlong : ∀ v ∈ run.onceAlong style.axis items, 0 ≤ v :=
  forall_mem_map_filter.2 hf.nonneg

include h

/-- The last answer is the first one and the share, which is nothing for a child without weight. -/
theorem along_last (hne : run.extra ≠ Extent.inf) (hi : item ∈ items)
    (hl : item.node.isLive = true) : (run.last item).size.along style.axis =
      (run.once item).size.along style.axis + run.gain item := by
  unfold last
  split <;> rename_i hq
  · exact hf.again_eq item hi hq
  · have hextra := h.isLength_extra.1
    have hnone : run.gain item = 0 := by
      rw [shares_iff_of_isLive hl] at hq
      rw [gain, StackStyle.share_of_ne hne]
      rcases Int.lt_or_le 0 run.extra with hpos | hz
      · rw [show item.flex = 0 by omega]
        simp
      · rw [show run.extra = 0 by omega]
        simp
    omega

theorem sum_lastAlong (hne : run.extra ≠ Extent.inf) : (run.lastAlong style.axis items).sum =
    (run.onceAlong style.axis items).sum +
      List.sum ((items.filter (·.node.isLive)).map run.gain) := by
  rw [onceAlong, ← List.sum_map_add]
  exact congrArg List.sum (List.map_congr_left fun item hm => by
    obtain ⟨hi, hl⟩ := List.mem_filter.1 hm
    exact hf.along_last h hne hi hl)

theorem once_le_last (hs : style.isHomogeneous = false) (hi : item ∈ items)
    (hl : item.node.isLive = true) :
    (run.once item).size.along style.axis ≤ (run.last item).size.along style.axis := by
  unfold last
  split <;> rename_i hq
  · have := hf.again_eq item hi hq
    have := (h.gain_bounds hs hi hl).1
    omega
  · exact Int.le_refl _

theorem sum_once_le_sum_last (hs : style.isHomogeneous = false) :
    (run.onceAlong style.axis items).sum ≤ (run.lastAlong style.axis items).sum :=
  List.sum_le_sum fun item hm => by
    obtain ⟨hi, hl⟩ := List.mem_filter.1 hm
    exact hf.once_le_last h hs hi hl

/-- No child that is measured again shrinks. -/
theorem forall_mem_changes (hs : style.isHomogeneous = false) :
    ∀ change ∈ run.changes style.axis items, 0 ≤ change.1 ∧ change.1 ≤ change.2 := by
  refine forall_mem_map_filter.2 fun item hi hq => ?_
  have hl := isLive_of_shares item hq
  have hge := hf.once_le_last h hs hi hl
  rw [last, if_pos hq] at hge
  exact ⟨hf.nonneg item hi hl, hge⟩

omit h in
theorem sum_changes_le : List.sum ((run.changes style.axis items).map (·.1)) ≤
    (run.onceAlong style.axis items).sum := by
  rw [changes, List.map_map]
  exact Extent.sum_filter_le hf.nonneg isLive_of_shares

/-- The stack recalls the sum of the last answers, unless that is no extent. -/
theorem extent_eq (hs : style.isHomogeneous = false)
    (hle : (run.lastAlong style.axis items).sum ≤ Extent.inf) :
    run.extent = (run.lastAlong style.axis items).sum := by
  have honce := hf.sum_once_le_sum_last h hs
  have htotal : Extent.total (run.onceAlong style.axis items) =
      (run.onceAlong style.axis items).sum := by
    rw [Extent.total_eq_min hf.nonneg_onceAlong]
    omega
  -- the last answers are the first ones and what the changes add
  have hlast : (run.lastAlong style.axis items).sum = (run.onceAlong style.axis items).sum +
      List.sum ((run.changes style.axis items).map fun change => change.2 - change.1) := by
    rw [onceAlong, changes, List.map_map, ← Extent.sum_filter_add isLive_of_shares]
    refine congrArg List.sum (List.map_congr_left fun item _ => ?_)
    simp only [last, Function.comp]
    split <;> omega
  have hextent := h.extent
  rw [htotal, StackStyle.foldlM_replaceIn_eq (hf.forall_mem_changes h hs) hf.sum_changes_le
    (by omega), ← hlast, Int.min_eq_left hle] at hextent
  exact (Except.ok.inj hextent).symm

end

end IsFaithful

end Sharing

/-! ## What a stack recalls -/

namespace Node

/-- The children of a stack that take part, in order. -/
def liveItems : Node → List (Item Node)
  | stack _ _ _ items => items.filter (·.node.isLive)
  | leaf .. | padding .. | align .. | table .. => []

/-- The extents along `axis` that a stack recalls of its children. -/
def measuredAlong (axis : Axis) (node : Node) : List Int :=
  node.liveItems.map (·.measured.along axis)

/-- What a stack recalls of itself. -/
def totals : Node → StackTotals
  | stack _ _ totals _ => totals
  | leaf .. | padding .. | align .. | table .. => .zero

variable {frame : Frame} {style : StackStyle} {totals : StackTotals} {items : List (Item Node)}
  {given : Constraints} {m : Measured} {run : Sharing}

/-- Measuring a stack leaves a stack of the same style with as many children that take part. -/
theorem exists_stack_of_measure (h : (stack frame style totals items).measure given = .ok m) :
    ∃ totals items', m.node = stack frame style totals items' ∧
      liveCount items' = liveCount items := by
  rcases Classical.em (liveCount items = 0) with hcount | hcount
  · exact ⟨_, _, (measure_stack_empty h hcount).2, rfl⟩
  · obtain ⟨run, hr, -, hnode⟩ := measure_stack h hcount
    refine ⟨_, _, hnode, ?_⟩
    have hlength := congrArg List.length (hr.map_filter_settled id)
    simpa [liveCount, List.countP_eq_length_filter] using hlength

theorem length_measuredAlong (axis : Axis) :
    ((stack frame style totals items).measuredAlong axis).length = liveCount items := by
  rw [measuredAlong, List.length_map, liveItems, liveCount, List.countP_eq_length_filter]

/-- A measured stack recalls the last answer of each child. -/
theorem measuredAlong_settled {stack : Node} (h : run.IsRun stack style items given)
    (axis : Axis) : (Node.stack frame style totals (items.map run.settled)).measuredAlong axis =
      run.lastAlong axis items :=
  h.map_filter_settled (·.measured.along axis)

theorem measuredAlong_of_empty (hcount : liveCount items = 0) (axis : Axis) :
    (stack frame style totals items).measuredAlong axis = [] := by
  rw [measuredAlong, liveItems, List.filter_eq_nil_iff.2 (List.countP_eq_zero.1 hcount)]
  rfl

theorem nonneg_measuredAlong (hinsets : (stack frame style totals items).AllReached HasNonnegInsets)
    (hm : (stack frame style totals items).measure given = .ok m) (axis : Axis) :
    ∀ v ∈ m.node.measuredAlong axis, 0 ≤ v := by
  rcases Classical.em (liveCount items = 0) with hcount | hcount
  · rw [(measure_stack_empty hm hcount).2, measuredAlong_of_empty hcount]
    exact nofun
  · obtain ⟨run, hr, -, hnode⟩ := measure_stack hm hcount
    rw [hnode, measuredAlong_settled hr]
    refine forall_mem_map_filter.2 fun item hi hl => ?_
    obtain ⟨given', hlast⟩ := hr.exists_measure_last hi hl
    exact (isProper_of_measure ((allReached_stack.1 hinsets).2 item hi hl) hlast axis).1

/-- A measured stack recalls the sum of the extents that it recalls of its children. -/
theorem extent_of_measure (hs : style.isHomogeneous = false)
    (hinsets : (stack frame style totals items).AllReached HasNonnegInsets)
    (hm : (stack frame style totals items).measure given = .ok m)
    (hle : (m.node.measuredAlong style.axis).sum ≤ Extent.inf) :
    m.node.totals.extent = (m.node.measuredAlong style.axis).sum := by
  rcases Classical.em (liveCount items = 0) with hcount | hcount
  · rw [(measure_stack_empty hm hcount).2, measuredAlong_of_empty hcount]
    rfl
  · obtain ⟨run, hr, -, hnode⟩ := measure_stack hm hcount
    rw [hnode, measuredAlong_settled hr] at hle ⊢
    exact (hr.isFaithful hs (allReached_stack.1 hinsets).2).extent_eq hr hs hle

end Node

end BoxLayout
