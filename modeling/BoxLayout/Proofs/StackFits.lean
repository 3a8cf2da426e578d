import BoxLayout.Proofs.Fits
import BoxLayout.Proofs.Sharing

/-!
# Measured stacks that fit a size

A stack that does not cut itself into equal slices settles if its children do (`Settles.stack`).
Along its axis it asks them freely, so that each answers what it needs, and then enlarges some of
them by shares of the room that is left (`Sharing.IsRoomy.extent_eq`). Across its axis every child
meets what the stack offers there (`StackStyle.meets_across`).
-/

namespace BoxLayout

namespace StackStyle

variable {style : StackStyle} {limits : Limits} {need breadth : Int}

/-- What is offered across the axis grants each child what it needs. -/
theorem grants_across (hn : limits.isNormalized = true) (hg : limits.Grants need)
    (hf : need < Extent.inf) (hb : style.align = .stretch →
      breadth = if limits.hi = Extent.inf then need else limits.hi) {below : Int}
    (hle : below ≤ need) : (style.across limits breadth).Grants below := by
  obtain ⟨-, hlh, hhi⟩ := Limits.isNormalized_iff.1 hn
  obtain ⟨lo_lt, need_le⟩ := hg
  unfold across
  split
  · rename_i ha
    have hb := hb ha
    refine Limits.grants_exactly ?_ ?_ <;> unfold Limits.nearest
    · split at hb <;> omega
    · split at hb <;> omega
  · exact ⟨(by decide : (0 : Int) < Extent.inf), show below ≤ limits.hi by omega⟩

/-- Across its axis a stack meets its limits with the breadth that its children take, and each child
fits in it. -/
theorem meets_across (hn : limits.isNormalized = true) (hg : limits.Grants need)
    (hb : style.align = .stretch →
      breadth = if limits.hi = Extent.inf then need else limits.hi) {vs : List Int}
    (hvs : ∀ v ∈ vs, ∃ below, 0 ≤ below ∧ below ≤ need ∧
      (style.across limits breadth).Meets below v)
    (hneed : need ≤ vs.foldl max 0) {total : Int}
    (ht : total = if style.align = .stretch then (style.across limits breadth).hi
      else vs.foldl max 0) :
    limits.Meets need (limits.nearest total) ∧ ∀ v ∈ vs, v ≤ limits.nearest total ∧
      (style.align = .stretch → v = limits.nearest total) := by
  obtain ⟨hlo, hlh, hhi⟩ := Limits.isNormalized_iff.1 hn
  have hle := hg.need_le
  unfold across at hvs ht
  split at ht <;> rename_i ha
  · have hb := hb ha
    have hsame : limits.nearest total = limits.nearest breadth := by
      rw [ht]
      simp only [Limits.nearest, Limits.exactly]
      omega
    have hvs (v : Int) (hv : v ∈ vs) : v = limits.nearest total := by
      obtain ⟨below, -, -, hm⟩ := hvs v hv
      rw [if_pos ha] at hm
      exact hm.eq_of_exactly.trans hsame.symm
    refine ⟨?_, fun v hv => ⟨Int.le_of_eq (hvs v hv), fun _ => hvs v hv⟩⟩
    rw [hsame]
    refine Limits.meets_nearest hn ?_ hg fun hi => ?_
    · split at hb <;> omega
    · rw [if_pos hi] at hb
      rw [hb]
  · rw [if_neg ha] at hvs
    have hupper : total ≤ limits.hi := ht ▸ Extent.foldl_max_le (by omega) fun v hv => by
      obtain ⟨below, -, -, hm⟩ := hvs v hv
      exact hm.le_hi
    refine ⟨Limits.meets_nearest hn (ht ▸ hneed) hg fun hi => ?_,
      fun v hv => ⟨?_, fun h => absurd h ha⟩⟩
    · have hmax : total ≤ max 0 need := ht ▸ Extent.foldl_max_le (by omega) fun v hv => by
        obtain ⟨below, hb₀, hb, hm⟩ := hvs v hv
        have := hm.of_free hi
        simp only [Limits.upTo] at this
        omega
      omega
    · have hle : v ≤ vs.foldl max 0 := Extent.le_foldl_max.2 v hv
      unfold Limits.nearest
      omega

end StackStyle

open Node in
/-- The steps are those of a stack that shares out room by weight, has children that take part and
bears them, and is asked for no less than it needs. -/
structure Sharing.IsRoomy (run : Sharing) (frame : Frame) (style : StackStyle)
    (totals : StackTotals) (items : List (Item Node)) (given : Constraints) : Prop where
  isRun : run.IsRun (stack frame style totals items) style items given
  normalized : given.isNormalized = true
  weighted : style.isHomogeneous = false
  live : liveCount items ≠ 0
  bears : (stack frame style totals items).Bears
  grants : ∀ axis, (given.along axis).Grants ((stack frame style totals items).need.along axis)

namespace Sharing.IsRoomy

open Node

variable {run : Sharing} {frame : Frame} {style : StackStyle} {totals : StackTotals}
  {items : List (Item Node)} {given : Constraints} {item : Item Node}

theorem visited (_ : run.IsRoomy frame style totals items given) (hi : item ∈ items)
    (hl : item.node.isLive = true) :
    item.node ∈ (stack frame style totals items).visited :=
  mem_visited_stack.2 ⟨item, hi, hl, rfl⟩

section

variable (h : run.IsRoomy frame style totals items given)

include h

theorem normalized_along (axis : Axis) : (given.along axis).isNormalized = true :=
  Constraints.isNormalized_iff.1 h.normalized axis

theorem offer_spec : run.offer.along style.axis = .free ∧
    run.offer.along style.axis.flip = style.across (given.along style.axis.flip) run.breadth ∧
    run.offer.isNormalized = true := by
  obtain ⟨hon, hcross⟩ := h.isRun.offer_spec h.normalized h.live
  exact ⟨h.isRun.along_offer (.inl h.weighted), hcross, hon⟩

theorem breadth_spec (ha : style.align = .stretch) : run.breadth =
    if (given.along style.axis.flip).hi = Extent.inf then
      (stack frame style totals items).need.along style.axis.flip
    else (given.along style.axis.flip).hi := by
  have hbreadth := h.isRun.breadth
  rw [Node.breadth, StackStyle.needsBreadth, ha, Limits.isBounded, h.bears.finite.1] at hbreadth
  split at hbreadth
  · rename_i hi
    rw [if_pos (by simpa using hi)]
    exact (Except.ok.inj hbreadth).symm
  · rename_i hi
    rw [if_neg (by simpa using hi)]
    exact (Except.ok.inj hbreadth).symm

theorem grants_across (hi : item ∈ items) (hl : item.node.isLive = true) :
    (style.across (given.along style.axis.flip) run.breadth).Grants
      (item.node.need.along style.axis.flip) :=
  StackStyle.grants_across (h.normalized_along _) (h.grants _) (h.bears.finite.2 _)
    h.breadth_spec (h.bears.need_le _ (h.visited hi hl) _)

/-- Asked freely along the axis, a child answers what it needs. -/
theorem once_spec (hi : item ∈ items) (hl : item.node.isLive = true) :
    (run.once item).size.along style.axis = item.node.need.along style.axis ∧
      (style.across (given.along style.axis.flip) run.breadth).Meets
        (item.node.need.along style.axis.flip) ((run.once item).size.along style.axis.flip) ∧
      (run.once item).node.Fits (run.once item).size := by
  have hv := h.visited hi hl
  obtain ⟨hfree, hcross, -⟩ := h.offer_spec
  obtain ⟨hmeets, hfits⟩ := h.bears.settles _ hv _ _ (h.isRun.once item hi hl)
    ((Axis.forall_iff style.axis).2 ⟨hfree ▸ Limits.grants_free (h.bears.need_lt hv _),
      hcross ▸ h.grants_across hi hl⟩)
  exact ⟨(hfree ▸ hmeets style.axis).eq_of_free (h.bears.nonneg _ hv _),
    hcross ▸ hmeets style.axis.flip, hfits⟩

theorem nonneg_once (hi : item ∈ items) (hl : item.node.isLive = true) :
    0 ≤ (run.once item).size.along style.axis :=
  (h.once_spec hi hl).1 ▸ h.bears.nonneg _ (h.visited hi hl) _

/-- The first answers add up to what the stack needs. -/
theorem sum_once : Extent.total (run.onceAlong style.axis items) =
      (stack frame style totals items).need.along style.axis ∧
    (run.onceAlong style.axis items).sum =
      (stack frame style totals items).need.along style.axis := by
  obtain ⟨-, hmain, -⟩ := h.bears.finite.1.stack h.weighted
  have hf := h.bears.finite.2 style.axis
  have honce : run.onceAlong style.axis items = (items.filter (·.node.isLive)).map fun item =>
      item.node.need.along style.axis := List.map_congr_left fun item hm => by
    obtain ⟨hi, hl⟩ := List.mem_filter.1 hm
    exact (h.once_spec hi hl).1
  rw [← honce] at hmain
  refine ⟨hmain.symm, ?_⟩
  rw [hmain] at hf ⊢
  exact (Extent.total_eq_sum (forall_mem_map_filter.2 fun _ => h.nonneg_once) hf).symm

theorem nonneg_need : 0 ≤ (stack frame style totals items).need.along style.axis := by
  rw [← h.sum_once.2]
  exact List.sum_nonneg (forall_mem_map_filter.2 fun _ => h.nonneg_once)

/-- There is room only up to the upper limit, and without one only up to the lower limit. -/
theorem extra_spec : 0 < run.extra →
    (stack frame style totals items).need.along style.axis + run.extra ≤
      (given.along style.axis).hi ∧
    (stack frame style totals items).need.along style.axis + run.extra < Extent.inf ∧
    ((given.along style.axis).hi = Extent.inf →
      (stack frame style totals items).need.along style.axis + run.extra ≤
        (given.along style.axis).lo) := by
  have hextra := h.isRun.extra_eq_room h.normalized (forall_mem_map_filter.2 fun _ => h.nonneg_once)
  have hneed := h.bears.finite.2 style.axis
  have hlo := (h.grants style.axis).lo_lt
  have hl := Limits.isNormalized_iff.1 (h.normalized_along style.axis)
  intro hpos
  rw [h.sum_once.1] at hextra
  split at hextra
  · omega
  · rw [hextra] at hpos ⊢
    unfold StackStyle.room StackStyle.goal at *
    split at hpos <;> rename_i hc
    · rw [if_pos hc]
      omega
    · rw [if_neg hc]
      split at hpos <;> rename_i hc'
      · rw [if_pos hc']
        omega
      · omega

theorem extra_bounds : 0 ≤ run.extra ∧
    (stack frame style totals items).need.along style.axis + run.extra < Extent.inf := by
  have hextra := h.isRun.isLength_extra.1
  have hneed := h.bears.finite.2 style.axis
  rcases Int.lt_or_le 0 run.extra with hpos | hz
  · exact ⟨hextra, (h.extra_spec hpos).2.1⟩
  · exact ⟨hextra, by omega⟩

/-- Measured again, a child answers what it chose and its share on top. -/
theorem again_spec (hi : item ∈ items) (hq : run.shares item = true) :
    (run.again item).size.along style.axis =
        (run.once item).size.along style.axis + run.gain item ∧
      (style.across (given.along style.axis.flip) run.breadth).Meets
        (item.node.need.along style.axis.flip) ((run.again item).size.along style.axis.flip) ∧
      (run.again item).node.Fits (run.again item).size := by
  have hl := isLive_of_shares item hq
  have hv := h.visited hi hl
  have honce := (h.once_spec hi hl).1
  have hneed := h.bears.need_le _ hv style.axis
  have hextra := h.extra_bounds
  obtain ⟨hgain, hle⟩ := h.isRun.gain_bounds h.weighted hi hl
  have hmain := (h.isRun.along_enlarged h.weighted hi hq (h.nonneg_once hi hl)).2
  have hflip := (h.isRun.along_flip_enlarged hi hq).trans h.offer_spec.2.1
  obtain ⟨hmeets, hfits⟩ := h.bears.settles _ hv _ _ (h.isRun.again item hi hq)
    ((Axis.forall_iff style.axis).2 ⟨hmain ▸ Limits.grants_exactly (by omega) (by omega),
      hflip ▸ h.grants_across hi hl⟩)
  exact ⟨(hmain ▸ hmeets style.axis).eq_of_exactly, hflip ▸ hmeets style.axis.flip, hfits⟩

theorem isFaithful : run.IsFaithful style.axis items :=
  ⟨fun _ => h.nonneg_once, fun _ hi hq => (h.again_spec hi hq).1⟩

/-- The last answers add up to what the stack needs and a part of the room. -/
theorem sum_last_bounds : (stack frame style totals items).need.along style.axis ≤
      (run.lastAlong style.axis items).sum ∧ (run.lastAlong style.axis items).sum ≤
        (stack frame style totals items).need.along style.axis + run.extra := by
  have hneed := h.nonneg_need
  have hextra := h.extra_bounds
  have hne : run.extra ≠ Extent.inf := by omega
  rw [h.isFaithful.sum_lastAlong h.isRun hne, h.sum_once.2]
  have hgain := h.isRun.sum_gain_bounds h.weighted hne
  omega

theorem extent_eq : run.extent = (run.lastAlong style.axis items).sum := by
  have hsum := h.sum_last_bounds
  have hextra := h.extra_bounds
  exact h.isFaithful.extent_eq h.isRun h.weighted (by omega)

theorem last_spec (hi : item ∈ items) (hl : item.node.isLive = true) :
    (style.across (given.along style.axis.flip) run.breadth).Meets
      (item.node.need.along style.axis.flip) ((run.last item).size.along style.axis.flip) ∧
    (run.last item).node.Fits (run.last item).size := by
  unfold Sharing.last
  split
  · rename_i hq
    exact (h.again_spec hi hq).2
  · exact (h.once_spec hi hl).2

theorem nonneg_last (hi : item ∈ items) (hl : item.node.isLive = true) :
    (run.last item).size.IsNonneg := by
  have hnn := h.bears.nonneg _ (h.visited hi hl)
  exact (Axis.forall_iff style.axis).2
    ⟨Int.le_trans (h.nonneg_once hi hl) (h.isFaithful.once_le_last h.isRun h.weighted hi hl),
      Int.le_trans (hnn _) (h.last_spec hi hl).1.need_le⟩

/-- Along its axis the stack meets its limits, and its children together fit in. -/
theorem meets_main : (given.along style.axis).Meets
      ((stack frame style totals items).need.along style.axis)
      ((given.along style.axis).nearest run.extent) ∧
    run.extent ≤ (given.along style.axis).nearest run.extent := by
  have hn := h.normalized_along style.axis
  have hl := Limits.isNormalized_iff.1 hn
  have hg := h.grants style.axis
  have hsum := h.sum_last_bounds
  have hextent := h.extent_eq
  have hroom := h.extra_spec
  have hneed := hg.need_le
  refine ⟨Limits.meets_nearest hn (by omega) hg fun hi => ?_, ?_⟩
  · rcases Int.lt_or_le 0 run.extra with hpos | hz
    · have := (hroom hpos).2.2 hi
      omega
    · omega
  · unfold Limits.nearest
    rcases Int.lt_or_le 0 run.extra with hpos | hz
    · have := (hroom hpos).1
      omega
    · omega

/-- Across its axis the stack meets its limits, and each child fits in. -/
theorem meets_cross : (given.along style.axis.flip).Meets
      ((stack frame style totals items).need.along style.axis.flip)
      ((given.along style.axis.flip).nearest (run.breadthOf style items)) ∧
    ∀ item ∈ items, item.node.isLive = true →
      (run.last item).size.along style.axis.flip ≤
        (given.along style.axis.flip).nearest (run.breadthOf style items) ∧
      (style.align = .stretch → (run.last item).size.along style.axis.flip =
        (given.along style.axis.flip).nearest (run.breadthOf style items)) := by
  have honce : ∀ v ∈ run.onceAlong style.axis.flip items, ∃ below, 0 ≤ below ∧
      below ≤ (stack frame style totals items).need.along style.axis.flip ∧
      (style.across (given.along style.axis.flip) run.breadth).Meets below v :=
    forall_mem_map_filter.2 fun item hi hl => ⟨_, h.bears.nonneg _ (h.visited hi hl) _,
      h.bears.need_le _ (h.visited hi hl) _, (h.once_spec hi hl).2.1⟩
  have hagain : ∀ v ∈ run.againAlong style.axis.flip items, ∃ below, 0 ≤ below ∧
      below ≤ (stack frame style totals items).need.along style.axis.flip ∧
      (style.across (given.along style.axis.flip) run.breadth).Meets below v :=
    forall_mem_map_filter.2 fun item hi hq => by
      have hv := h.visited hi (isLive_of_shares item hq)
      exact ⟨_, h.bears.nonneg _ hv _, h.bears.need_le _ hv _, (h.again_spec hi hq).2.1⟩
  obtain ⟨-, -, hlargest⟩ := h.bears.finite.1.stack h.weighted
  have hneed : (stack frame style totals items).need.along style.axis.flip ≤
      (run.onceAlong style.axis.flip items ++
        run.againAlong style.axis.flip items).foldl max 0 := by
    rw [hlargest, Extent.largest_eq_foldl (forall_mem_map_filter.2 fun item hi hl =>
      h.bears.nonneg _ (h.visited hi hl) _)]
    refine Extent.foldl_max_le Extent.le_foldl_max.1 (forall_mem_map_filter.2 fun item hi hl => ?_)
    refine Int.le_trans (h.once_spec hi hl).2.1.need_le (Extent.le_foldl_max.2 _
      (List.mem_append_left _ (List.mem_map_of_mem (List.mem_filter.2 ⟨hi, hl⟩))))
  have hbreadth : run.breadthOf style items = if style.align = .stretch then
        (style.across (given.along style.axis.flip) run.breadth).hi
      else (run.onceAlong style.axis.flip items ++
        run.againAlong style.axis.flip items).foldl max 0 := by
    rw [Sharing.breadthOf, h.offer_spec.2.1]
  obtain ⟨hmeets, hall⟩ := StackStyle.meets_across (h.normalized_along _) (h.grants _)
    h.breadth_spec (fun v hv => (List.mem_append.1 hv).elim (honce v) (hagain v)) hneed hbreadth
  refine ⟨hmeets, fun item hi hl => hall _ ?_⟩
  unfold Sharing.last
  split
  · rename_i hq
    exact List.mem_append_right _ (List.mem_map_of_mem (List.mem_filter.2 ⟨hi, hq⟩))
  · exact List.mem_append_left _ (List.mem_map_of_mem (List.mem_filter.2 ⟨hi, hl⟩))

end

end Sharing.IsRoomy

namespace Node

variable {frame : Frame} {style : StackStyle} {totals : StackTotals} {items : List (Item Node)}

theorem Settles.stack_empty (hs : style.isHomogeneous = false)
    (h : (Node.stack frame style totals items).HasNeed) (hl : liveCount items = 0) :
    (Node.stack frame style totals items).Settles := by
  intro given m hm hg
  have hn := Constraints.isNormalized_iff.1 (isNormalized_of_measure hm)
  obtain ⟨ha, hnode⟩ := measure_stack_empty hm hl
  have hnil : items.filter (·.node.isLive) = [] :=
    List.filter_eq_nil_iff.2 (List.countP_eq_zero.1 hl)
  have hdead : ∀ item ∈ items, item.node.isLive = true → False := List.countP_eq_zero.1 hl
  obtain ⟨-, hmain, hcross⟩ := h.stack hs
  rw [hnil] at hmain hcross
  have hzero : ∀ axis, (Node.stack frame style totals items).need.along axis = 0 :=
    (Axis.forall_iff style.axis).2 ⟨hmain, hcross⟩
  have hmeets (axis : Axis) : (given.along axis).Meets 0 (m.size.along axis) := by
    have hwish : Size.zero.along axis = 0 := by cases axis <;> rfl
    rw [Constraints.along_of_constrain ha axis, hwish]
    exact Limits.meets_nearest (hn axis) (Int.le_refl 0) (hzero axis ▸ hg axis) fun _ => rfl
  refine ⟨fun axis => (hzero axis).symm ▸ hmeets axis, hnode ▸ .stack hs ?_ ?_ ?_ ?_ ?_⟩
  · rw [hnil]
    rfl
  · exact (hmeets style.axis).need_le
  · exact fun item hi hlive => (hdead item hi hlive).elim
  · exact fun item hi hlive => (hdead item hi hlive).elim
  · exact fun item hi hlive => (hdead item hi hlive).elim

theorem Settles.stack (hs : style.isHomogeneous = false)
    (h : (Node.stack frame style totals items).Bears) :
    (Node.stack frame style totals items).Settles := by
  rcases Classical.em (liveCount items = 0) with hl | hl
  · exact .stack_empty hs h.finite.1 hl
  intro given m hm hg
  obtain ⟨run, hrun, ha, hnode⟩ := measure_stack hm hl
  have hroomy : run.IsRoomy frame style totals items given :=
    ⟨hrun, isNormalized_of_measure hm, hs, hl, h, hg⟩
  have hmain := Constraints.along_of_constrain ha style.axis
  have hcross := Constraints.along_of_constrain ha style.axis.flip
  rw [Size.along_ofAxis] at hmain
  rw [Size.along_flip_ofAxis] at hcross
  obtain ⟨hmeets, hle⟩ := hroomy.meets_main
  obtain ⟨hmeets', hall⟩ := hroomy.meets_cross
  rw [← hmain] at hmeets hle
  simp only [← hcross] at hmeets' hall
  have hsettled {item : Item Node} (hi : item ∈ items.map run.settled)
      (hlive : item.node.isLive = true) : ∃ before ∈ items, before.node.isLive = true ∧
        item = ⟨(run.last before).node, before.flex, (run.last before).size⟩ := by
    obtain ⟨before, hb, rfl⟩ := List.mem_map.1 hi
    by_cases hbl : before.node.isLive = true
    · exact ⟨before, hb, hbl, run.settled_of_isLive hbl⟩
    · rw [Sharing.settled, if_neg hbl] at hlive
      exact absurd hlive hbl
  refine ⟨(Axis.forall_iff style.axis).2 ⟨hmeets, hmeets'⟩, hnode ▸ .stack hs ?_ hle ?_ ?_ ?_⟩
  · rw [hrun.map_filter_settled, hroomy.extent_eq]
    rfl
  · intro item hi hlive
    obtain ⟨before, hb, hbl, rfl⟩ := hsettled hi hlive
    exact hroomy.nonneg_last hb hbl
  · intro item hi hlive
    obtain ⟨before, hb, hbl, rfl⟩ := hsettled hi hlive
    exact hall before hb hbl
  · intro item hi hlive
    obtain ⟨before, hb, hbl, rfl⟩ := hsettled hi hlive
    exact (hroomy.last_spec hb hbl).2

end Node

end BoxLayout
