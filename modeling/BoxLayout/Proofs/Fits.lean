import BoxLayout.Proofs.Faults
import BoxLayout.Proofs.Needs

/-!
# Measured trees that fit a size

When a firm tree is asked for no less than it needs, it answers no less (`Limits.Meets`), and the
sizes that it records are such that every container of the tree has room for all of its children
(`Node.Fits`). `Node.Settles` says both of a node, and is shown here for every kind of node but the
stack.
-/

namespace BoxLayout

namespace Limits

/-- The limits leave room for what is needed, and do not ask for an unbounded extent. -/
structure Grants (limits : Limits) (need : Int) : Prop where
  lo_lt : limits.lo < Extent.inf
  need_le : need ≤ limits.hi

/-- `v` lies within the limits and is what is needed, exactly unless the limits ask for more or
end somewhere. -/
structure Meets (limits : Limits) (need v : Int) : Prop where
  lo_le : limits.lo ≤ v
  le_hi : v ≤ limits.hi
  need_le : need ≤ v
  of_free : limits.hi = Extent.inf → v = max limits.lo need

theorem Meets.lt_inf {limits : Limits} {need v : Int} (h : limits.Meets need v)
    (hn : limits.isNormalized = true) (hg : limits.Grants need) (hf : need < Extent.inf) :
    v < Extent.inf := by
  have hhi := (isNormalized_iff.1 hn).2.2
  obtain ⟨-, le_hi, -, of_free⟩ := h
  have := hg.lo_lt
  rcases Classical.em (limits.hi = Extent.inf) with hi | hi
  · have := of_free hi; omega
  · omega

/-- A wish that is large enough is granted. -/
theorem meets_nearest {limits : Limits} (hn : limits.isNormalized = true) {need wish : Int}
    (hle : need ≤ wish) (hg : limits.Grants need)
    (hfree : limits.hi = Extent.inf → max limits.lo wish = max limits.lo need) :
    limits.Meets need (limits.nearest wish) := by
  obtain ⟨-, hlh, hhi⟩ := isNormalized_iff.1 hn
  have := hg.need_le
  refine ⟨?_, ?_, ?_, fun hi => ?_⟩ <;> unfold nearest
  · omega
  · omega
  · omega
  · have := hfree hi
    have := hg.lo_lt
    omega

theorem grants_free {need : Int} (h : need < Extent.inf) : free.Grants need :=
  ⟨by decide, Int.le_of_lt h⟩

theorem Meets.eq_of_free {need v : Int} (h : free.Meets need v) (hn : 0 ≤ need) : v = need :=
  (h.of_free rfl).trans (Int.max_eq_right hn)

theorem grants_exactly {c need : Int} (hc : c < Extent.inf) (hle : need ≤ c) :
    (exactly c).Grants need := ⟨hc, hle⟩

theorem Meets.eq_of_exactly {c need v : Int} (h : (exactly c).Meets need v) : v = c :=
  Int.le_antisymm h.le_hi h.lo_le

section Less

variable {limits : Limits} {amount below v : Int}

theorem Grants.less (hn : limits.isNormalized = true) (ha : Extent.IsLength amount)
    (hg : limits.Grants (below + amount)) : (limits.less amount).Grants below := by
  have := isNormalized_iff.1 hn
  have := hg.lo_lt
  have := hg.need_le
  refine ⟨?_, ?_⟩ <;>
    simp only [Limits.less, Extent.infOr, Extent.IsLength, Extent.inf] at * <;> omega

theorem Meets.of_less (hn : limits.isNormalized = true) (ha : Extent.IsLength amount)
    (hb : 0 ≤ below) (hg : limits.Grants (below + amount))
    (hm : (limits.less amount).Meets below v) : limits.Meets (below + amount) (v + amount) := by
  have := isNormalized_iff.1 hn
  obtain ⟨lo_lt, need_le⟩ := hg
  obtain ⟨h₁, h₂, h₃, h₄⟩ := hm
  refine ⟨?_, ?_, ?_, ?_⟩ <;>
    simp only [Limits.less, Extent.infOr, Extent.IsLength, Extent.inf] at * <;> omega

end Less

end Limits

namespace Node

/-- A measured tree has room for its children at the sizes that it records if it is placed in a box
of the given size. -/
inductive Fits : Node → Size → Prop
  | leaf {frame : Frame} {content : Leaf} {ideal size : Size}
      (hi : content.ideal = some (.ok ideal))
      (hle : ∀ axis, ideal.along axis ≤ size.along axis) : Fits (leaf frame content) size
  | padding {frame : Frame} {insets : Insets} {child : Node} {inner size : Size}
      (hi : insets.IsNonneg) (ht : ∀ axis, insets.total axis = .ok (insets.amount axis))
      (hn : inner.IsNonneg)
      (hsize : ∀ axis, size.along axis = inner.along axis + insets.amount axis)
      (hc : Fits child inner) : Fits (padding frame insets child) size
  | align {frame : Frame} {alignment : Alignment} {measured size : Size} {child : Node}
      (hn : measured.IsNonneg) (hle : ∀ axis, measured.along axis ≤ size.along axis)
      (hc : Fits child measured) : Fits (align frame alignment measured child) size
  | stack {frame : Frame} {style : StackStyle} {totals : StackTotals} {items : List (Item Node)}
      {size : Size} (hs : style.isHomogeneous = false)
      (hmain : List.sum ((items.filter (·.node.isLive)).map (·.measured.along style.axis)) =
        totals.extent)
      (hle : totals.extent ≤ size.along style.axis)
      (hn : ∀ item ∈ items, item.node.isLive = true → item.measured.IsNonneg)
      (hcross : ∀ item ∈ items, item.node.isLive = true →
        item.measured.along style.axis.flip ≤ size.along style.axis.flip ∧
        (style.align = .stretch →
          item.measured.along style.axis.flip = size.along style.axis.flip))
      (hc : ∀ item ∈ items, item.node.isLive = true → Fits item.node item.measured) :
      Fits (stack frame style totals items) size
  | table {frame : Frame} {grid : Grid} {cells : List (Option Node)} {size : Size}
      (hl : cells.length ≤ grid.size) (hm : grid.isMeasured = true)
      (hn : ∀ axis, ∀ v ∈ (grid.extents axis).toList, 0 ≤ v)
      (hle : ∀ axis, List.sum (grid.extents axis).toList ≤ size.along axis)
      (hc : ∀ i child, cells[i]? = some (some child) → child.isLive = true →
        Fits child (grid.slotSize i)) : Fits (table frame grid cells) size

/-- Asked for no less than it needs, the node answers no less, and what it has become fits its
answer. -/
def Settles (node : Node) : Prop := ∀ (given : Constraints) (m : Measured),
  node.measure given = .ok m → (∀ axis, (given.along axis).Grants (node.need.along axis)) →
    (∀ axis, (given.along axis).Meets (node.need.along axis) (m.size.along axis)) ∧
      m.node.Fits m.size

/-- Asked freely, a node answers what it needs. -/
theorem Settles.size_of_free {node : Node} {m : Measured} (h : node.Settles)
    (hnn : node.need.IsNonneg) (hlt : ∀ axis, node.need.along axis < Extent.inf)
    (hm : node.measure .free = .ok m) : m.size = node.need := by
  have hfree (axis : Axis) : Constraints.free.along axis = .free := by cases axis <;> rfl
  obtain ⟨hmeets, -⟩ := h .free m hm fun axis => hfree axis ▸ Limits.grants_free (hlt axis)
  exact Size.eq_of_along fun axis => (hfree axis ▸ hmeets axis).eq_of_free (hnn axis)

/-- Asked for a size that is no less than it needs, a node answers it and fits it. -/
theorem Settles.fits_of_exactly {node : Node} {size : Size} {m : Measured} (h : node.Settles)
    (hlt : ∀ axis, size.along axis < Extent.inf)
    (hle : ∀ axis, node.need.along axis ≤ size.along axis)
    (hm : node.measure (.exactly size) = .ok m) : m.size = size ∧ m.node.Fits size := by
  obtain ⟨hmeets, hfits⟩ := h _ m hm fun axis => by
    rw [Constraints.along_exactly]
    exact Limits.grants_exactly (hlt axis) (hle axis)
  have hsize : m.size = size := Size.eq_of_along fun axis =>
    (Constraints.along_exactly size axis ▸ hmeets axis).eq_of_exactly
  exact ⟨hsize, hsize ▸ hfits⟩

variable {frame : Frame}

theorem Settles.leaf {content : Leaf} {ideal : Except Fault Size} (hi : content.ideal = some ideal)
    (h : (Node.leaf frame content).HasNeed) : (Node.leaf frame content).Settles := by
  intro given m hm hg
  obtain ⟨ha, hnode⟩ := measure_leaf hm
  have hn := Constraints.isNormalized_iff.1 (isNormalized_of_measure hm)
  have he := h.leaf hi
  rw [Leaf.measure_of_ideal hi, he] at ha
  have hmeets (axis : Axis) : (given.along axis).Meets ((Node.leaf frame content).need.along axis)
      (m.size.along axis) := by
    rw [Constraints.along_of_constrain ha axis]
    exact Limits.meets_nearest (hn axis) (Int.le_refl _) (hg axis) fun _ => rfl
  rw [hnode]
  exact ⟨hmeets, .leaf (he ▸ hi) fun axis => (hmeets axis).need_le⟩

theorem HasNeed.isProper_insets {insets : Insets} {child : Node} (hi : insets.IsNonneg)
    (h : (Node.padding frame insets child).HasNeed) : insets.IsProper := by
  refine ⟨hi, fun axis => ?_⟩
  have ht := (h.padding.2 axis).1
  rw [Insets.total_eq_checked] at ht
  exact (Extent.checked_eq_ok_iff.1 ht).1.2

theorem Settles.padding {insets : Insets} {child : Node} (hi : insets.IsNonneg)
    (h : (Node.padding frame insets child).HasFiniteNeed) (hnn : child.need.IsNonneg)
    (hc : child.Settles) : (Node.padding frame insets child).Settles := by
  intro given m hm hg
  have hn := isNormalized_of_measure hm
  have hp := h.1.isProper_insets hi
  have hw := hp.isLength_amount .horizontal
  have hh := hp.isLength_amount .vertical
  have hneed (axis : Axis) : (Node.padding frame insets child).need.along axis =
      child.need.along axis + insets.amount axis := by
    have hf := h.2 axis
    rw [(h.1.padding.2 axis).2, Extent.saturatingAdd_eq_min (hnn axis) (hi.amount_nonneg axis)] at *
    omega
  obtain ⟨width, height, inner, found, htw, hth, hinner, hfound, ha, hnode⟩ := measure_padding hm
  rw [hp.total_eq] at htw hth
  rw [← Except.ok.inj htw, ← Except.ok.inj hth, Constraints.inset_eq hn hw hh] at hinner
  rw [← Except.ok.inj hinner] at hfound
  have halong (axis : Axis) : (given.less (insets.amount .horizontal)
      (insets.amount .vertical)).along axis = (given.along axis).less (insets.amount axis) := by
    cases axis <;> rfl
  obtain ⟨hmeets, hfits⟩ := hc _ _ hfound fun axis => by
    rw [halong]
    exact .less (Constraints.isNormalized_iff.1 hn axis) (hp.isLength_amount axis)
      (hneed axis ▸ hg axis)
  have houter (axis : Axis) : (given.along axis).Meets
      ((Node.padding frame insets child).need.along axis)
      (found.size.along axis + insets.amount axis) := by
    rw [hneed]
    exact .of_less (Constraints.isNormalized_iff.1 hn axis) (hp.isLength_amount axis) (hnn axis)
      (hneed axis ▸ hg axis) (halong axis ▸ hmeets axis)
  have hfn (axis : Axis) : 0 ≤ found.size.along axis :=
    Int.le_trans (hnn axis) (hmeets axis).need_le
  have hsize (axis : Axis) : m.size.along axis = found.size.along axis + insets.amount axis := by
    rw [hp.around_eq] at ha
    have hlt := (houter axis).lt_inf (Constraints.isNormalized_iff.1 hn axis) (hg axis) (h.2 axis)
    have hadd := Extent.saturatingAdd_eq_min (hfn axis) (hi.amount_nonneg axis)
    rw [← Except.ok.inj ha, Size.along_saturatingAdd]
    cases axis <;> exact hadd.trans (by omega)
  rw [hnode]
  exact ⟨fun axis => hsize axis ▸ houter axis, .padding hi hp.total_eq hfn hsize hfits⟩

theorem Settles.align {alignment : Alignment} {measured : Size} {child : Node}
    (hf : ∀ axis, alignment.factor axis = .natural)
    (h : (Node.align frame alignment measured child).HasFiniteNeed) (hnn : child.need.IsNonneg)
    (hc : child.Settles) : (Node.align frame alignment measured child).Settles := by
  intro given m hm hg
  have hn := Constraints.isNormalized_iff.1 (isNormalized_of_measure hm)
  have hneed := (h.1.align hf).2
  obtain ⟨found, hfound, ha, hnode⟩ := measure_align hm
  have hloose (axis : Axis) : given.loosen.along axis = .upTo (given.along axis).hi :=
    Constraints.along_loosen axis
  obtain ⟨hmeets, hfits⟩ := hc _ _ hfound fun axis => by
    rw [hloose]
    exact ⟨(by decide : (0 : Int) < Extent.inf), hneed axis ▸ (hg axis).need_le⟩
  simp only [hloose] at hmeets
  have hscaled : alignment.scaled found.size = found.size := by
    have hw : alignment.width = .natural := hf .horizontal
    have hh : alignment.height = .natural := hf .vertical
    rw [Alignment.scaled, hw, hh]
    rfl
  rw [hscaled] at ha
  have hup (axis : Axis) : found.size.along axis ≤ m.size.along axis := by
    have := (hmeets axis).le_hi
    simp only [Limits.upTo] at this
    rw [Constraints.along_of_constrain ha axis, Limits.nearest]
    omega
  rw [hnode]
  refine ⟨fun axis => ?_, .align (fun axis => (hmeets axis).lo_le) hup hfits⟩
  rw [Constraints.along_of_constrain ha axis, hneed]
  refine Limits.meets_nearest (hn axis) (hmeets axis).need_le (hneed axis ▸ hg axis) fun hi => ?_
  have := (hmeets axis).of_free hi
  have := hnn axis
  have := (Limits.isNormalized_iff.1 (hn axis)).1
  simp only [Limits.upTo] at *
  omega

/-- The children that a node visits are no burden to it: each settles and needs no more than the
node. -/
structure Bears (node : Node) : Prop where
  finite : node.HasFiniteNeed
  nonneg : ∀ child ∈ node.visited, child.need.IsNonneg
  need_le : ∀ child ∈ node.visited, ∀ axis, child.need.along axis ≤ node.need.along axis
  settles : ∀ child ∈ node.visited, child.Settles

theorem Bears.need_lt {node child : Node} (h : node.Bears) (hc : child ∈ node.visited)
    (axis : Axis) : child.need.along axis < Extent.inf :=
  Int.lt_of_le_of_lt (h.need_le child hc axis) (h.finite.2 axis)

theorem Settles.table {grid : Grid} {cells : List (Option Node)} (hl : cells.length ≤ grid.size)
    (h : (Node.table frame grid cells).Bears) : (Node.table frame grid cells).Settles := by
  intro given m hm hg
  have hn := Constraints.isNormalized_iff.1 (isNormalized_of_measure hm)
  obtain ⟨once, again, sized, hsized, honce, hagain, ha, hnode⟩ := measure_table hm
  have hbelow {cell : Option Node × Nat} (hm : cell ∈ cells.zipIdx) (hl : isLiveCell cell = true) :
      content cell ∈ (Node.table frame grid cells).visited := by
    obtain ⟨-, hi, hlive⟩ := exists_of_isLiveCell hm hl
    exact mem_visited_table.2 ⟨List.mem_of_getElem? hi, hlive⟩
  -- asked freely, every cell answers what it needs, so the tracks are those of the need
  have hsame : pick isLiveCell (fun cell => (once cell).size) cells.zipIdx =
      pick isLiveCell (fun cell => (content cell).need) cells.zipIdx := by
    refine pick_congr fun cell hm hl => ?_
    have hv := hbelow hm hl
    exact (h.settles _ hv).size_of_free (h.nonneg _ hv) (h.need_lt hv) (honce cell hm hl)
  have hneed (axis : Axis) := h.finite.1.table_eq_total
    (fun child hm hl => h.nonneg child (mem_visited_table.2 ⟨hm, hl⟩)) axis
  rw [hsame] at hsized
  generalize hneeds : pick isLiveCell (fun cell => (content cell).need) cells.zipIdx = needs at *
  subst hsized
  have hcontent (axis : Axis) : (grid.measured needs).contentSize.along axis =
      (Node.table frame grid cells).need.along axis := by
    rw [Grid.along_contentSize, Grid.extents_measured, hneed]
  have hmeets (axis : Axis) : (given.along axis).Meets
      ((Node.table frame grid cells).need.along axis) (m.size.along axis) := by
    rw [Constraints.along_of_constrain ha axis, hcontent]
    exact Limits.meets_nearest (hn axis) (Int.le_refl _) (hg axis) fun _ => rfl
  have hsum (axis : Axis) : List.sum (grid.cover axis needs).toList =
      (Node.table frame grid cells).need.along axis := by
    have hf := h.finite.2 axis
    rw [hneed] at hf ⊢
    exact (Extent.total_eq_sum Grid.nonneg_of_mem_cover hf).symm
  refine ⟨hmeets, hnode ▸ .table ?_ (Grid.isMeasured_measured ..) (fun axis => ?_) (fun axis => ?_)
    fun i child hi hlive => ?_⟩
  · rw [List.length_map, List.length_zipIdx]
    exact hl
  · rw [Grid.extents_measured]
    exact Grid.nonneg_of_mem_cover
  · rw [Grid.extents_measured, hsum]
    exact (hmeets axis).need_le
  · rw [List.getElem?_map, List.getElem?_zipIdx, Option.map_map] at hi
    obtain ⟨cell, hcell, hi⟩ := Option.map_eq_some_iff.1 hi
    simp only [Function.comp, Nat.zero_add] at hi
    have hm : (cell, i) ∈ cells.zipIdx := List.mem_zipIdx_iff_getElem?.2 hcell
    by_cases hlc : isLiveCell (cell, i) = true
    · rw [if_pos hlc] at hi
      cases hi
      have hv := hbelow hm hlc
      have hslot (axis : Axis) := Grid.along_slotSize_bounds axis
        (Nat.lt_of_lt_of_le (List.getElem?_eq_some_iff.1 hcell).1 hl)
        (hneeds ▸ getElem?_pick_cell hcell hlc)
      exact ((h.settles _ hv).fits_of_exactly
        (fun axis => Int.lt_of_le_of_lt (hsum axis ▸ (hslot axis).2) (h.finite.2 axis))
        (fun axis => (hslot axis).1) (hagain _ hm hlc)).2
    · rw [if_neg hlc] at hi
      cases hi
      exact absurd hlive hlc

end Node

end BoxLayout
