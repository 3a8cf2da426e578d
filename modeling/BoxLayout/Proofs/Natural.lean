import BoxLayout.Proofs.Extents
import BoxLayout.Proofs.Queries

/-!
# Natural sizes are least extents

Measuring and the query for least extents are two recursions over a tree. In a tree whose leaves
have a size of their own (`Node.IsNatural`) they compute the same number: a node that is measured
without a bound along an axis answers its least extent there (`measure_of_free`), whatever is asked
of the other axis in both. If stacks are cut into equal slices, the answer may be less.

`IsSteady` says that least extents do not depend on the other axis, which the trees measured here
share (`heeds_of_isNatural`).
-/

namespace BoxLayout

namespace Extent

/-- `v` is not negative and no more than `bound`, and no less than it if it is to be exact. -/
structure Within (exact : Prop) (v bound : Int) : Prop where
  nonneg : 0 ≤ v
  le : v ≤ bound
  eq : exact → v = bound

variable {exact : Prop}

theorem Within.refl {v : Int} (h : 0 ≤ v) : Within exact v v := ⟨h, Int.le_refl v, fun _ => rfl⟩

theorem Within.isLength {v bound : Int} (h : Within exact v bound) (hb : IsLength bound) :
    IsLength v := ⟨h.nonneg, Int.le_trans h.le hb.2⟩

theorem Within.saturatingAdd {v bound amount : Int} (h : Within exact v bound)
    (ha : 0 ≤ amount) :
    Within exact (saturatingAdd v amount) (Extent.saturatingAdd bound amount) := by
  obtain ⟨hv, hle, heq⟩ := h
  refine ⟨(isLength_saturatingAdd hv ha).1, ?_, fun he => by rw [heq he]⟩
  rw [saturatingAdd_eq_min hv ha, saturatingAdd_eq_min (Int.le_trans hv hle) ha]
  omega

section Lists

variable {α : Type} {xs : List α} {f g : α → Int}

theorem Within.total (h : ∀ x ∈ xs, Within exact (f x) (g x)) :
    Within exact (total (xs.map f)) (Extent.total (xs.map g)) := by
  have hf : ∀ v ∈ xs.map f, 0 ≤ v := List.forall_mem_map.2 fun x hx => (h x hx).nonneg
  have hg : ∀ v ∈ xs.map g, 0 ≤ v :=
    List.forall_mem_map.2 fun x hx => Int.le_trans (h x hx).nonneg (h x hx).le
  refine ⟨(isLength_total hf).1, ?_,
    fun he => by rw [List.map_congr_left fun x hx => (h x hx).eq he]⟩
  rw [total_eq_min hf, total_eq_min hg]
  have hsum := List.sum_le_sum fun x hx => (h x hx).le
  omega

/-- Maxima compare if each extent is matched by one on the other side. -/
theorem Within.foldl_max {vs bounds : List Int} (hle : ∀ v ∈ vs, ∃ bound ∈ bounds, v ≤ bound)
    (hge : exact → ∀ bound ∈ bounds, ∃ v ∈ vs, bound ≤ v) :
    Within exact (vs.foldl max 0) (bounds.foldl max 0) := by
  have upper {vs ws : List Int} (h : ∀ v ∈ vs, ∃ w ∈ ws, v ≤ w) :
      vs.foldl max 0 ≤ ws.foldl max 0 := foldl_max_le le_foldl_max.1 fun v hv => by
    obtain ⟨w, hw, hvw⟩ := h v hv
    exact Int.le_trans hvw (le_foldl_max.2 w hw)
  exact ⟨le_foldl_max.1, upper hle, fun he => Int.le_antisymm (upper hle) (upper (hge he))⟩

theorem total_le_saturatingMul {vs : List Int} (h : ∀ v ∈ vs, IsLength v) :
    Extent.total vs ≤ saturatingMul (largest vs) vs.length := by
  have hnn : ∀ v ∈ vs, 0 ≤ v := fun v hv => (h v hv).1
  have hmax := isLength_foldl_max h
  rw [largest_eq_foldl hnn, total_eq_min hnn, saturatingMul]
  split
  · omega
  · have hsum : vs.sum ≤ vs.length • vs.foldl max 0 := List.sum_le_card_nsmul vs _ le_foldl_max.2
    rw [nsmul_eq_mul, Int.mul_comm] at hsum
    have hpos : 0 ≤ vs.foldl max 0 * (vs.length : Int) :=
      Int.mul_nonneg hmax.1 (Int.natCast_nonneg _)
    simp only [saturate, least] at *
    omega

end Lists

end Extent

namespace Leaf

theorem IsNatural.isProper {leaf : Leaf} (h : leaf.IsNatural) (hx : leaf.HasExtents) {size : Size}
    (hi : leaf.ideal = some (.ok size)) : size.IsProper := by
  obtain ⟨_, hi', hn⟩ := h
  obtain rfl := Option.some.inj (hi'.symm.trans hi)
  have hleast (axis : Axis) : leaf.minExtent axis 0 = .ok (size.along axis) := by
    rw [minExtent_of_ideal hi]
    rfl
  exact fun axis => ⟨hn size rfl axis, (inRange_of_minExtent hx (by decide) (hleast axis)).2⟩

end Leaf

namespace Node

/-- The node is of a kind that measuring and least extents treat alike: a leaf with a size of its
own, insets that are not negative, an alignment that reports the size of its child, a stack whose
slices can be counted if it is cut into such, or a table that has its cells. -/
def IsNatural : Node → Prop
  | leaf _ content => content.IsNatural ∧ content.HasExtents
  | padding _ insets _ => insets.IsNonneg
  | align _ alignment _ _ => ∀ axis, alignment.factor axis = .natural
  | stack frame style totals items => (stack frame style totals items).HasCountableSlices
  | table _ grid _ => grid.isOversized = false

/-- The node is no stack that is cut into equal slices. -/
def IsUncut : Node → Prop
  | stack _ style _ _ => style.isHomogeneous = false
  | leaf .. | padding .. | align .. | table .. => True

/-! ## Steady needs -/

/-- The least extents of the node are lengths and do not depend on the other axis. -/
structure IsSteady (node : Node) : Prop where
  minExtent_eq : ∀ axis other, Extent.IsLength other →
    node.minExtent axis other = .ok (node.need.along axis)
  isProper : node.need.IsProper

theorem IsSteady.hasNeed {node : Node} (h : node.IsSteady) : node.HasNeed :=
  fun axis => h.minExtent_eq axis _ Extent.isLength_inf

theorem isSteady_of {node : Node} (h : ∀ axis, ∃ least, Extent.IsLength least ∧
    ∀ other, Extent.IsLength other → node.minExtent axis other = .ok least) : node.IsSteady := by
  refine ⟨fun axis other ho => ?_, fun axis => ?_⟩
  · obtain ⟨least, -, hm⟩ := h axis
    rw [along_need, hm _ Extent.isLength_inf, value_ok, hm other ho]
  · obtain ⟨least, hl, hm⟩ := h axis
    rw [along_need, hm _ Extent.isLength_inf, value_ok]
    exact hl

section Containers

variable {frame : Frame}

theorem IsSteady.leaf {content : Leaf} {size : Size} (hi : content.ideal = some (.ok size))
    (hs : size.IsProper) : (leaf frame content).IsSteady :=
  isSteady_of fun axis => ⟨size.along axis, hs axis, fun other _ => by
    rw [minExtent, Leaf.minExtent_of_ideal hi]
    rfl⟩

theorem IsSteady.padding {insets : Insets} {child : Node} (hi : insets.IsProper)
    (h : child.IsSteady) : (padding frame insets child).IsSteady := by
  refine isSteady_of fun axis => ⟨_, Extent.isLength_saturatingAdd (h.isProper axis).1
    (hi.isLength_amount axis).1, fun other ho => ?_⟩
  obtain ⟨rest, hr, hl⟩ := hi.inner_isOk axis.flip ho
  rw [minExtent, hr]
  simp only [bind_eq_ok_iff]
  exact ⟨rest, rfl, _, h.minExtent_eq axis rest hl, _, hi.total_eq axis, rfl⟩

theorem IsSteady.align {alignment : Alignment} {measured : Size} {child : Node}
    (hf : ∀ axis, alignment.factor axis = .natural) (h : child.IsSteady) :
    (align frame alignment measured child).IsSteady := by
  refine isSteady_of fun axis => ⟨_, h.isProper axis, fun other ho => ?_⟩
  rw [minExtent, hf, h.minExtent_eq axis other ho]
  rfl

/-- The needs along one axis of the children of a stack that take part. -/
def itemNeeds (axis : Axis) (items : List (Item Node)) : List Int :=
  (items.filter (·.node.isLive)).map (·.node.need.along axis)

section Stack

variable {style : StackStyle} {totals : StackTotals} {items : List (Item Node)}

theorem isLength_of_mem_itemNeeds
    (h : ∀ item ∈ items, item.node.isLive = true → item.node.IsSteady) (axis : Axis) :
    ∀ v ∈ itemNeeds axis items, Extent.IsLength v :=
  forall_mem_map_filter.2 fun item hi hl => (h item hi hl).isProper axis

theorem itemExtents_of_steady
    (h : ∀ item ∈ items, item.node.isLive = true → item.node.IsSteady) (axis : Axis) {other : Int}
    (ho : Extent.IsLength other) : itemExtents axis other items = .ok (itemNeeds axis items) :=
  itemExtents_of_forall fun item hi hl => (h item hi hl).minExtent_eq axis other ho

/-- The least extent of a stack on one axis, for children whose needs are steady. -/
theorem minExtent_stack (h : ∀ item ∈ items, item.node.isLive = true → item.node.IsSteady)
    (axis : Axis) {other : Int} (ho : Extent.IsLength other) :
    (stack frame style totals items).minExtent axis other =
      .ok (if axis = style.axis then style.minMain (itemNeeds axis items)
        else Extent.largest (itemNeeds axis items)) := by
  rw [minExtent]
  split
  · rw [itemExtents_of_steady h axis ho]
    rfl
  · obtain ⟨part, hp, hl⟩ := slice_isOk style ho (liveCount items)
    rw [hp]
    simp only [bind_eq_ok_iff]
    exact ⟨part, rfl, _, itemExtents_of_steady h axis hl, rfl⟩

theorem length_itemNeeds (axis : Axis) (items : List (Item Node)) :
    (itemNeeds axis items).length = liveCount items := by
  rw [itemNeeds, List.length_map, liveCount, List.countP_eq_length_filter]

/-- The number of slices is what it is where they can be counted. -/
theorem minMain_itemNeeds (hs : style.isHomogeneous = true) (axis : Axis)
    (hcount : (stack frame style totals items).HasCountableSlices) :
    style.minMain (itemNeeds axis items) =
      Extent.saturatingMul (Extent.largest (itemNeeds axis items))
        (itemNeeds axis items).length := by
  rw [StackStyle.minMain, if_pos hs, Extent.wrap_count]
  rw [length_itemNeeds]
  exact hcount hs

theorem isLength_minMain (h : ∀ v ∈ itemNeeds style.axis items, Extent.IsLength v)
    (hcount : (stack frame style totals items).HasCountableSlices) :
    Extent.IsLength (style.minMain (itemNeeds style.axis items)) := by
  by_cases hs : style.isHomogeneous = true
  · rw [minMain_itemNeeds hs _ hcount]
    exact Extent.isLength_saturatingMul (Extent.isLength_largest h).1 (Int.natCast_nonneg _)
  · rw [StackStyle.minMain, if_neg hs]
    exact Extent.isLength_total fun v hv => (h v hv).1

theorem IsSteady.stack (hcount : (stack frame style totals items).HasCountableSlices)
    (h : ∀ item ∈ items, item.node.isLive = true → item.node.IsSteady) :
    (stack frame style totals items).IsSteady := by
  refine isSteady_of fun axis => ⟨_, ?_, fun other ho => minExtent_stack h axis ho⟩
  have hl := isLength_of_mem_itemNeeds h axis
  split
  · rename_i haxis
    exact haxis ▸ isLength_minMain (haxis ▸ hl) hcount
  · exact Extent.isLength_largest hl

theorem need_stack (h : ∀ item ∈ items, item.node.isLive = true → item.node.IsSteady) :
    (Node.stack frame style totals items).need.along style.axis =
        style.minMain (itemNeeds style.axis items) ∧
      (Node.stack frame style totals items).need.along style.axis.flip =
        Extent.largest (itemNeeds style.axis.flip items) := by
  constructor
  · rw [along_need, minExtent_stack h _ Extent.isLength_inf, if_pos rfl, value_ok]
  · rw [along_need, minExtent_stack h _ Extent.isLength_inf, if_neg style.axis.flip_ne, value_ok]

end Stack

theorem IsSteady.table {grid : Grid} {cells : List (Option Node)} (hg : grid.isOversized = false)
    (h : ∀ cell ∈ cells.zipIdx, isLiveCell cell = true → (content cell).IsSteady) :
    (table frame grid cells).IsSteady := by
  have hfound (axis : Axis) {other : Int} (ho : Extent.IsLength other) :
      (Node.table frame grid cells).minExtent axis other = .ok (grid.minExtent axis
        (pick isLiveCell (fun cell => (content cell).need.along axis) cells.zipIdx)) := by
    obtain ⟨part, hp, hl⟩ := share_isOk grid axis.flip ho
    rw [minExtent, if_neg (by simp [hg]), hp]
    simp only [bind_eq_ok_iff, cellExtents_pick]
    exact ⟨part, rfl, _, pickM_eq_ok_iff.2
      ⟨_, fun cell hm hlive => (h cell hm hlive).minExtent_eq axis part hl, rfl⟩, rfl⟩
  have hsizes : ∀ size, some size ∈ pick isLiveCell (fun cell => (content cell).need)
      cells.zipIdx → size.IsProper := fun size hs => by
    obtain ⟨cell, hm, hl, rfl⟩ := mem_pick.1 hs
    exact (h cell hm hl).isProper
  refine isSteady_of fun axis => ⟨_, ?_, fun other ho => hfound axis ho⟩
  have hcover := @Grid.minExtent_eq_total_cover grid _ _ fun size hs => (hsizes size hs axis).1
  rw [map_pick] at hcover
  exact hcover ▸ Extent.isLength_total Grid.nonneg_of_mem_cover

end Containers

/-! ## Answers to free questions -/

theorem mem_track_pick {β : Type} {grid : Grid} {axis : Axis} {k : Nat}
    {p : Option Node × Nat → Bool} {f : Option Node × Nat → β} {cells : List (Option Node)}
    {b : β} : b ∈ grid.track axis k (pick p f cells.zipIdx) ↔
      ∃ cell ∈ cells.zipIdx, p cell = true ∧ grid.trackOf axis cell.2 = k ∧ f cell = b := by
  rw [Grid.mem_track]
  constructor
  · rintro ⟨i, hi, hk⟩
    rw [pick, List.getElem?_map, List.getElem?_zipIdx] at hi
    cases hc : cells[i]? with
    | none => simp [hc] at hi
    | some cell =>
      rw [hc] at hi
      simp only [Option.map_some, Nat.zero_add, Option.some.injEq] at hi
      split at hi
      · rename_i hp
        exact ⟨(cell, i), List.mem_zipIdx_iff_getElem?.2 hc, hp, hk, Option.some.inj hi⟩
      · cases hi
  · rintro ⟨⟨cell, i⟩, hm, hp, hk, rfl⟩
    have hi : cells[i]? = some cell := List.mem_zipIdx_iff_getElem?.1 hm
    refine ⟨i, ?_, hk⟩
    simp [pick, hi, hp]

/-- Tracks cover no more than they must if no cell asks for more than it needs. -/
theorem within_cover {exact : Prop} {grid : Grid} {axis : Axis} {cells : List (Option Node)}
    {p : Option Node × Nat → Bool} {f g : Option Node × Nat → Size}
    (h : ∀ cell ∈ cells.zipIdx, p cell = true →
      Extent.Within exact ((f cell).along axis) ((g cell).along axis)) :
    Extent.Within exact (Extent.total (grid.cover axis (pick p f cells.zipIdx)).toList)
      (Extent.total (grid.cover axis (pick p g cells.zipIdx)).toList) := by
  rw [Grid.toList_cover, Grid.toList_cover]
  refine Extent.Within.total fun k _ => Extent.Within.foldl_max ?_ ?_
  · refine List.forall_mem_map.2 fun size hs => ?_
    obtain ⟨cell, hm, hp, hk, rfl⟩ := mem_track_pick.1 hs
    exact ⟨_, List.mem_map_of_mem (mem_track_pick.2 ⟨cell, hm, hp, hk, rfl⟩), (h cell hm hp).le⟩
  · refine fun he => List.forall_mem_map.2 fun size hs => ?_
    obtain ⟨cell, hm, hp, hk, rfl⟩ := mem_track_pick.1 hs
    exact ⟨_, List.mem_map_of_mem (mem_track_pick.2 ⟨cell, hm, hp, hk, rfl⟩),
      Int.le_of_eq ((h cell hm hp).eq he).symm⟩

/-- Measured under any constraints the node has steady needs, and where they leave an axis free it
answers within its need there. -/
def Heeds (exact : Prop) (node : Node) : Prop := ∀ given m, node.measure given = .ok m →
  node.IsSteady ∧ ∀ axis, given.along axis = .free →
    Extent.Within exact (m.size.along axis) (node.need.along axis)

section Heeds

variable {exact : Prop} {frame : Frame}

theorem Heeds.leaf {content : Leaf} (h : content.IsNatural) (hx : content.HasExtents) :
    Heeds exact (leaf frame content) := by
  intro given m hm
  obtain ⟨ideal, hi, -⟩ := id h
  have ha := (measure_leaf hm).1
  rw [Leaf.measure_of_ideal hi] at ha
  obtain ⟨size, rfl, ha⟩ := bind_eq_ok_iff.1 ha
  have hsize := h.isProper hx hi
  have hs : (Node.leaf frame content).IsSteady := .leaf hi hsize
  have hneed : size = (Node.leaf frame content).need := Except.ok.inj (hs.hasNeed.leaf hi)
  refine ⟨hs, fun axis hf => ?_⟩
  rw [along_eq_of_constrain ha hf (hsize axis), hneed]
  exact .refl (hs.isProper axis).1

theorem Heeds.padding {insets : Insets} {child : Node} (hi : insets.IsNonneg)
    (h : Heeds exact child) : Heeds exact (padding frame insets child) := by
  intro given m hm
  obtain ⟨hp, inner, found, hf, hinner, hsize⟩ := measure_padding_of_nonneg hi hm
  obtain ⟨hs, hwithin⟩ := h inner found hf
  have hsteady : (Node.padding frame insets child).IsSteady := .padding hp hs
  refine ⟨hsteady, fun axis hfree => ?_⟩
  have hless : inner.along axis = .free := by
    rw [hinner, hfree, Limits.less_free (hp.isLength_amount axis)]
  rw [hsize, (hsteady.hasNeed.padding.2 axis).2]
  exact (hwithin axis hless).saturatingAdd (hp.isLength_amount axis).1

theorem Heeds.align {alignment : Alignment} {measured : Size} {child : Node}
    (hn : ∀ axis, alignment.factor axis = .natural) (h : Heeds exact child) :
    Heeds exact (align frame alignment measured child) := by
  intro given m hm
  obtain ⟨found, hf, ha, -⟩ := measure_align hm
  rw [Alignment.scaled_eq hn] at ha
  obtain ⟨hs, hwithin⟩ := h _ found hf
  have hsteady : (Node.align frame alignment measured child).IsSteady := .align hn hs
  refine ⟨hsteady, fun axis hfree => ?_⟩
  have hloose : given.loosen.along axis = .free := by
    rw [Constraints.along_loosen, hfree, Limits.loosen_free]
  have hfound := hwithin axis hloose
  rw [along_eq_of_constrain ha hfree (hfound.isLength (hs.isProper axis)),
    (hsteady.hasNeed.align hn).2 axis]
  exact hfound

theorem Heeds.table {grid : Grid} {cells : List (Option Node)} (hg : grid.isOversized = false)
    (h : ∀ child, some child ∈ cells → child.isLive = true → Heeds exact child) :
    Heeds exact (table frame grid cells) := by
  intro given m hm
  obtain ⟨once, again, sized, rfl, honce, -, ha, -⟩ := measure_table hm
  have hcell : ∀ cell ∈ cells.zipIdx, isLiveCell cell = true →
      (content cell).IsSteady ∧ ∀ axis, Extent.Within exact ((once cell).size.along axis)
        ((content cell).need.along axis) := fun cell hc hl => by
    obtain ⟨-, hi, hlive⟩ := exists_of_isLiveCell hc hl
    obtain ⟨hs, hwithin⟩ := h _ (List.mem_of_getElem? hi) hlive _ _ (honce cell hc hl)
    exact ⟨hs, fun axis => hwithin axis (by cases axis <;> rfl)⟩
  have hsteady : (Node.table frame grid cells).IsSteady :=
    .table hg fun cell hc hl => (hcell cell hc hl).1
  have hneed (axis : Axis) := hsteady.hasNeed.table_eq_total (fun child hc hl axis => by
    obtain ⟨i, hi⟩ := List.mem_iff_getElem?.1 hc
    exact ((hcell (some child, i) (List.mem_zipIdx_iff_getElem?.2 hi) hl).1.isProper axis).1) axis
  refine ⟨hsteady, fun axis hfree => ?_⟩
  have hcontent : Extent.IsLength ((grid.measured (pick isLiveCell (fun cell => (once cell).size)
      cells.zipIdx)).contentSize.along axis) := by
    rw [Grid.along_contentSize, Grid.extents_measured]
    exact Extent.isLength_total Grid.nonneg_of_mem_cover
  rw [along_eq_of_constrain ha hfree hcontent, hneed axis, Grid.along_contentSize,
    Grid.extents_measured]
  exact within_cover fun cell hc hl => (hcell cell hc hl).2 axis

section Stack

variable {style : StackStyle} {totals : StackTotals} {items : List (Item Node)}

theorem itemNeeds_of_empty (hl : liveCount items = 0) (axis : Axis) :
    itemNeeds axis items = [] := by
  have hnone : items.filter (·.node.isLive) = [] :=
    List.filter_eq_nil_iff.2 fun item hi => List.countP_eq_zero.1 hl item hi
  rw [itemNeeds, hnone]
  rfl

theorem Heeds.stack_empty (hl : liveCount items = 0) :
    Heeds exact (stack frame style totals items) := by
  intro given m hm
  have ha := (measure_stack_empty hm hl).1
  have hnone : ∀ item ∈ items, item.node.isLive = true → item.node.IsSteady :=
    fun item hi hlive => absurd hlive (List.countP_eq_zero.1 hl item hi)
  have hcount : (Node.stack frame style totals items).HasCountableSlices := fun _ => by
    rw [hl]
    decide
  refine ⟨.stack hcount hnone, fun axis hfree => ?_⟩
  have hzero : Size.zero.along axis = 0 := by cases axis <;> rfl
  have hneed : ∀ axis, (Node.stack frame style totals items).need.along axis = 0 := by
    refine (Axis.forall_iff style.axis).2 ⟨?_, ?_⟩
    · rw [(need_stack hnone).1, itemNeeds_of_empty hl, StackStyle.minMain]
      split <;> rfl
    · rw [(need_stack hnone).2, itemNeeds_of_empty hl]
      rfl
  rw [along_eq_of_constrain ha hfree (hzero ▸ Extent.isLength_zero), hzero, hneed]
  exact .refl (Int.le_refl 0)

/-- A stack that is asked freely along its axis has its children at what they need. -/
theorem within_main {run : Sharing} {given : Constraints}
    (hr : run.IsRun (stack frame style totals items) style items given)
    (hcount : (stack frame style totals items).HasCountableSlices)
    (hx : exact → style.isHomogeneous = false)
    (hfree : given.along style.axis = .free)
    (h : ∀ item ∈ items, item.node.isLive = true → Heeds exact item.node) :
    Extent.Within exact run.extent
      ((Node.stack frame style totals items).need.along style.axis) := by
  have honce := fun item hi hl => h item hi hl _ _ (hr.once item hi hl)
  have hmain := hr.along_offer (.inr hfree)
  have hextent := hr.extent_eq_total <| hr.extra_eq_zero hfree <|
    forall_mem_map_filter.2 fun item hi hl => ((honce item hi hl).2 _ hmain).nonneg
  have htotal : Extent.Within exact run.extent (Extent.total (itemNeeds style.axis items)) := by
    rw [hextent]
    refine Extent.Within.total fun item hm => ?_
    obtain ⟨hi, hl⟩ := List.mem_filter.1 hm
    exact (honce item hi hl).2 _ hmain
  rw [(need_stack fun item hi hl => (honce item hi hl).1).1]
  by_cases hs : style.isHomogeneous = true
  · rw [minMain_itemNeeds hs _ hcount]
    refine ⟨htotal.nonneg, Int.le_trans htotal.le (Extent.total_le_saturatingMul ?_), fun he => ?_⟩
    · exact isLength_of_mem_itemNeeds (fun item hi hl => (honce item hi hl).1) _
    · rw [hx he] at hs
      cases hs
  · rw [StackStyle.minMain, if_neg hs]
    exact htotal

/-- A stack that is asked freely across its axis is as broad as its children need. -/
theorem within_cross {run : Sharing} {given : Constraints} (hn : given.isNormalized = true)
    (hc : liveCount items ≠ 0)
    (hr : run.IsRun (stack frame style totals items) style items given)
    (hfree : given.along style.axis.flip = .free)
    (h : ∀ item ∈ items, item.node.isLive = true → Heeds exact item.node) :
    Extent.Within exact (run.breadthOf style items)
      ((Node.stack frame style totals items).need.along style.axis.flip) := by
  obtain ⟨-, hcross⟩ := hr.offer_spec hn hc
  have honce := fun item hi hl => h item hi hl _ _ (hr.once item hi hl)
  have hsteady : ∀ item ∈ items, item.node.isLive = true → item.node.IsSteady :=
    fun item hi hl => (honce item hi hl).1
  have hneeds := isLength_of_mem_itemNeeds hsteady style.axis.flip
  rw [hfree, StackStyle.across] at hcross
  rw [(need_stack hsteady).2, Sharing.breadthOf]
  split
  · -- what stretched children fill is the very least extent that is asked for
    rename_i ha
    have hbreadth := hr.breadth
    rw [Node.breadth, StackStyle.needsBreadth, ha, hfree, if_pos (by decide),
      minExtent_stack hsteady _ Extent.isLength_inf, if_neg style.axis.flip_ne] at hbreadth
    rw [if_pos ha, ← Except.ok.inj hbreadth,
      Limits.nearest_free (Extent.isLength_largest hneeds)] at hcross
    rw [hcross]
    exact .refl (Extent.isLength_largest hneeds).1
  · rename_i ha
    rw [if_neg ha] at hcross
    rw [Extent.largest_eq_foldl fun v hv => (hneeds v hv).1]
    refine Extent.Within.foldl_max (fun v hv => ?_) fun he => ?_
    · rcases List.mem_append.1 hv with hv | hv
      · obtain ⟨item, hm, rfl⟩ := List.mem_map.1 hv
        obtain ⟨hi, hl⟩ := List.mem_filter.1 hm
        exact ⟨_, List.mem_map_of_mem hm, ((honce item hi hl).2 _ hcross).le⟩
      · obtain ⟨item, hm, rfl⟩ := List.mem_map.1 hv
        obtain ⟨hi, hq⟩ := List.mem_filter.1 hm
        have hl := Sharing.isLive_of_shares item hq
        have hagain := (hr.along_flip_enlarged hi hq).trans hcross
        exact ⟨_, List.mem_map_of_mem (List.mem_filter.2 ⟨hi, hl⟩),
          ((h item hi hl _ _ (hr.again item hi hq)).2 _ hagain).le⟩
    · refine forall_mem_map_filter.2 fun item hi hl => ?_
      exact ⟨_, List.mem_append_left _ (List.mem_map_of_mem (List.mem_filter.2 ⟨hi, hl⟩)),
        Int.le_of_eq (((honce item hi hl).2 _ hcross).eq he).symm⟩

theorem Heeds.stack (hcount : (stack frame style totals items).HasCountableSlices)
    (hx : exact → style.isHomogeneous = false)
    (h : ∀ item ∈ items, item.node.isLive = true → Heeds exact item.node) :
    Heeds exact (stack frame style totals items) := by
  rcases Classical.em (liveCount items = 0) with hl | hl
  · exact .stack_empty hl
  intro given m hm
  obtain ⟨run, hr, ha, -⟩ := measure_stack hm hl
  have hsteady : ∀ item ∈ items, item.node.isLive = true → item.node.IsSteady :=
    fun item hi hlive => (h item hi hlive _ _ (hr.once item hi hlive)).1
  have hsteady' : (Node.stack frame style totals items).IsSteady := .stack hcount hsteady
  refine ⟨hsteady', (Axis.forall_iff style.axis).2 ⟨fun hfree => ?_, fun hfree => ?_⟩⟩
  · have hw := within_main hr hcount hx hfree h
    rw [along_eq_of_constrain ha hfree, Size.along_ofAxis]
    · exact hw
    · rw [Size.along_ofAxis]
      exact hw.isLength (hsteady'.isProper _)
  · have hw := within_cross (isNormalized_of_measure hm) hl hr hfree h
    rw [along_eq_of_constrain ha hfree, Size.along_flip_ofAxis]
    · exact hw
    · rw [Size.along_flip_ofAxis]
      exact hw.isLength (hsteady'.isProper _)

end Stack

end Heeds

/-- A row of `n` spacers of one pixel each, which are to have equal slices. -/
def spacers (n : Nat) : Node :=
  stack {} { axis := .horizontal, justify := .homogeneous } .zero
    (List.replicate n ⟨ofLeaf (.spacer ⟨1, 1⟩), 0, .zero⟩)

/-- The least extent counts the spacers by their number as an extent. -/
theorem minExtent_spacers {n : Nat} (hn : 0 < n) (other : Int) :
    (spacers n).minExtent .horizontal other =
      .ok (Extent.saturatingMul 1 (Extent.wrap n)) := by
  have hitems : itemExtents .horizontal other
      (List.replicate n ⟨ofLeaf (.spacer ⟨1, 1⟩), 0, .zero⟩) = .ok (List.replicate n 1) := by
    clear hn
    induction n with
    | zero => rfl
    | succ n ih =>
      rw [List.replicate_succ, itemExtents, ih]
      rfl
  have hlargest : Extent.largest (List.replicate n 1) = 1 := by
    rw [Extent.largest, List.max?_replicate_of_pos hn]
    rfl
  rw [spacers, minExtent, if_pos rfl, hitems]
  show Except.ok (Extent.saturatingMul _ (Extent.wrap (List.replicate n 1).length)) = _
  rw [hlargest, List.length_replicate]

theorem allReached_spacers (n : Nat) : (spacers n).AllReached IsFit := by
  have hlight : ¬ (spacers n).IsOverweight := nofun
  refine allReached_stack.2 ⟨isFit_stack hlight, fun item hi _ => ?_⟩
  rw [List.eq_of_mem_replicate hi]
  exact allReached_leaf.2 (isFit_leaf (Leaf.IsShort.isSafe trivial))

end Node

end BoxLayout
