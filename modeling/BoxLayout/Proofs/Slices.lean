import Mathlib.Data.List.Chain
import Mathlib.Data.List.Range
import Mathlib.Data.List.Forall2
import BoxLayout.Proofs.Repeats
import BoxLayout.Proofs.Spans

/-!
# Equal slices

A homogeneous stack cuts its box into slices, one for each child that takes part. The slices tile
the box along the axis without a pixel lost or given away twice, and none is smaller than the equal
part that a child is measured at or needs, nor larger by more than one pixel
(`Node.place_sliced`).
-/

namespace BoxLayout

/-! ## Cutting an extent -/

namespace Extent

/-- What a proportional part is if it can be computed. -/
theorem eq_of_scale {value num den part : Int} (h : scale value num den = .ok part)
    (hv : 0 ≤ value) (hf : value < inf) (h₀ : 0 ≤ num) (h₁ : num ≤ den) (hd : 0 < den) :
    part = value * num / den := by
  rw [scale, if_neg (Int.ne_of_lt hf), if_neg (Int.ne_of_gt hd)] at h
  obtain ⟨product, hp, h⟩ := bind_eq_ok_iff.1 h
  obtain ⟨quotient, hq, h⟩ := bind_eq_ok_iff.1 h
  obtain ⟨-, rfl⟩ := checkedWide_eq_ok_iff.1 hp
  obtain ⟨-, rfl⟩ := checkedWide_eq_ok_iff.1 hq
  obtain ⟨hlow, hhigh⟩ := part_bounds hv h₀ h₁ hd
  rw [Int.tdiv_eq_ediv_of_nonneg (Int.mul_nonneg hv h₀)] at h
  rw [← Except.ok.inj h, wrap_of_inRange (IsLength.inRange ⟨hlow, by omega⟩)]

theorem le_largest {vs : List Int} {v : Int} (h : v ∈ vs) : v ≤ largest vs := by
  cases hm : vs.max? with
  | none =>
    rw [List.max?_eq_none_iff.1 hm] at h
    cases h
  | some greatest =>
    rw [largest, hm]
    exact (List.max?_eq_some_iff.1 hm).2 v h

/-- Where a sum of equal extents is finite, it is their product. -/
theorem mul_le_of_saturatingMul {v n bound : Int} (h : saturatingMul v n ≤ bound)
    (hf : bound < inf) : v * n ≤ bound := by
  unfold saturatingMul saturate at h
  split at h <;> omega

end Extent

/-- Slice `index` of `count` equal slices of a stretch. -/
def Span.slice (whole : Span) (count index : Nat) : Span :=
  ⟨whole.start + whole.length * index / count,
    whole.length * (index + 1) / count - whole.length * index / count⟩

namespace Span

variable {whole : Span} {count : Nat}

/-- One slice ends where the next one starts. -/
theorem stop_slice (whole : Span) (count index : Nat) :
    (whole.slice count index).stop = (whole.slice count (index + 1)).start := by
  simp only [stop, slice, Int.natCast_add, Int.natCast_one]
  omega

/-- A slice is as long as the equal part rounded down, or rounded up. -/
theorem length_slice (whole : Span) (hc : 0 < count) (index : Nat) :
    (whole.slice count index).length = whole.length / count ∨
      (whole.slice count index).length = whole.length / count + 1 ∧
        (whole.length + count - 1) / count = whole.length / count + 1 := by
  have hpos : (0 : Int) < count := by omega
  have hrem := Int.emod_lt_of_pos (whole.length * index) hpos
  have hone : ((count : Int) - 1) / count = 0 := Int.ediv_eq_zero_of_lt (by omega) (by omega)
  have hup : ((count : Int) - 1) % count = count - 1 := Int.emod_eq_of_lt (by omega) (by omega)
  have hnext : whole.length * (index + 1) / count =
      whole.length * index / count + whole.length / count +
        if count ≤ whole.length * index % count + whole.length % count then 1 else 0 := by
    rw [Int.mul_add, Int.mul_one, Int.add_ediv_of_pos hpos]
  have hceil : (whole.length + count - 1) / count = whole.length / count +
      if count ≤ whole.length % count + (count - 1) then 1 else 0 := by
    rw [Int.add_sub_assoc, Int.add_ediv_of_pos hpos, hone, hup, Int.add_zero]
  simp only [slice, hnext, hceil]
  split
  · rw [if_pos (by omega)]
    omega
  · omega

theorem length_slice_bounds (whole : Span) (hc : 0 < count) (index : Nat) :
    whole.length / count ≤ (whole.slice count index).length ∧
      (whole.slice count index).length ≤ whole.length / count + 1 := by
  rcases whole.length_slice hc index with h | h <;> omega

/-- All slices in order. -/
def slices (whole : Span) (count : Nat) : List Span := (List.range count).map (whole.slice count)

theorem mem_slices {span : Span} :
    span ∈ whole.slices count ↔ ∃ i < count, whole.slice count i = span := by
  simp [slices]

/-- The slices lie end to end. -/
theorem isChain_slices (whole : Span) (count : Nat) :
    (whole.slices count).IsChain fun a b => b.start = a.stop := by
  rw [slices, List.isChain_map, List.isChain_range]
  exact fun i _ => (whole.stop_slice count i).symm

theorem head?_slices (hc : 0 < count) : ∃ first, (whole.slices count).head? = some first ∧
    first.start = whole.start := by
  refine ⟨whole.slice count 0, ?_, by simp [slice]⟩
  rw [slices, List.head?_map, List.head?_range, if_neg (Nat.ne_of_gt hc)]
  rfl

theorem getLast?_slices (hc : 0 < count) : ∃ last, (whole.slices count).getLast? = some last ∧
    last.stop = whole.stop := by
  refine ⟨whole.slice count (count - 1), ?_, ?_⟩
  · rw [slices, List.getLast?_map, List.getLast?_range, if_neg (Nat.ne_of_gt hc)]
    rfl
  · rw [stop_slice, Nat.sub_add_cancel hc, slice, stop]
    dsimp only
    rw [Int.mul_ediv_cancel _ (by omega)]

end Span

theorem StackStyle.eq_of_sliceSpan {style : StackStyle} {bounds : Rect} {count index : Nat}
    {span : Span} (h : style.sliceSpan bounds count index = .ok span)
    (h₀ : 0 ≤ bounds.extent style.axis) (hf : bounds.extent style.axis < Extent.inf)
    (hi : index < count) : span = (bounds.span style.axis).slice count index := by
  obtain ⟨before, hb, h⟩ := bind_eq_ok_iff.1 h
  obtain ⟨first, hfirst, h⟩ := bind_eq_ok_iff.1 h
  obtain ⟨after, ha, h⟩ := bind_eq_ok_iff.1 h
  obtain ⟨last, hlast, h⟩ := bind_eq_ok_iff.1 h
  obtain ⟨length, hlength, h⟩ := bind_eq_ok_iff.1 h
  obtain ⟨-, rfl⟩ := Extent.add_eq_ok_iff.1 hfirst
  obtain ⟨-, rfl⟩ := Extent.add_eq_ok_iff.1 hlast
  obtain ⟨-, rfl⟩ := Extent.sub_eq_ok_iff.1 hlength
  rw [Extent.eq_of_scale hb h₀ hf (by omega) (by omega) (by omega),
    Extent.eq_of_scale ha h₀ hf (by omega) (by omega) (by omega)] at h
  rw [← Except.ok.inj h, Span.slice, Rect.span]
  simp only [Span.mk.injEq, true_and]
  omega

/-- A box that lies among the lengths can be cut. -/
theorem StackStyle.sliceSpan_isOk {style : StackStyle} {bounds : Rect} {count index : Nat}
    (h₀ : 0 ≤ bounds.extent style.axis) (hf : bounds.extent style.axis < Extent.inf)
    (hstart : 0 ≤ bounds.start style.axis)
    (hstop : bounds.start style.axis + bounds.extent style.axis ≤ Extent.inf)
    (hi : index < count) (hc : count ≤ 4294967296) :
    ∃ span, style.sliceSpan bounds count index = .ok span := by
  have hscale {k : Int} (hk : 0 ≤ k ∧ k ≤ count) :
      Extent.scale (bounds.extent style.axis) k count =
        .ok (bounds.extent style.axis * k / count) :=
    Extent.scale_eq_ediv ⟨h₀, Int.le_of_lt hf⟩ (Int.ne_of_lt hf) hk.1 hk.2 (by omega) (by omega)
  have hline {k : Int} (hk : 0 ≤ k ∧ k ≤ count) :
      Extent.IsLength (bounds.start style.axis + bounds.extent style.axis * k / count) := by
    obtain ⟨hlow, hhigh⟩ := Extent.part_bounds h₀ hk.1 hk.2 (by omega)
    exact ⟨by omega, by omega⟩
  have hfirst : (0 : Int) ≤ index ∧ (index : Int) ≤ count := by omega
  have hlast : (0 : Int) ≤ index + 1 ∧ (index + 1 : Int) ≤ count := by omega
  refine ⟨_, bind_eq_ok_iff.2 ⟨_, hscale hfirst, bind_eq_ok_iff.2 ⟨_, (hline hfirst).checked_eq,
    bind_eq_ok_iff.2 ⟨_, hscale hlast, bind_eq_ok_iff.2 ⟨_, (hline hlast).checked_eq,
      bind_eq_ok_iff.2 ⟨_, Extent.checked_of_inRange ?_, rfl⟩⟩⟩⟩⟩⟩
  have h₁ := hline hfirst
  have h₂ := hline hlast
  simp only [Extent.IsLength, Extent.InRange, Extent.least, Extent.inf] at *
  omega

/-! ## Cut stacks -/

/-- Asked for a finite extent at most, a homogeneous stack asks each child for an equal part. -/
theorem Sharing.IsRun.along_offer_of_cut {run : Sharing} {stack : Node} {style : StackStyle}
    {items : List (Item Node)} {given : Constraints} (h : run.IsRun stack style items given)
    (hn : given.isNormalized = true) (hs : style.isHomogeneous = true)
    (hcount : Node.liveCount items ≠ 0) (hf : (given.along style.axis).hi < Extent.inf) :
    run.offer.along style.axis =
      .exactly ((given.along style.axis).hi / Node.liveCount items) := by
  have hhi := Limits.isLength_hi (Constraints.isNormalized_iff.1 hn style.axis)
  have hcount : (0 : Int) < Node.liveCount items := by omega
  have hloose : (given.loosenAlong style.axis).along style.axis =
      .upTo (given.along style.axis).hi := Constraints.along_setAlong ..
  obtain ⟨main, hm, ho⟩ := StackStyle.along_offer h.offer
  rw [StackStyle.offerMain, if_pos ⟨hs, Int.ne_of_lt hf⟩, Extent.scale_part hhi.1 hf hcount] at hm
  have hm := (Constraints.tightenAlong_eq (hloose ▸ Limits.isNormalized_upTo hhi) _).symm.trans hm
  obtain ⟨hp₀, hp, -⟩ := Extent.part_le hhi.1 hcount
  rw [ho, ← Except.ok.inj hm, Constraints.along_setAlong, hloose]
  simp only [Limits.nearest, Limits.upTo]
  congr 1
  omega

namespace Node

variable {frame : Frame} {style : StackStyle} {totals : StackTotals} {items : List (Item Node)}
  {given : Constraints} {m : Measured} {bounds : Rect} {p : Placed}

/-- The children of a placed homogeneous stack lie in the slices of its box. -/
theorem spans_of_place_cut (hs : style.isHomogeneous = true) (hcount : liveCount items ≠ 0)
    (h₀ : 0 ≤ bounds.extent style.axis) (hf : bounds.extent style.axis < Extent.inf)
    (h : (stack frame style totals items).place bounds = .ok p) :
    p.node.spans style.axis = (bounds.span style.axis).slices (liveCount items) := by
  obtain ⟨placed, hp, hnode⟩ := place_stack h
  rw [StackStyle.slots, countP_measuredSizes, if_neg hcount, if_pos hs] at hp
  rw [hnode, Span.slices, List.range_eq_range']
  exact spans_of_cut hp fun i span _ hi hspan =>
    StackStyle.eq_of_sliceSpan hspan h₀ hf (by omega)

/-- Children that can be placed anywhere are placed in the slices of a box that can be cut, if they
need not be aligned. -/
theorem placeItems_cut_isOk {rest : List (Item Node)} {count index : Nat}
    (ha : style.align = .start) (hi : index + liveCount rest ≤ count)
    (hslice : ∀ i < count, ∃ span, style.sliceSpan bounds count i = .ok span)
    (hplace : ∀ item ∈ rest, ∀ slot, ∃ p, item.node.place slot = .ok p) :
    ∃ placed, placeItems rest (style.cut bounds count index (measuredSizes rest)) =
      .ok placed := by
  induction rest generalizing index with
  | nil => exact ⟨_, rfl⟩
  | cons item rest ih =>
    obtain ⟨hitem, hrest⟩ := List.forall_mem_cons.1 hplace
    rw [liveCount, List.countP_cons] at hi
    rw [measuredSizes_cons]
    split <;> rename_i hl
    · rw [if_pos hl] at hi
      obtain ⟨span, hspan⟩ := hslice index (by omega)
      obtain ⟨others, ho⟩ := @ih (index + 1) (by rw [liveCount]; omega) hrest
      have hslot : (style.sliceSpan bounds count index >>= fun main =>
          style.slot bounds main item.measured) = .ok _ :=
        bind_eq_ok_iff.2 ⟨span, hspan, bind_eq_ok_iff.2 ⟨_, by rw [ha]; rfl, rfl⟩⟩
      obtain ⟨p, hp⟩ := hitem _
      rw [StackStyle.cut, hslot, Slots.after_ok]
      exact ⟨_, placeItems_some_eq_ok_iff.2 ⟨p, others, hp, ho, rfl⟩⟩
    · rw [if_neg hl] at hi
      obtain ⟨others, ho⟩ := ih hi hrest
      exact ⟨_, placeItems_none_eq_ok_iff.2 ⟨others, ho, rfl⟩⟩

theorem place_cut_isOk (hs : style.isHomogeneous = true) (ha : style.align = .start)
    (hslice : ∀ i < liveCount items, ∃ span, style.sliceSpan bounds (liveCount items) i = .ok span)
    (hplace : ∀ item ∈ items, ∀ slot, ∃ p, item.node.place slot = .ok p) :
    ∃ p, (stack frame style totals items).place bounds = .ok p := by
  obtain ⟨placed, hplaced⟩ := placeItems_cut_isOk ha (Nat.zero_add _).le hslice hplace
  rw [place, StackStyle.slots, countP_measuredSizes]
  rcases Classical.em (liveCount items = 0) with hcount | hcount
  · rw [if_pos hcount, placeItems_done]
    exact ⟨_, rfl⟩
  · rw [if_neg hcount, if_pos hs, hplaced]
    exact ⟨_, rfl⟩

/-- If every child obeys what it is asked for, a homogeneous stack measures each of them at the
equal part of what it may have itself. -/
theorem eq_of_mem_measuredAlong (hs : style.isHomogeneous = true)
    (hm : (stack frame style totals items).measure given = .ok m)
    (hf : (given.along style.axis).hi < Extent.inf)
    (ho : ∀ call ∈ m.visit.calls, call.2.event.given.isSatisfiedBy call.2.event.answer = true) :
    ∀ v ∈ m.node.measuredAlong style.axis,
      v = (given.along style.axis).hi / (liveCount items : Int) := by
  rcases Classical.em (liveCount items = 0) with hcount | hcount
  · rw [(measure_stack_empty hm hcount).2, measuredAlong_of_empty hcount]
    exact nofun
  obtain ⟨run, hr, -, hnode, hcalls⟩ := run_stack hm hcount
  have hoffer := hr.along_offer_of_cut (isNormalized_of_measure hm) hs hcount hf
  rw [hnode, measuredAlong_settled hr]
  refine forall_mem_map_filter.2 fun item hi hl => ?_
  -- there is no second round, so that the first answer is the last one
  have hlast : run.last item = run.once item := by
    rw [Sharing.last, Sharing.shares_eq_false (hr.extra_of_isHomogeneous hs),
      if_neg Bool.false_ne_true]
  obtain ⟨i, hi'⟩ := List.mem_iff_getElem?.1 hi
  have hcall : (i, (run.once item).visit) ∈ m.visit.calls :=
    hcalls ▸ List.mem_append_left _ (Measured.mem_calls_pick hi' hl)
  have hobeys := ho _ hcall
  dsimp only at hobeys
  rw [event_of_measure (hr.once item hi hl)] at hobeys
  obtain ⟨-, hlow, hhigh⟩ := Constraints.bounds_of_isSatisfiedBy hobeys style.axis
  rw [hoffer] at hlow hhigh
  rw [hlast]
  exact Int.le_antisymm hhigh hlow

/-- A homogeneous stack that needs no more than `bound` has children that need no more than an equal
part of it, if its slices can be counted. -/
theorem minExtent_le_part (hs : style.isHomogeneous = true)
    (hslices : (stack frame style totals items).HasCountableSlices) {other least bound : Int}
    (h : (stack frame style totals items).minExtent style.axis other = .ok least)
    (hle : least ≤ bound) (hf : bound < Extent.inf) :
    ∀ item ∈ items, item.node.isLive = true →
      ∃ need, item.node.minExtent style.axis other = .ok need ∧
        need ≤ bound / (liveCount items : Int) := by
  rw [minExtent, if_pos rfl] at h
  obtain ⟨extents, he, h⟩ := bind_eq_ok_iff.1 h
  have hlength := length_of_itemExtents he
  obtain ⟨hneeds, rfl⟩ := itemExtents_eq_ok he
  replace h := Except.ok.inj h
  rw [StackStyle.minMain, if_pos hs, hlength, Extent.wrap_count (hslices hs)] at h
  intro item hi hl
  refine ⟨_, hneeds item hi hl, ?_⟩
  have hcount : 0 < liveCount items := List.countP_pos_iff.2 ⟨item, hi, hl⟩
  have hmem : value (item.node.minExtent style.axis other) ∈
      (items.filter (·.node.isLive)).map fun item => value (item.node.minExtent style.axis other) :=
    List.mem_map_of_mem (List.mem_filter.2 ⟨hi, hl⟩)
  exact Int.le_trans (Extent.le_largest hmem)
    (Int.le_ediv_of_mul_le (by omega) (Extent.mul_le_of_saturatingMul (h ▸ hle) hf))

/-- A relation between all members of lists of the same length holds between them one by one. -/
theorem forall₂_of_forall_mem {α β : Type} {R : α → β → Prop} {xs : List α} {ys : List β}
    (hl : xs.length = ys.length) (h : ∀ x ∈ xs, ∀ y ∈ ys, R x y) : List.Forall₂ R xs ys :=
  List.forall₂_iff_zip.2 ⟨hl, fun hm => h _ (List.of_mem_zip hm).1 _ (List.of_mem_zip hm).2⟩

/-- The children of a placed homogeneous stack lie in equal slices of the box: slice `i` of `n` goes
from `extent * i / n` to `extent * (i + 1) / n`. So the slices lie end to end and fill the box, and
each is as long as an `n`-th of it, rounded down or up, whatever the weights of the children and
however many others are collapsed. If the children were measured for that extent and obeyed, each
lies in a slice of its measured extent or of one pixel more. If the stack needs no more than that
extent, and its slices can be counted, no child needs more than its slice. -/
theorem place_sliced (hs : style.isHomogeneous = true) (hcount : liveCount items ≠ 0)
    (h₀ : 0 ≤ bounds.extent style.axis) (hf : bounds.extent style.axis < Extent.inf)
    (hp : (stack frame style totals items).place bounds = .ok p) :
    let start := bounds.start style.axis
    let extent := bounds.extent style.axis
    let n := liveCount items
    let spans := p.node.spans style.axis
    spans = (List.range n).map (fun i =>
        ⟨start + extent * i / n, extent * (i + 1) / n - extent * i / n⟩) ∧
      spans.IsChain (fun a b => b.start = a.stop) ∧
      (∃ first last, spans.head? = some first ∧ first.start = start ∧
        spans.getLast? = some last ∧ last.stop = start + extent) ∧
      (∀ span ∈ spans, span.length = extent / n ∨ span.length = (extent + n - 1) / n) ∧
      (∀ frame' style' totals' items' p', style'.isHomogeneous = true →
        style'.axis = style.axis → liveCount items' = n →
        (stack frame' style' totals' items').place bounds = .ok p' →
        p'.node.spans style.axis = spans) ∧
      (∀ totals' items' given m, (stack frame style totals' items').measure given = .ok m →
        m.node = stack frame style totals items → (given.along style.axis).hi = extent →
        (∀ call ∈ m.visit.calls, call.2.event.given.isSatisfiedBy call.2.event.answer = true) →
        List.Forall₂ (fun v span => span.length = v ∨ span.length = v + 1)
          (m.node.measuredAlong style.axis) spans) ∧
      ((stack frame style totals items).HasCountableSlices → ∀ other least,
        (stack frame style totals items).minExtent style.axis other = .ok least →
        least ≤ extent → List.Forall₂ (fun item span => ∃ need,
          item.node.minExtent style.axis other = .ok need ∧ need ≤ span.length)
          (stack frame style totals items).liveItems spans) := by
  intro start extent n spans
  have hn : 0 < n := Nat.pos_of_ne_zero hcount
  have hspans : spans = (bounds.span style.axis).slices n :=
    spans_of_place_cut hs hcount h₀ hf hp
  have hlength : spans.length = n := by rw [hspans, Span.slices, List.length_map, List.length_range]
  have hpart : ∀ span ∈ spans, extent / n ≤ span.length ∧ span.length ≤ extent / n + 1 := by
    rw [hspans]
    intro span hspan
    obtain ⟨i, -, rfl⟩ := Span.mem_slices.1 hspan
    exact Span.length_slice_bounds _ hn i
  refine ⟨hspans, hspans ▸ Span.isChain_slices _ n, ?_, ?_, ?_, ?_, ?_⟩
  · obtain ⟨first, hfirst, hstart⟩ := Span.head?_slices hn
    obtain ⟨last, hlast, hstop⟩ := Span.getLast?_slices hn
    exact ⟨first, last, hspans ▸ hfirst, hstart, hspans ▸ hlast, hstop⟩
  · rw [hspans]
    intro span hspan
    obtain ⟨i, -, rfl⟩ := Span.mem_slices.1 hspan
    exact ((bounds.span style.axis).length_slice hn i).imp_right fun h => h.1.trans h.2.symm
  · intro frame' style' totals' items' p' hs' haxis hcount' hp'
    have hother := spans_of_place_cut hs' (by omega) (haxis ▸ h₀) (haxis ▸ hf) hp'
    rw [hspans, ← hcount', ← haxis]
    exact hother
  · intro totals' items' given m hm hnode hhi ho
    obtain ⟨_, _, hsame, hlive⟩ := exists_stack_of_measure hm
    obtain ⟨-, -, rfl, rfl⟩ := Node.stack.inj (hnode.symm.trans hsame)
    have hmeasured : ∀ v ∈ m.node.measuredAlong style.axis, v = extent / n := by
      have hall := eq_of_mem_measuredAlong hs hm (by omega) ho
      rwa [hhi, ← hlive] at hall
    refine forall₂_of_forall_mem ?_ fun v hv span hspan => ?_
    · rw [hnode, length_measuredAlong, hlength]
    · have := hpart span hspan
      have := hmeasured v hv
      omega
  · intro hslices other least hleast hle
    refine forall₂_of_forall_mem ?_ fun item hitem span hspan => ?_
    · rw [hlength, liveItems, ← List.countP_eq_length_filter]
      rfl
    · obtain ⟨hi, hl⟩ := List.mem_filter.1 hitem
      obtain ⟨need, hneed, hup⟩ := minExtent_le_part hs hslices hleast hle hf item hi hl
      exact ⟨need, hneed, Int.le_trans hup (hpart span hspan).1⟩

/-- A hundred pixels for three children, which are measured at 33 each. -/
theorem place_sliced_row :
    let row := stackOf { axis := .horizontal, justify := .homogeneous }
      [(ofLeaf (.spacer ⟨10, 4⟩), 3), (ofLeaf (.canvas ⟨50, 4⟩ .collapsed none), 1),
        (pad (.all 2) (ofLeaf (.spacer ⟨5, 4⟩)), 0), (ofLeaf (.spacer ⟨7, 4⟩), 0)]
    ∃ m p, row.measure (.upTo ⟨100, 20⟩) = .ok m ∧
      m.node.place ⟨⟨5, 0⟩, ⟨100, 20⟩⟩ = .ok p ∧ m.node.measuredAlong .horizontal = [33, 33, 33] ∧
      p.node.spans .horizontal = [⟨5, 33⟩, ⟨38, 33⟩, ⟨71, 34⟩] ∧
      List.Forall₂ (fun v span => span.length = v ∨ span.length = v + 1)
        (m.node.measuredAlong .horizontal) (p.node.spans .horizontal) := by
  intro row
  obtain ⟨m, hm, hfound⟩ := map_eq_ok_iff.1 (by decide +kernel : (fun m =>
      (m.node.measuredAlong .horizontal,
        m.visit.calls.all (fun call => call.2.event.given.isSatisfiedBy call.2.event.answer),
        (m.node.place ⟨⟨5, 0⟩, ⟨100, 20⟩⟩).toOption.isSome)) <$> row.measure (.upTo ⟨100, 20⟩) =
    .ok ([33, 33, 33], true, true))
  simp only [Prod.mk.injEq] at hfound
  obtain ⟨hlengths, ho, hplaced⟩ := hfound
  obtain ⟨totals, items, hnode, hlive⟩ := exists_stack_of_measure hm
  replace hlive : liveCount items = 3 := hlive.trans (by decide)
  obtain ⟨p, hp⟩ := exists_of_isSome hplaced
  obtain ⟨hspans, -, -, -, -, hmeasured, -⟩ := place_sliced rfl (by rw [hlive]; decide)
    (by decide) (by decide) (hnode ▸ hp)
  rw [hlive] at hspans
  exact ⟨m, p, hm, hp, hlengths, hspans, hmeasured _ _ _ m hm hnode rfl (List.all_eq_true.1 ho)⟩

/-- The spacers lie in slices of any box that lies among the lengths, however many they are. -/
theorem place_spacers {n : Nat} (hn : 0 < n) (hc : n ≤ 4294967296)
    (h₀ : 0 ≤ bounds.extent .horizontal) (hf : bounds.extent .horizontal < Extent.inf)
    (hstart : 0 ≤ bounds.start .horizontal)
    (hstop : bounds.start .horizontal + bounds.extent .horizontal ≤ Extent.inf) :
    ∃ p, (spacers n).place bounds = .ok p ∧
      p.node.spans .horizontal = (bounds.span .horizontal).slices n := by
  have hcount : liveCount (List.replicate n ⟨ofLeaf (.spacer ⟨1, 1⟩), 0, .zero⟩) = n := by
    rw [liveCount, List.countP_eq_length.2 fun item hi => by rw [List.eq_of_mem_replicate hi]; rfl,
      List.length_replicate]
  obtain ⟨p, hp⟩ : ∃ p, (spacers n).place bounds = .ok p :=
    place_cut_isOk rfl rfl
      (fun i hi => StackStyle.sliceSpan_isOk h₀ hf hstart hstop hi (by rwa [hcount]))
      fun item hi slot => by
        rw [List.eq_of_mem_replicate hi]
        exact ⟨_, rfl⟩
  have hspans := spans_of_place_cut rfl (by rw [hcount]; exact Nat.ne_of_gt hn) h₀ hf hp
  rw [hcount] at hspans
  exact ⟨p, hp, hspans⟩

/-- A row keeps the lengths it was measured at when another child comes to it, whose slice is then
neither the length of that child nor one pixel more. And where the children of a row are too many to
be counted, it needs less than nothing, while some of them lie in slices of no length. -/
theorem slices_beyond_counting :
    (∃ m next p, (stackOf { axis := .horizontal, justify := .homogeneous }
        [(ofLeaf (.spacer ⟨1, 1⟩), 0), (ofLeaf (.spacer ⟨1, 1⟩), 0)]).measure (.upTo ⟨30, 10⟩) =
          .ok m ∧
      m.node.measuredAlong .horizontal = [15, 15] ∧
      m.node.push (ofLeaf (.spacer ⟨1, 1⟩)) 0 = .ok next ∧
      next.place ⟨⟨0, 0⟩, ⟨30, 10⟩⟩ = .ok p ∧ next.measuredAlong .horizontal = [15, 15, 0] ∧
      p.node.spans .horizontal = [⟨0, 10⟩, ⟨10, 10⟩, ⟨20, 10⟩]) ∧
    let row := spacers 2147483648
    row.minExtent .horizontal 5 = .ok (-2147483648) ∧
      (ofLeaf (.spacer ⟨1, 1⟩)).minExtent .horizontal 5 = .ok 1 ∧
      ∃ p, row.place ⟨⟨0, 0⟩, ⟨10, 5⟩⟩ = .ok p ∧ ∃ span ∈ p.node.spans .horizontal,
        span.length = 0 := by
  refine ⟨?_, ?_⟩
  · obtain ⟨m, hm, hfound⟩ := map_eq_ok_iff.1 (by decide +kernel : (fun m =>
        (m.node.measuredAlong .horizontal, (do
          let next ← m.node.push (ofLeaf (.spacer ⟨1, 1⟩)) 0
          let p ← next.place ⟨⟨0, 0⟩, ⟨30, 10⟩⟩
          return (next.measuredAlong .horizontal, p.node.spans .horizontal)))) <$>
        (stackOf { axis := .horizontal, justify := .homogeneous }
          [(ofLeaf (.spacer ⟨1, 1⟩), 0), (ofLeaf (.spacer ⟨1, 1⟩), 0)]).measure (.upTo ⟨30, 10⟩) =
      .ok ([15, 15], .ok ([15, 15, 0], [⟨0, 10⟩, ⟨10, 10⟩, ⟨20, 10⟩])))
    simp only [Prod.mk.injEq] at hfound
    obtain ⟨hmeasured, hrest⟩ := hfound
    obtain ⟨next, hnext, hrest⟩ := bind_eq_ok_iff.1 hrest
    obtain ⟨p, hp, hrest⟩ := bind_eq_ok_iff.1 hrest
    obtain ⟨hbefore, hspans⟩ := Prod.mk.inj (Except.ok.inj hrest)
    exact ⟨m, next, p, hm, hmeasured, hnext, hp, hbefore, hspans⟩
  · intro row
    obtain ⟨p, hp, hspans⟩ : ∃ p, row.place ⟨⟨0, 0⟩, ⟨10, 5⟩⟩ = .ok p ∧
        p.node.spans .horizontal = (Span.mk 0 10).slices 2147483648 :=
      place_spacers (by decide) (by decide) (by decide) (by decide) (by decide) (by decide)
    have hfirst : (Span.mk 0 10).slice 2147483648 0 = ⟨0, 0⟩ := by
      simp [Span.slice]
    refine ⟨minExtent_spacers (by decide) 5, rfl, p, hp, ⟨0, 0⟩, ?_, rfl⟩
    rw [hspans]
    exact Span.mem_slices.2 ⟨0, by decide, hfirst⟩

end Node

end BoxLayout
