import BoxLayout.Proofs.Preorder
import BoxLayout.Proofs.Spans

/-!
# Where a stack puts the room that is left

A stack that is not cut into slices lays its children out in a row (`Node.place_spaced`): each has
the extent that it was measured at, and what they leave of the box goes before, between and after
them as the style says (`Justify.spread`). If there is nothing left, or weights have used it up, the
row starts at the start of the box and has no gaps.
-/

namespace BoxLayout

/-- What is left of the room after the last of `count` children. -/
def Spacing.tail (spacing : Spacing) (extra : Int) (count : Nat) : Int :=
  extra - spacing.lead - (count - 1) * spacing.gap

/-- The last child ends as far before the end of the box as the spacing says. -/
theorem Spacing.exists_last (spacing : Spacing) (extra start : Int) {lengths : List Int}
    (h : lengths ≠ []) : ∃ last,
      (Span.row spacing.gap (start + spacing.lead) lengths).getLast? = some last ∧
      last.stop + spacing.tail extra lengths.length = start + lengths.sum + extra := by
  obtain ⟨last, hlast, hstop⟩ := @Span.getLast?_row spacing.gap (start + spacing.lead) _ h
  refine ⟨last, hlast, ?_⟩
  rw [tail, Int.sub_mul, Int.one_mul]
  omega

/-- Rounding leaves less behind the last child than the number of parts the room was cut into. -/
theorem Justify.tail_spread (justify : Justify) (extra : Int) (count : Nat) :
    (justify = .stop → (justify.spread extra count).tail extra count = 0) ∧
    (justify = .spaceBetween → 1 < count → 0 ≤ (justify.spread extra count).tail extra count ∧
      (justify.spread extra count).tail extra count < count - 1) ∧
    (justify = .spaceAround →
      (justify.spread extra count).gap ≤ (justify.spread extra count).tail extra count ∧
      (justify.spread extra count).tail extra count ≤
        (justify.spread extra count).gap + count) := by
  refine ⟨?_, ?_, ?_⟩
  · rintro rfl
    simp [spread, Spacing.tail]
  · rintro rfl hcount
    have hparts : (0 : Int) < count - 1 := by omega
    have hsplit := Int.mul_ediv_add_emod extra (count - 1)
    have := Int.emod_nonneg extra (Int.ne_of_gt hparts)
    have := Int.emod_lt_of_pos extra hparts
    rw [spread, if_neg (by omega)]
    simp only [Spacing.tail]
    omega
  · rintro rfl
    have hparts : (0 : Int) < count + 1 := by omega
    have hsplit := Int.mul_ediv_add_emod extra (count + 1)
    have := Int.emod_nonneg extra (Int.ne_of_gt hparts)
    have := Int.emod_lt_of_pos extra hparts
    simp only [spread, Spacing.tail]
    rw [Int.sub_mul]
    rw [Int.add_mul] at hsplit
    omega

namespace StackStyle

variable {style : StackStyle} {bounds : Rect} {totals : StackTotals}

/-- The spacing of `count` children that leave the room `extra`, which is negative if they take more
than there is. -/
def spreadFor (style : StackStyle) (flex : Nat) (extra : Int) (count : Nat) : Spacing :=
  if extra ≤ 0 ∨ 0 < flex then .none else style.justify.spread extra count

theorem eq_of_spacing {count : Nat} {spacing : Spacing}
    (h : style.spacing bounds totals count = .ok spacing)
    (he : bounds.extent style.axis < Extent.inf) (ht : 0 ≤ totals.extent) :
    spacing = style.spreadFor totals.flex (bounds.extent style.axis - totals.extent) count := by
  obtain ⟨room, hroom, h⟩ := bind_eq_ok_iff.1 h
  obtain ⟨-, rfl⟩ := Extent.sub_eq_ok_iff.1 hroom
  dsimp only at h
  rw [spreadFor]
  by_cases hnone : bounds.extent style.axis - totals.extent ≤ 0 ∨ 0 < totals.flex
  · rw [if_pos (by omega)] at h
    rw [if_pos hnone]
    exact (Except.ok.inj h).symm
  · rw [if_neg (by omega), Int.max_eq_left (by omega),
      style.justify.spacing_eq (by omega) (by omega)] at h
    rw [if_neg hnone]
    exact (Except.ok.inj h).symm

theorem fits_spreadFor (style : StackStyle) (flex : Nat) (extra : Int) (count : Nat) :
    0 ≤ (style.spreadFor flex extra count).lead ∧ 0 ≤ (style.spreadFor flex extra count).gap ∧
      (0 ≤ extra → 0 ≤ (style.spreadFor flex extra count).tail extra count) := by
  unfold spreadFor
  split
  · exact ⟨Int.le_refl 0, Int.le_refl 0, fun h => by simpa [Spacing.tail, Spacing.none] using h⟩
  · have hpos : 0 ≤ extra := by omega
    obtain ⟨⟨hlead, hgap, -, hle⟩, -⟩ := style.justify.fits_spread hpos count
    refine ⟨hlead, hgap, fun _ => ?_⟩
    rw [Spacing.tail, Int.sub_mul]
    omega

end StackStyle

namespace Node

variable {frame : Frame} {style : StackStyle} {totals : StackTotals} {items : List (Item Node)}
  {given : Constraints} {m : Measured} {bounds : Rect} {p : Placed}

/-- A placed stack has its children in a row, each with the extent that the stack recalls of it. -/
theorem spans_of_place_stack (hs : style.isHomogeneous = false) (hcount : liveCount items ≠ 0)
    (ht : 0 ≤ totals.extent) (he : bounds.extent style.axis < Extent.inf)
    (h : (stack frame style totals items).place bounds = .ok p) :
    let spacing := style.spreadFor totals.flex (bounds.extent style.axis - totals.extent)
      (liveCount items)
    p.node.spans style.axis = Span.row spacing.gap (bounds.start style.axis + spacing.lead)
      ((stack frame style totals items).measuredAlong style.axis) := by
  obtain ⟨placed, hp, hnode⟩ := place_stack h
  rw [StackStyle.slots, countP_measuredSizes, if_neg hcount, hs, if_neg Bool.false_ne_true] at hp
  obtain ⟨spacing, hspacing, hp⟩ := exists_of_placeItems_after hp
  obtain ⟨pos, hpos, hp⟩ := exists_of_placeItems_after hp
  obtain ⟨-, rfl⟩ := Extent.add_eq_ok_iff.1 hpos
  rw [hnode, ← StackStyle.eq_of_spacing hspacing he ht]
  exact spans_of_pack hp

/-- What a stack measured is the row that it is placed as. -/
theorem spans_of_layout (hs : style.isHomogeneous = false) (hcount : liveCount items ≠ 0)
    (hinsets : (stack frame style totals items).AllReached HasNonnegInsets)
    (hm : (stack frame style totals items).measure given = .ok m)
    (hfinite : (m.node.measuredAlong style.axis).sum < Extent.inf)
    (hextent : bounds.extent style.axis < Extent.inf) (hp : m.node.place bounds = .ok p) :
    let lengths := m.node.measuredAlong style.axis
    let spacing := style.spreadFor m.node.totals.flex (bounds.extent style.axis - lengths.sum)
      (liveCount items)
    m.node.totals.extent = lengths.sum ∧ lengths.length = liveCount items ∧
      p.node.spans style.axis =
        Span.row spacing.gap (bounds.start style.axis + spacing.lead) lengths := by
  intro lengths spacing
  have htotal : m.node.totals.extent = lengths.sum :=
    extent_of_measure hs hinsets hm (Int.le_of_lt hfinite)
  have hsum : 0 ≤ lengths.sum := List.sum_nonneg (nonneg_measuredAlong hinsets hm style.axis)
  obtain ⟨totals', items', hnode, hlive⟩ := exists_stack_of_measure hm
  have hrecalled : m.node.totals = totals' := by rw [hnode]; rfl
  refine ⟨htotal, by simp only [lengths, hnode, length_measuredAlong, hlive], ?_⟩
  have hplaced := spans_of_place_stack hs (hlive ▸ hcount)
    (by rw [← hrecalled, htotal]; exact hsum) hextent (hnode ▸ hp)
  rwa [← hnode, ← hrecalled, htotal, hlive] at hplaced

/-- The children of a stack that is not cut into slices lie in a row, each with the extent that it
was measured at: from the start of the box, if they leave no room or weights have used it up, and
else spaced out as the style says. A stack that ends at the end of its box ends there exactly, and
one that puts the room between its children, or around them too, leaves as many pixels behind the
last one as rounding takes away from the parts. No two children overlap, and they lie in the box if
it is large enough. -/
theorem place_spaced (hs : style.isHomogeneous = false) (hcount : liveCount items ≠ 0)
    (hinsets : (stack frame style totals items).AllReached HasNonnegInsets)
    (hm : (stack frame style totals items).measure given = .ok m)
    (hfinite : (m.node.measuredAlong style.axis).sum < Extent.inf)
    (hextent : bounds.extent style.axis < Extent.inf) (hp : m.node.place bounds = .ok p) :
    let lengths := m.node.measuredAlong style.axis
    let start := bounds.start style.axis
    let extent := bounds.extent style.axis
    let extra := extent - lengths.sum
    let count := liveCount items
    let spacing := style.spreadFor m.node.totals.flex extra count
    m.node.totals.extent = lengths.sum ∧ lengths.length = count ∧
      0 ≤ spacing.lead ∧ 0 ≤ spacing.gap ∧
      p.node.spans style.axis = Span.row spacing.gap (start + spacing.lead) lengths ∧
      (∃ last, (p.node.spans style.axis).getLast? = some last ∧
        (0 < extra → m.node.totals.flex = 0 →
          (style.justify = .stop → last.stop = start + extent) ∧
          (style.justify = .spaceBetween → 1 < count →
            last.stop ≤ start + extent ∧ start + extent < last.stop + (count - 1)) ∧
          (style.justify = .spaceAround → last.stop + spacing.gap ≤ start + extent ∧
            start + extent ≤ last.stop + spacing.gap + count))) ∧
      (p.node.spans style.axis).Pairwise (fun a b => a.stop ≤ b.start) ∧
      (lengths.sum ≤ extent → ∀ span ∈ p.node.spans style.axis,
        start ≤ span.start ∧ span.stop ≤ start + extent) := by
  intro lengths start extent extra count spacing
  obtain ⟨htotal, hlength, hspans⟩ : m.node.totals.extent = lengths.sum ∧
      lengths.length = count ∧
      p.node.spans style.axis = Span.row spacing.gap (start + spacing.lead) lengths :=
    spans_of_layout hs hcount hinsets hm hfinite hextent hp
  have hnn : ∀ v ∈ lengths, 0 ≤ v := nonneg_measuredAlong hinsets hm style.axis
  obtain ⟨hlead, hgap, htail⟩ : 0 ≤ spacing.lead ∧ 0 ≤ spacing.gap ∧
      (0 ≤ extra → 0 ≤ spacing.tail extra count) := style.fits_spreadFor ..
  refine ⟨htotal, hlength, hlead, hgap, hspans, ?_, ?_, fun hle => ?_⟩
  · have hne : lengths ≠ [] := List.ne_nil_of_length_pos (by omega)
    obtain ⟨last, hlast, hstop⟩ := spacing.exists_last extra start hne
    rw [hlength] at hstop
    refine ⟨last, hspans ▸ hlast, fun hroom hflex => ?_⟩
    have hspread : spacing = style.justify.spread extra count := if_neg (by omega)
    have hend := style.justify.tail_spread extra count
    rw [← hspread] at hend
    refine ⟨fun hj => ?_, fun hj htwo => ?_, fun hj => ?_⟩
    · have := hend.1 hj
      omega
    · have := hend.2.1 hj htwo
      omega
    · have := hend.2.2 hj
      omega
  · rw [hspans]
    exact Span.pairwise_row hgap hnn
  · rw [hspans]
    intro span hspan
    obtain ⟨hfirst, hend⟩ := Span.bounds_of_mem_row hgap hnn hspan
    have hleft := htail (by omega)
    rw [hlength] at hend
    rw [Spacing.tail, Int.sub_mul, Int.one_mul] at hleft
    omega

/-- Three children share 75 pixels between them, of which one is left at the end. -/
theorem place_spaced_row :
    let row := stackOf { axis := .horizontal, justify := .spaceBetween }
      [(ofLeaf (.spacer ⟨10, 4⟩), 0), (pad (.all 2) (ofLeaf (.spacer ⟨5, 4⟩)), 0),
        (ofLeaf (.spacer ⟨7, 4⟩), 0)]
    ∃ m p, row.measure .free = .ok m ∧ m.node.place ⟨⟨3, 0⟩, ⟨101, 20⟩⟩ = .ok p ∧
      m.node.measuredAlong .horizontal = [10, 9, 7] ∧ m.node.totals.extent = 26 ∧
      p.node.spans .horizontal = [⟨3, 10⟩, ⟨50, 9⟩, ⟨96, 7⟩] := by
  intro row
  have hinsets : row.AllReached HasNonnegInsets := by decide +kernel
  obtain ⟨m, hm, hfound⟩ := map_eq_ok_iff.1 (by decide +kernel : (fun m =>
      (m.node.measuredAlong .horizontal, m.node.totals.flex,
        (m.node.place ⟨⟨3, 0⟩, ⟨101, 20⟩⟩).toOption.isSome)) <$> row.measure .free =
    .ok ([10, 9, 7], 0, true))
  simp only [Prod.mk.injEq] at hfound
  obtain ⟨hlengths, hflex, hplaced⟩ := hfound
  obtain ⟨p, hp⟩ := exists_of_isSome hplaced
  obtain ⟨htotal, -, -, -, hspans, -⟩ := place_spaced rfl (by decide) hinsets hm
    (hlengths ▸ (by decide)) (by decide) hp
  rw [hlengths] at htotal
  rw [hlengths, hflex] at hspans
  exact ⟨m, p, hm, hp, hlengths, htotal, hspans⟩

end Node

end BoxLayout
