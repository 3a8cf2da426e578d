import BoxLayout.Proofs.Placing

/-!
# Stacks pack their children side by side

A stack that is as large as its children together leaves room for them however it spaces them
(`StackStyle.spacing_isOk`). Packing then places each child in the box of the stack and after the
child before it (`Node.IsRow`), so that a placed stack is tidy (`Node.Arranges.stack`). Only the gap
after the last child may end outside, if the room goes between the children (`Spacing.EndsIn`).
-/

namespace BoxLayout

/-- Room `extra` suffices for the spacing of `count` children. -/
structure Spacing.Fits (spacing : Spacing) (extra : Int) (count : Nat) : Prop where
  lead_nonneg : 0 ≤ spacing.lead
  gap_nonneg : 0 ≤ spacing.gap
  gap_le : spacing.gap ≤ extra
  lead_add_le : spacing.lead + count * spacing.gap ≤ extra + spacing.gap

/-- There is room for a gap after the last child, too. -/
def Spacing.EndsIn (spacing : Spacing) (extra : Int) (count : Nat) : Prop :=
  spacing.lead + count * spacing.gap ≤ extra

theorem Spacing.fits_none {extra : Int} (h : 0 ≤ extra) (count : Nat) :
    Spacing.none.Fits extra count := by
  refine ⟨Int.le_refl 0, Int.le_refl 0, h, ?_⟩
  simpa [Spacing.none] using h

theorem Spacing.fits_lead {lead extra : Int} (h₀ : 0 ≤ lead) (h : lead ≤ extra) (count : Nat) :
    Spacing.Fits ⟨lead, 0⟩ extra count := by
  refine ⟨h₀, Int.le_refl 0, Int.le_trans h₀ h, ?_⟩
  simpa using h

/-- One of equal parts of the room. -/
theorem Extent.part_le {extra : Int} (h₀ : 0 ≤ extra) {parts : Int} (hp : 0 < parts) :
    0 ≤ extra / parts ∧ extra / parts ≤ extra ∧ parts * (extra / parts) ≤ extra :=
  ⟨Int.ediv_nonneg h₀ (Int.le_of_lt hp), Int.ediv_le_self _ h₀,
    Int.mul_ediv_self_le (Int.ne_of_gt hp)⟩

theorem Extent.scale_part {extra : Int} (h₀ : 0 ≤ extra) (hf : extra < inf) {parts : Int}
    (hp : 0 < parts) : scale extra 1 parts = .ok (extra / parts) := by
  rw [scale_eq_ediv ⟨h₀, Int.le_of_lt hf⟩ (Int.ne_of_lt hf) (by decide) (show 1 ≤ parts from hp) hp
    (by decide), Int.mul_one]

theorem Spacing.endsIn_of_gap_eq_zero {spacing : Spacing} {extra : Int}
    (h : spacing.gap = 0) (hle : spacing.lead ≤ extra) (count : Nat) :
    spacing.EndsIn extra count := by
  rw [EndsIn, h]
  simpa using hle

/-- What becomes of the room `extra`, in exact numbers. -/
def Justify.spread (justify : Justify) (extra : Int) (count : Nat) : Spacing :=
  match justify with
  | .start | .homogeneous => .none
  | .center => ⟨extra / 2, 0⟩
  | .stop => ⟨extra, 0⟩
  | .spaceAround => ⟨extra / (count + 1), extra / (count + 1)⟩
  | .spaceBetween => if count ≤ 1 then ⟨extra / 2, 0⟩ else ⟨0, extra / (count - 1)⟩

theorem Justify.spacing_eq (justify : Justify) {extra : Int} (h₀ : 0 ≤ extra)
    (hf : extra < Extent.inf) (count : Nat) :
    justify.spacing extra count = .ok (justify.spread extra count) := by
  have hhalf : extra.tdiv 2 = extra / 2 := Int.tdiv_eq_ediv_of_nonneg h₀
  cases justify with
  | start | homogeneous | stop => rfl
  | center =>
    rw [spacing, hhalf]
    rfl
  | spaceAround =>
    rw [spacing, Extent.scale_part h₀ hf (by omega)]
    rfl
  | spaceBetween =>
    rw [spacing, spread]
    split
    · rw [hhalf]
      rfl
    · rw [Extent.scale_part h₀ hf (by omega)]
      rfl

theorem Justify.fits_spread (justify : Justify) {extra : Int} (h₀ : 0 ≤ extra) (count : Nat) :
    (justify.spread extra count).Fits extra count ∧
      ((justify.spread extra count).EndsIn extra count ∨ justify = .spaceBetween ∧ 1 < count) := by
  have hhalf : 0 ≤ extra / 2 ∧ extra / 2 ≤ extra := by omega
  cases justify with
  | start | homogeneous =>
    exact ⟨Spacing.fits_none h₀ count, .inl (Spacing.endsIn_of_gap_eq_zero rfl h₀ count)⟩
  | center =>
    exact ⟨Spacing.fits_lead hhalf.1 hhalf.2 count,
      .inl (Spacing.endsIn_of_gap_eq_zero rfl hhalf.2 count)⟩
  | stop =>
    exact ⟨Spacing.fits_lead h₀ (Int.le_refl _) count,
      .inl (Spacing.endsIn_of_gap_eq_zero rfl (Int.le_refl _) count)⟩
  | spaceAround =>
    obtain ⟨hg, hle, hparts⟩ := Extent.part_le h₀ (show (0 : Int) < count + 1 by omega)
    rw [Int.add_mul] at hparts
    refine ⟨⟨hg, hg, hle, ?_⟩, .inl ?_⟩
    · simp only [spread]
      omega
    · simp only [spread, Spacing.EndsIn]
      omega
  | spaceBetween =>
    rw [spread]
    split
    · exact ⟨Spacing.fits_lead hhalf.1 hhalf.2 count,
        .inl (Spacing.endsIn_of_gap_eq_zero rfl hhalf.2 count)⟩
    · rename_i hcount
      obtain ⟨hg, hle, hparts⟩ := Extent.part_le h₀ (show (0 : Int) < count - 1 by omega)
      refine ⟨⟨Int.le_refl 0, hg, hle, ?_⟩, .inr ⟨rfl, Nat.lt_of_not_le hcount⟩⟩
      rw [Int.sub_mul] at hparts
      simp only
      omega

/-- A child that is no larger than the stack across the axis lies inside it there. -/
theorem CrossAlign.span_isOk (align : CrossAlign) {start length size : Int} (hs : 0 ≤ start)
    (hz : 0 ≤ size) (hle : size ≤ length) (ha : align = .stretch → size = length)
    (hf : start + length ≤ Extent.inf) :
    ∃ span, align.span ⟨start, length⟩ size = .ok span ∧ span.length = size ∧
      start ≤ span.start ∧ span.start + size ≤ start + length := by
  have hinf : Extent.inf = 2147483647 := rfl
  cases align with
  | start => exact ⟨_, rfl, rfl, Int.le_refl _, by show start + size ≤ _; omega⟩
  | center =>
    have hroom : Extent.sub length size = .ok (length - size) :=
      Extent.IsLength.checked_eq ⟨by omega, by omega⟩
    have hhalf : 0 ≤ (length - size).tdiv 2 ∧ (length - size).tdiv 2 ≤ length - size := by
      rw [Int.tdiv_eq_ediv_of_nonneg (by omega)]
      omega
    have hpos : Extent.add start ((length - size).tdiv 2) =
        .ok (start + (length - size).tdiv 2) := Extent.IsLength.checked_eq ⟨by omega, by omega⟩
    exact ⟨⟨_, _⟩, bind_eq_ok_iff.2 ⟨_, hroom, bind_eq_ok_iff.2 ⟨_, hpos, rfl⟩⟩, rfl,
      by show start ≤ start + _; omega, by show start + _ + size ≤ _; omega⟩
  | stop =>
    have hstop : Extent.add start length = .ok (start + length) :=
      Extent.IsLength.checked_eq ⟨by omega, by omega⟩
    have hpos : Extent.sub (start + length) size = .ok (start + length - size) :=
      Extent.IsLength.checked_eq ⟨by omega, by omega⟩
    exact ⟨⟨_, _⟩, bind_eq_ok_iff.2 ⟨_, hstop, bind_eq_ok_iff.2 ⟨_, hpos, rfl⟩⟩, rfl,
      by show start ≤ start + length - size; omega,
      by show start + length - size + size ≤ _; omega⟩
  | stretch => exact ⟨_, rfl, (ha rfl).symm, Int.le_refl _, by show start + size ≤ _; omega⟩

namespace StackStyle

variable {style : StackStyle} {rect : Rect}

theorem slot_isOk (hr : rect.IsProper) {size : Size} (hn : size.IsNonneg) {pos : Int}
    (hcross : size.along style.axis.flip ≤ rect.extent style.axis.flip ∧
      (style.align = .stretch → size.along style.axis.flip = rect.extent style.axis.flip))
    (hpos : rect.start style.axis ≤ pos)
    (hfar : pos + size.along style.axis ≤ rect.far style.axis) :
    ∃ slot, style.slot rect ⟨pos, size.along style.axis⟩ size = .ok slot ∧ slot.size = size ∧
      slot.IsInside rect ∧ slot.start style.axis = pos := by
  obtain ⟨hs, he, hf⟩ := hr style.axis.flip
  unfold Rect.far at hf
  obtain ⟨span, hspan, hlength, hstart, hend⟩ := style.align.span_isOk hs (hn _) hcross.1 hcross.2
    (by omega)
  refine ⟨_, bind_eq_ok_iff.2 ⟨span, hspan, rfl⟩, ?_, (Axis.forall_iff style.axis).2 ⟨?_, ?_⟩,
    Rect.start_ofAxis ..⟩
  · refine Size.eq_of_along ((Axis.forall_iff style.axis).2 ⟨?_, ?_⟩)
    · exact Rect.extent_ofAxis ..
    · exact (Rect.extent_flip_ofAxis ..).trans hlength
  · rw [Rect.far, Rect.start_ofAxis, Rect.extent_ofAxis]
    exact ⟨hpos, hfar⟩
  · rw [Rect.far, Rect.start_flip_ofAxis, Rect.extent_flip_ofAxis, hlength]
    exact ⟨hstart, hend⟩

/-- What the children leave of the box suffices for their spacing. -/
theorem spacing_isOk (hr : rect.IsProper) {totals : StackTotals} (h₀ : 0 ≤ totals.extent)
    (hle : totals.extent ≤ rect.extent style.axis) (count : Nat) :
    ∃ spacing, style.spacing rect totals count = .ok spacing ∧
      spacing.Fits (rect.extent style.axis - totals.extent) count ∧
      (spacing.EndsIn (rect.extent style.axis - totals.extent) count ∨
        style.justify = .spaceBetween ∧ 1 < count) := by
  obtain ⟨hs, he, hf⟩ := hr style.axis
  unfold Rect.far at hf
  have hinf : Extent.inf = 2147483647 := rfl
  have hsub : Extent.sub (rect.extent style.axis) totals.extent = .ok _ :=
    Extent.IsLength.checked_eq ⟨by omega, by omega⟩
  have hroom : 0 ≤ rect.extent style.axis - totals.extent := by omega
  have hmax : max (rect.extent style.axis - totals.extent) 0 =
      rect.extent style.axis - totals.extent := Int.max_eq_left hroom
  by_cases hnone : totals.flex > 0 ∨ rect.extent style.axis - totals.extent = 0
  · refine ⟨.none, bind_eq_ok_iff.2 ⟨_, hsub, ?_⟩, Spacing.fits_none hroom count,
      .inl (Spacing.endsIn_of_gap_eq_zero rfl hroom count)⟩
    dsimp only
    rw [hmax, if_pos hnone]
    rfl
  · refine ⟨_, bind_eq_ok_iff.2 ⟨_, hsub, ?_⟩, style.justify.fits_spread hroom count⟩
    dsimp only
    rw [hmax, if_neg hnone]
    exact style.justify.spacing_eq hroom (by omega) count

end StackStyle

namespace Node

/-- Children of a stack that lie in its box, each where or after the one before it ends, from `pos`
on. -/
inductive IsRow (rect : Rect) (axis : Axis) : Int → List (Item Node) → Prop
  | nil {pos : Int} : IsRow rect axis pos []
  | skip {pos : Int} {item : Item Node} {rest : List (Item Node)} (hl : item.node.isLive = false)
      (hr : IsRow rect axis pos rest) : IsRow rect axis pos (item :: rest)
  | next {pos next : Int} {item : Item Node} {rest : List (Item Node)}
      (hi : item.node.bounds.IsInside rect) (ht : item.node.AllReached IsTidy)
      (hs : pos ≤ item.node.bounds.start axis) (hf : item.node.bounds.far axis ≤ next)
      (hle : pos ≤ next) (hr : IsRow rect axis next rest) : IsRow rect axis pos (item :: rest)

section Row

variable {rect : Rect} {axis : Axis} {pos : Int} {items : List (Item Node)}

theorem IsRow.of_forall_not_live (h : ∀ item ∈ items, item.node.isLive ≠ true) :
    IsRow rect axis pos items := by
  induction items with
  | nil => exact .nil
  | cons item rest ih =>
    obtain ⟨hl, hrest⟩ := List.forall_mem_cons.1 h
    exact .skip (Bool.eq_false_iff.2 hl) (ih hrest)

theorem IsRow.forall_live (h : IsRow rect axis pos items) :
    ∀ item ∈ items, item.node.isLive = true → item.node.bounds.IsInside rect ∧
      item.node.AllReached IsTidy ∧ pos ≤ item.node.bounds.start axis := by
  induction h with
  | nil => exact nofun
  | skip hl hr ih =>
    refine List.forall_mem_cons.2 ⟨fun h => ?_, ih⟩
    rw [hl] at h
    cases h
  | next hi ht hs hf hle hr ih =>
    refine List.forall_mem_cons.2 ⟨fun _ => ⟨hi, ht, hs⟩, fun item hm hl => ?_⟩
    obtain ⟨hi, ht, hs⟩ := ih item hm hl
    exact ⟨hi, ht, Int.le_trans hle hs⟩

theorem IsRow.pairwise (h : IsRow rect axis pos items) :
    ((items.filter (·.node.isLive)).map (·.node)).Pairwise
      fun a b => a.bounds.IsApart b.bounds := by
  induction h with
  | nil => exact .nil
  | skip hl hr ih =>
    rw [List.filter_cons, if_neg (by simp [hl])]
    exact ih
  | next hi ht hs hf hle hr ih =>
    rw [List.filter_cons]
    split
    · refine List.pairwise_cons.2 ⟨forall_mem_map_filter.2 fun item hm hl => ?_, ih⟩
      exact ⟨axis, .inl (Int.le_trans hf (hr.forall_live item hm hl).2.2)⟩
    · exact ih

/-- A stack of children in a row is tidy. -/
theorem IsRow.allReached_isTidy {frame : Frame} {style : StackStyle} {totals : StackTotals}
    (h : IsRow frame.bounds axis pos items) :
    (stack frame style totals items).AllReached IsTidy := by
  refine allReached_stack.2 ⟨⟨forall_mem_map_filter.2 fun item hm hl => ?_, h.pairwise,
    fun _ _ h => nomatch h⟩, fun item hm hl => ?_⟩
  · exact (h.forall_live item hm hl).1
  · exact (h.forall_live item hm hl).2.1

end Row

/-- A child that can be placed at the size it was measured at, which a stack in the given box has
room for across its axis. -/
structure Suits (style : StackStyle) (rect : Rect) (item : Item Node) : Prop where
  nonneg : item.measured.IsNonneg
  cross : item.measured.along style.axis.flip ≤ rect.extent style.axis.flip ∧
    (style.align = .stretch →
      item.measured.along style.axis.flip = rect.extent style.axis.flip)
  arranges : item.node.Arranges item.measured

theorem measuredSizes_cons (item : Item Node) (rest : List (Item Node)) :
    measuredSizes (item :: rest) =
      (if item.node.isLive then some item.measured else none) :: measuredSizes rest := rfl

/-- The slots of a stack from `pos` on, which lie in its box as far as they are computed. The
children are placed there, unless one of them or the gap after the last one makes it fail. -/
theorem placeItems_pack {style : StackStyle} {rect : Rect} (hr : rect.IsProper) {gap : Int}
    (hg : 0 ≤ gap) {p : Prop} {items : List (Item Node)}
    (hs : ∀ item ∈ items, item.node.isLive = true → Suits style rect item ∧
      item.measured.along style.axis + gap ≤ rect.extent style.axis) {pos : Int}
    (hpos : rect.start style.axis ≤ pos)
    (hfar : pos + List.sum ((items.filter (·.node.isLive)).map
      (·.measured.along style.axis + gap)) ≤ rect.far style.axis + gap)
    (hplace : ∀ (i : Nat) (item : Item Node) (slot : Rect), items[i]? = some item →
      item.node.isLive = true →
      (style.pack rect gap pos (measuredSizes items)).toList[i]? = some (some slot) →
      slot.size = item.measured → slot.IsInside rect →
      Outcome (overflowIf p)
        (fun placed => placed.node.bounds = slot ∧ placed.node.AllReached IsTidy)
        (item.node.place slot))
    (hend : Extent.inf < pos + List.sum ((items.filter (·.node.isLive)).map
      (·.measured.along style.axis + gap)) → p) :
    Outcome (overflowIf p)
      (fun placed => IsRow rect style.axis pos (List.zipWith Placed.settle items placed))
      (placeItems items (style.pack rect gap pos (measuredSizes items))) := by
  obtain ⟨hstart, hextent, hinf⟩ := hr style.axis
  induction items generalizing pos with
  | nil => exact .ok .nil
  | cons item rest ih =>
    obtain ⟨hitem, hrest⟩ := List.forall_mem_cons.1 hs
    rw [List.filter_cons] at hfar hend
    rw [measuredSizes_cons] at hplace ⊢
    by_cases hl : item.node.isLive = true
    · rw [if_pos hl, List.map_cons, List.sum_cons] at hfar hend
      rw [if_pos hl] at hplace ⊢
      obtain ⟨⟨hn, hcross, -⟩, hroom⟩ := hitem hl
      have hlen := hn style.axis
      have hsum : 0 ≤ List.sum ((rest.filter (·.node.isLive)).map
          (·.measured.along style.axis + gap)) :=
        List.sum_nonneg (forall_mem_map_filter.2 fun item hm hl => by
          have := (hrest item hm hl).1.nonneg style.axis
          omega)
      have hword : Extent.inf = 2147483647 := rfl
      have hedge : rect.far style.axis = rect.start style.axis + rect.extent style.axis := rfl
      obtain ⟨slot, hslot, hsize, hinside, hat⟩ := StackStyle.slot_isOk hr hn hcross hpos
        (by omega)
      have hstop : slot.far style.axis = pos + item.measured.along style.axis := by
        rw [Rect.far, hat, Rect.extent, hsize]
      have hlength : Extent.add (item.measured.along style.axis) gap = .ok _ :=
        Extent.IsLength.checked_eq ⟨by omega, by omega⟩
      rw [StackStyle.pack, hslot, Slots.after_ok] at hplace ⊢
      rw [placeItems]
      refine (hplace 0 item slot rfl hl rfl hsize hinside).bind ?_
      rintro found ⟨rfl, htidy⟩
      -- the position after the last child is computed too, and is the only one that may be too far
      by_cases hnext : pos + (item.measured.along style.axis + gap) ≤ Extent.inf
      · have hadd : Extent.add pos (item.measured.along style.axis + gap) = .ok _ :=
          Extent.IsLength.checked_eq ⟨by omega, hnext⟩
        rw [bind_eq_ok_iff.2 ⟨_, hlength, hadd⟩, Slots.after_ok] at hplace ⊢
        refine (ih hrest (by omega) (by omega)
          (fun i item slot hi => hplace (i + 1) item slot hi) fun h => hend (by omega)).bind ?_
        intro placed hrow
        refine .ok ?_
        rw [List.zipWith_cons_cons]
        exact .next hinside htidy (Int.le_of_eq hat.symm) (hstop.trans_le (by omega)) (by omega)
          hrow
      · have hadd : Extent.add pos (item.measured.along style.axis + gap) = .error .overflow :=
          Extent.checked_eq_error_iff.2 ⟨fun h => hnext h.2, rfl⟩
        have hfault : (do Extent.add pos (← Extent.add (item.measured.along style.axis) gap)) =
            .error .overflow := by
          rw [hlength]
          exact hadd
        rw [hfault, Slots.after_error, placeItems]
        exact .overflow (hend (by omega))
    · rw [if_neg hl] at hfar hend hplace ⊢
      rw [StackStyle.pack, placeItems]
      refine (ih hrest hpos hfar (fun i item slot hi => hplace (i + 1) item slot hi) hend).bind ?_
      intro placed hrow
      refine .ok ?_
      rw [List.zipWith_cons_cons]
      exact .skip (Bool.eq_false_iff.2 hl) hrow

theorem countP_measuredSizes (items : List (Item Node)) :
    (measuredSizes items).countP Option.isSome = liveCount items := by
  rw [measuredSizes, List.countP_map, liveCount]
  refine List.countP_congr fun item _ => ?_
  by_cases hl : item.node.isLive = true <;> simp [hl]

theorem zipWith_settle_none (items : List (Item Node)) :
    List.zipWith Placed.settle items (items.map fun _ => none) = items := by
  rw [List.zipWith_map_right, List.zipWith_self]
  exact List.map_id' items

theorem Arranges.stack {frame : Frame} {style : StackStyle} {totals : StackTotals}
    {items : List (Item Node)} {size : Size} (hs : style.isHomogeneous = false)
    (hmain : List.sum ((items.filter (·.node.isLive)).map (·.measured.along style.axis)) =
      totals.extent) (hle : totals.extent ≤ size.along style.axis)
    (hn : ∀ item ∈ items, item.node.isLive = true → item.measured.IsNonneg)
    (hcross : ∀ item ∈ items, item.node.isLive = true →
      item.measured.along style.axis.flip ≤ size.along style.axis.flip ∧
      (style.align = .stretch →
        item.measured.along style.axis.flip = size.along style.axis.flip))
    (hc : ∀ item ∈ items, item.node.isLive = true → item.node.Arranges item.measured) :
    (Node.stack frame style totals items).Arranges size := by
  rintro rect rfl hproper
  suffices hplaced : Outcome
      (overflowIf ((Node.stack frame style totals items).Overruns rect ∧ ¬ rect.IsClose))
      (fun placed => ∃ pos, IsRow rect style.axis pos (List.zipWith Placed.settle items placed))
      (placeItems items (style.slots rect totals (measuredSizes items))) by
    rw [place]
    refine Outcome.map (hplaced.bind ?_) fun _ => id
    rintro placed ⟨pos, hrow⟩
    exact .ok ⟨rfl, hrow.allReached_isTidy, by rw [isLive_stack, isLive_stack]⟩
  by_cases hcount : liveCount items = 0
  · rw [StackStyle.slots, countP_measuredSizes, if_pos hcount, placeItems_done]
    refine .ok ⟨0, ?_⟩
    rw [zipWith_settle_none]
    exact .of_forall_not_live (List.countP_eq_zero.1 hcount)
  · have hlen : ∀ v ∈ (items.filter (·.node.isLive)).map (·.measured.along style.axis), 0 ≤ v :=
      forall_mem_map_filter.2 fun item hm hl => hn item hm hl _
    have htotal : 0 ≤ totals.extent := hmain ▸ List.sum_nonneg hlen
    obtain ⟨⟨lead, gap⟩, hspacing, ⟨hlead, hgap, hgaple, hfits⟩, hends⟩ :=
      style.spacing_isOk hproper htotal hle (liveCount items)
    simp only [Spacing.EndsIn] at hlead hgap hgaple hfits hends
    obtain ⟨hstart, hextent, hinf⟩ := hproper style.axis
    have hword : Extent.inf = 2147483647 := rfl
    have hedge : rect.far style.axis = rect.start style.axis + rect.extent style.axis := rfl
    have hall : gap ≤ (liveCount items : Int) * gap := le_mul_of_one_le_left hgap (by omega)
    have hfirst : Extent.add (rect.start style.axis) lead = .ok _ :=
      Extent.IsLength.checked_eq ⟨by omega, by omega⟩
    have hsum := Extent.sum_map_add (fun item : Item Node => item.measured.along style.axis) gap
      (items.filter (·.node.isLive))
    rw [← List.countP_eq_length_filter, ← liveCount, hmain] at hsum
    have hslots : style.slots rect totals (measuredSizes items) =
        style.pack rect gap (rect.start style.axis + lead) (measuredSizes items) := by
      rw [StackStyle.slots, countP_measuredSizes, if_neg hcount, hs, if_neg Bool.false_ne_true,
        hspacing, Slots.after_ok, hfirst, Slots.after_ok]
    rw [hslots]
    refine (placeItems_pack hproper hgap (fun item hm hl => ?_) (by omega) (by omega)
      (fun i item slot hi hl hslot hsize hinside => ?_) fun hend => ?_).mono (fun _ => id)
        fun _ h => ⟨_, h⟩
    · refine ⟨⟨hn item hm hl, hcross item hm hl, hc item hm hl⟩, ?_⟩
      have := hmain ▸ List.single_le_sum hlen _
        (List.mem_map_of_mem (List.mem_filter.2 ⟨hm, hl⟩))
      omega
    · have hm := List.mem_of_getElem? hi
      refine (Hands.place (.stack hi hl (hslots ▸ hslot)) (hsize ▸ hc item hm hl) hproper hinside
        (hsize ▸ hn item hm hl)).mono (fun _ => id) fun _ h => ⟨h.1, h.2.1⟩
    · rcases hends with hends | ⟨hjustify, htwo⟩
      · omega
      · refine ⟨.here hjustify htwo hspacing hend, fun hclose => ?_⟩
        have := (hclose style.axis).2.2
        omega

end Node

end BoxLayout
