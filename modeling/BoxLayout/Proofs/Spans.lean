import BoxLayout.Proofs.Arrange
import BoxLayout.Proofs.Sharing

/-!
# Stretches of the axis

Where the children of a placed stack lie along its axis (`Node.spans`). A stack that packs its
children gives them a row of stretches with the same gap between all neighbours (`Span.row`,
`Node.spans_of_pack`), and a stack that is cut gives them slices in order (`Node.spans_of_cut`).
-/

namespace BoxLayout

namespace Span

/-- Where the stretch ends, as an exact number. -/
def stop (span : Span) : Int := span.start + span.length

/-- Stretches of the given lengths from `pos` on, with the same gap between neighbours. -/
def row (gap pos : Int) : List Int → List Span
  | [] => []
  | length :: rest => ⟨pos, length⟩ :: row gap (pos + length + gap) rest

section Row

variable {gap pos : Int} {lengths : List Int}

/-- A row lies between its start and its end, which is that of the last stretch. -/
theorem bounds_of_mem_row (hg : 0 ≤ gap) (hn : ∀ v ∈ lengths, 0 ≤ v) {span : Span}
    (h : span ∈ row gap pos lengths) :
    pos ≤ span.start ∧ span.stop + gap ≤ pos + lengths.sum + lengths.length * gap := by
  induction lengths generalizing pos with
  | nil => cases h
  | cons length rest ih =>
    obtain ⟨hlength, hrest⟩ := List.forall_mem_cons.1 hn
    have hsum := List.sum_nonneg hrest
    have hgaps : 0 ≤ (rest.length : Int) * gap := Int.mul_nonneg (by omega) hg
    rw [List.sum_cons, List.length_cons, Int.natCast_add, Int.add_mul]
    rcases List.mem_cons.1 h with rfl | h
    · simp only [stop]
      omega
    · have := ih hrest h
      omega

theorem getLast?_row (h : lengths ≠ []) : ∃ last, (row gap pos lengths).getLast? = some last ∧
    last.stop + gap = pos + lengths.sum + lengths.length * gap := by
  induction lengths generalizing pos with
  | nil => exact absurd rfl h
  | cons length rest ih =>
    cases rest with
    | nil => exact ⟨⟨pos, length⟩, rfl, by simp [stop]⟩
    | cons next rest =>
      obtain ⟨last, hlast, hstop⟩ := @ih (pos + length + gap) (List.cons_ne_nil _ _)
      refine ⟨last, (List.getLast?_cons_cons ..).trans hlast, ?_⟩
      rw [hstop]
      simp only [List.sum_cons, List.length_cons, Int.natCast_add, Int.add_mul]
      omega

/-- No two stretches of a row overlap. -/
theorem pairwise_row (hg : 0 ≤ gap) (hn : ∀ v ∈ lengths, 0 ≤ v) :
    (row gap pos lengths).Pairwise fun a b => a.stop ≤ b.start := by
  induction lengths generalizing pos with
  | nil => exact .nil
  | cons length rest ih =>
    obtain ⟨-, hrest⟩ := List.forall_mem_cons.1 hn
    refine .cons (fun span hs => ?_) (ih hrest)
    have := (bounds_of_mem_row hg hrest hs).1
    simp only [stop]
    omega

end Row

end Span

/-- The stretch that the box takes up on one axis. -/
def Rect.span (rect : Rect) (axis : Axis) : Span := ⟨rect.start axis, rect.extent axis⟩

namespace StackStyle

variable {style : StackStyle} {bounds slot : Rect} {main : Span} {size : Size}

theorem span_of_slot (h : style.slot bounds main size = .ok slot) :
    slot.span style.axis = main := by
  obtain ⟨cross, -, h⟩ := bind_eq_ok_iff.1 h
  cases h
  rw [Rect.span, Rect.start_ofAxis, Rect.extent_ofAxis]

end StackStyle

namespace Node

/-- The stretches of `axis` that the children of a stack take up. -/
def spans (axis : Axis) (node : Node) : List Span :=
  node.liveItems.map (·.node.bounds.span axis)

section Placed

variable {style : StackStyle} {bounds slot : Rect} {axis : Axis} {item : Item Node}
  {rest : List (Item Node)} {found : Placed} {others : List (Option Placed)}

/-- The stretches of children after they were placed. -/
def placedSpans (axis : Axis) (items : List (Item Node)) (placed : List (Option Placed)) :
    List Span :=
  ((List.zipWith Placed.settle items placed).filter (·.node.isLive)).map
    (·.node.bounds.span axis)

theorem placedSpans_none (hl : ¬ item.node.isLive = true) :
    placedSpans axis (item :: rest) (none :: others) = placedSpans axis rest others := by
  have hl : ¬ (Placed.settle item none).node.isLive = true := hl
  rw [placedSpans, List.zipWith_cons_cons, List.filter_cons, if_neg hl, placedSpans]

theorem placedSpans_some (hl : item.node.isLive = true) (hf : item.node.place slot = .ok found) :
    placedSpans axis (item :: rest) (some found :: others) =
      slot.span axis :: placedSpans axis rest others := by
  have hl : (Placed.settle item (some found)).node.isLive = true := (isLive_of_place hf).trans hl
  rw [placedSpans, List.zipWith_cons_cons, List.filter_cons, if_pos hl, List.map_cons,
    ← placedSpans]
  exact congrArg (·.span axis :: _) (bounds_of_place hf)

/-- Packing gives the children a row of stretches of the extents that they were measured at. -/
theorem spans_of_pack {gap pos : Int} {items : List (Item Node)} {placed : List (Option Placed)}
    (h : placeItems items (style.pack bounds gap pos (measuredSizes items)) = .ok placed) :
    placedSpans style.axis items placed =
      Span.row gap pos ((items.filter (·.node.isLive)).map (·.measured.along style.axis)) := by
  induction items generalizing pos placed with
  | nil => rfl
  | cons item rest ih =>
    rw [measuredSizes_cons] at h
    by_cases hl : item.node.isLive = true
    · rw [if_pos hl, StackStyle.pack] at h
      obtain ⟨slot, hslot, h⟩ := exists_of_placeItems_after h
      obtain ⟨found, others, hf, hrest, rfl⟩ := placeItems_some_eq_ok_iff.1 h
      obtain ⟨next, hnext, hrest⟩ := exists_of_placeItems_after hrest
      obtain ⟨length, hlength, hnext⟩ := bind_eq_ok_iff.1 hnext
      obtain ⟨-, rfl⟩ := Extent.add_eq_ok_iff.1 hlength
      obtain ⟨-, rfl⟩ := Extent.add_eq_ok_iff.1 hnext
      rw [placedSpans_some hl hf, StackStyle.span_of_slot hslot, ih hrest,
        List.filter_cons, if_pos hl, List.map_cons, Span.row, Int.add_assoc]
    · rw [if_neg hl, StackStyle.pack] at h
      obtain ⟨others, hrest, rfl⟩ := placeItems_none_eq_ok_iff.1 h
      rw [placedSpans_none hl, ih hrest, List.filter_cons, if_neg hl]

/-- Cutting gives the children slices in order. -/
theorem spans_of_cut {count index : Nat} {items : List (Item Node)}
    {placed : List (Option Placed)}
    (h : placeItems items (style.cut bounds count index (measuredSizes items)) = .ok placed)
    {slice : Nat → Span} (hslice : ∀ i span, index ≤ i → i < index + liveCount items →
      style.sliceSpan bounds count i = .ok span → span = slice i) :
    placedSpans style.axis items placed =
      (List.range' index (liveCount items)).map slice := by
  induction items generalizing index placed with
  | nil => rfl
  | cons item rest ih =>
    rw [measuredSizes_cons] at h
    by_cases hl : item.node.isLive = true
    · have hcount : liveCount (item :: rest) = liveCount rest + 1 := List.countP_cons_of_pos hl
      rw [hcount] at hslice ⊢
      rw [if_pos hl, StackStyle.cut] at h
      obtain ⟨slot, hslot, h⟩ := exists_of_placeItems_after h
      obtain ⟨found, others, hf, hrest, rfl⟩ := placeItems_some_eq_ok_iff.1 h
      obtain ⟨span, hspan, hslot⟩ := bind_eq_ok_iff.1 hslot
      rw [placedSpans_some hl hf, StackStyle.span_of_slot hslot,
        hslice index span (Nat.le_refl _) (by omega) hspan, List.range'_succ, List.map_cons]
      exact congrArg _ (ih hrest fun i span h₀ h₁ hs => hslice i span (by omega) (by omega) hs)
    · have hcount : liveCount (item :: rest) = liveCount rest := List.countP_cons_of_neg hl
      rw [hcount] at hslice ⊢
      rw [if_neg hl, StackStyle.cut] at h
      obtain ⟨others, hrest, rfl⟩ := placeItems_none_eq_ok_iff.1 h
      rw [placedSpans_none hl, ih hrest hslice]

end Placed

end Node

end BoxLayout
