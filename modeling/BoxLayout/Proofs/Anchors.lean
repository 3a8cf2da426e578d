import BoxLayout.Proofs.Lengths

/-!
# Where anchors put a span

An anchor leaves a hundredth part of the room in front of a span for each unit of its scale, rounded
towards zero (`Anchor.lead`, `Anchor.offset_eq_lead`). There is no room, or less than none, for a
span that is larger than its box; both cases are the same up to sign (`Anchor.lead_neg`), so that
the laws are proved for a room that is not negative and carried over.

* `lead_bounds`: a span that fits stays in its box.
* `lead_mono`, `lead_antitone`: a later anchor puts a span that fits further on, and one that does
  not fit further back.
* `lead_add_opposite`: rounding makes opposite anchors lose one pixel between them at the most.
-/

namespace BoxLayout

namespace Anchor

variable {anchor a b : Anchor} {room : Int}

/-- The anchor as far from the end as the given one is from the start. -/
def opposite (anchor : Anchor) : Anchor := ⟨100 - anchor.value, Nat.sub_le ..⟩

theorem value_add_opposite (anchor : Anchor) :
    (anchor.value : Int) + anchor.opposite.value = 100 := by
  have hv := anchor.value_le
  simp only [opposite]
  omega

/-- How much of the room is in front of the span, rounded towards zero. -/
def lead (anchor : Anchor) (room : Int) : Int := (room * anchor.value).tdiv 100

/-- A finite extent less a length is never mistaken for an unbounded one. -/
theorem offset_eq_lead (anchor : Anchor) {extent child : Int} (he : 0 ≤ extent)
    (hf : extent < Extent.inf) (hc : Extent.IsLength child) :
    anchor.offset extent child = .ok (anchor.lead (extent - child)) := by
  obtain ⟨hc₀, hc₁⟩ := hc
  have hinf : Extent.inf = 2147483647 := rfl
  have hleast : Extent.least = -2147483648 := rfl
  exact offset_eq ⟨by omega, by omega⟩ (by omega)

theorem lead_neg (anchor : Anchor) (room : Int) : anchor.lead (-room) = -anchor.lead room := by
  rw [lead, Int.neg_mul, Int.neg_tdiv, lead]

theorem lead_of_nonneg (h : 0 ≤ room) : anchor.lead room = room * anchor.value / 100 :=
  Int.tdiv_eq_ediv_of_nonneg (Int.mul_nonneg h (Int.natCast_nonneg _))

@[simp] theorem lead_start (room : Int) : start.lead room = 0 := by simp [lead, start]

@[simp] theorem lead_stop (room : Int) : stop.lead room = room :=
  Int.mul_tdiv_cancel room (by decide)

theorem lead_bounds (anchor : Anchor) (h : 0 ≤ room) :
    0 ≤ anchor.lead room ∧ anchor.lead room ≤ room := by
  have hv := anchor.value_le
  rw [lead_of_nonneg h]
  exact Extent.part_bounds h (by omega) (by omega) (by decide)

theorem lead_mono (h : 0 ≤ room) (hv : a.value ≤ b.value) : a.lead room ≤ b.lead room := by
  rw [lead_of_nonneg h, lead_of_nonneg h]
  exact Int.ediv_le_ediv (by decide) (Int.mul_le_mul_of_nonneg_left (Int.ofNat_le.2 hv) h)

theorem lead_antitone (h : room ≤ 0) (hv : a.value ≤ b.value) : b.lead room ≤ a.lead room := by
  have hmono := lead_mono (Int.neg_nonneg_of_nonpos h) hv
  rw [lead_neg, lead_neg] at hmono
  exact Int.neg_le_neg_iff.1 hmono

/-- Two parts of the room that are rounded down make up all of it but for a pixel. -/
theorem lead_add_opposite_of_nonneg (anchor : Anchor) (h : 0 ≤ room) :
    room - 1 ≤ anchor.lead room + anchor.opposite.lead room ∧
      anchor.lead room + anchor.opposite.lead room ≤ room := by
  have hwhole : room * anchor.value + room * anchor.opposite.value = room * 100 := by
    rw [← Int.mul_add, value_add_opposite]
  rw [lead_of_nonneg h, lead_of_nonneg h]
  omega

theorem lead_add_opposite (anchor : Anchor) (room : Int) :
    (anchor.lead room + anchor.opposite.lead room - room).natAbs ≤ 1 := by
  rcases Int.le_total 0 room with h | h
  · have := anchor.lead_add_opposite_of_nonneg h
    omega
  · have := anchor.lead_add_opposite_of_nonneg (Int.neg_nonneg_of_nonpos h)
    rw [lead_neg, lead_neg] at this
    omega

end Anchor

end BoxLayout
