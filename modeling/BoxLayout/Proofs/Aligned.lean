import BoxLayout.Proofs.Anchors
import BoxLayout.Proofs.Arrange

/-!
# Where an alignment puts its child

An alignment keeps the size that its child answered when it was last measured, and places the child
at that size, be it smaller or larger than the box. Between the start and the end of the box the
child moves evenly with the anchor, on each axis by itself (`Node.place_interpolates`).
-/

namespace BoxLayout

namespace Alignment

variable {alignment : Alignment} {bounds slot : Rect} {child : Size} {axis : Axis}

theorem start_of_slot (h : alignment.slot bounds child = .ok slot) (he : 0 ≤ bounds.extent axis)
    (hf : bounds.extent axis < Extent.inf) (hc : Extent.IsLength (child.along axis)) :
    slot.start axis = bounds.start axis +
      (alignment.anchor axis).lead (bounds.extent axis - child.along axis) := by
  obtain ⟨offset, ho, -, hstart⟩ := position_eq_ok_iff.1 ((slot_eq_ok_iff.1 h).2 axis)
  obtain rfl := Except.ok.inj (ho.symm.trans (Anchor.offset_eq_lead _ he hf hc))
  exact hstart

end Alignment

namespace Node

variable {frame : Frame} {alignment : Alignment} {measured : Size} {child : Node}

/-- The size that an alignment keeps is the last answer of its child. -/
theorem last_of_measure_align {given : Constraints} {m : Measured}
    (h : (align frame alignment measured child).measure given = .ok m) :
    ∃ call found, m.visit.last? [0] = some call ∧
      m.node = align frame alignment call.answer found := by
  obtain ⟨found, -, -, hnode, hcalls⟩ := run_align h
  refine ⟨found.visit.event, found.node, ?_, hnode⟩
  rw [Visit.last?_cons, hcalls, Visit.lastOf_singleton, Visit.last?_nil]

/-- An alignment keeps the size that its child was last measured at, and gives the child that size
when it is placed. On an axis on which that size is a length and the box has a finite extent, the
child starts the offset of the anchor past the start of the box, which is the anchor's part of the
difference rounded towards zero: nothing of it for the start and all of it for the end, more of it
the later the anchor, and but for a pixel the whole of it for opposite anchors together. So a child
that fits lies inside the box. -/
theorem place_interpolates :
    (∀ given m, (align frame alignment measured child).measure given = .ok m →
      ∃ call found, m.visit.last? [0] = some call ∧
        m.node = align frame alignment call.answer found) ∧
    ∀ bounds p, (align frame alignment measured child).place bounds = .ok p →
      ∃ placed, p.node = align { frame with bounds } alignment measured placed ∧
        ∀ axis, Extent.IsLength (measured.along axis) →
          0 ≤ bounds.extent axis → bounds.extent axis < Extent.inf →
          ∃ offset : Anchor → Int,
            (∀ a, a.offset (bounds.extent axis) (measured.along axis) = .ok (offset a) ∧
              offset a = ((bounds.extent axis - measured.along axis) * a.value).tdiv 100) ∧
            placed.bounds.extent axis = measured.along axis ∧
            placed.bounds.start axis = bounds.start axis + offset (alignment.anchor axis) ∧
            (alignment.anchor axis = .start → placed.bounds.start axis = bounds.start axis) ∧
            (alignment.anchor axis = .stop → placed.bounds.far axis = bounds.far axis) ∧
            (∀ a b, a.value ≤ b.value →
              (measured.along axis ≤ bounds.extent axis → offset a ≤ offset b) ∧
              (bounds.extent axis ≤ measured.along axis → offset b ≤ offset a)) ∧
            (∀ a, (offset a + offset a.opposite -
              (bounds.extent axis - measured.along axis)).natAbs ≤ 1) ∧
            (measured.along axis ≤ bounds.extent axis →
              bounds.start axis ≤ placed.bounds.start axis ∧
                placed.bounds.far axis ≤ bounds.far axis) := by
  refine ⟨fun given m hm => last_of_measure_align hm, fun bounds p hp => ?_⟩
  obtain ⟨slot, placed, hs, hplaced, hnode⟩ := place_align hp
  refine ⟨placed.node, hnode, fun axis hc he hf => ?_⟩
  have hextent : placed.node.bounds.extent axis = measured.along axis := by
    rw [bounds_of_place hplaced, Rect.extent, Alignment.size_of_slot hs]
  have hstart : placed.node.bounds.start axis = bounds.start axis +
      (alignment.anchor axis).lead (bounds.extent axis - measured.along axis) := by
    rw [bounds_of_place hplaced, Alignment.start_of_slot hs he hf hc]
  refine ⟨fun a => a.lead (bounds.extent axis - measured.along axis),
    fun a => ⟨a.offset_eq_lead he hf hc, rfl⟩, hextent, hstart, ?start, ?stop, ?steps,
    fun a => a.lead_add_opposite _, ?inside⟩
  case start =>
    intro ha
    rw [hstart, ha, Anchor.lead_start, Int.add_zero]
  case stop =>
    intro ha
    rw [Rect.far, hstart, hextent, ha, Anchor.lead_stop, Rect.far]
    omega
  case steps =>
    intro a b hv
    exact ⟨fun hle => Anchor.lead_mono (Int.sub_nonneg_of_le hle) hv,
      fun hle => Anchor.lead_antitone (Int.sub_nonpos_of_le hle) hv⟩
  case inside =>
    intro hle
    obtain ⟨hlow, hhigh⟩ := (alignment.anchor axis).lead_bounds (Int.sub_nonneg_of_le hle)
    rw [Rect.far, hstart, hextent, Rect.far]
    exact ⟨by omega, by omega⟩

/-- A canvas that fits its box across, but is higher than it: of 81 pixels a quarter is left before
it, and of the 20 pixels by which it sticks out a third lies above. -/
theorem place_interpolates_canvas :
    let alignment : Alignment := { horizontal := ⟨25, by decide⟩, vertical := ⟨33, by decide⟩ }
    let root := alignChild alignment (ofLeaf (.canvas ⟨20, 70⟩ .visible none))
    let box : Rect := ⟨⟨7, 9⟩, ⟨101, 50⟩⟩
    ∃ m p placed call, root.measure (.upTo ⟨101, 100⟩) = .ok m ∧
      m.visit.last? [0] = some call ∧ call.answer = ⟨20, 70⟩ ∧ m.node.place box = .ok p ∧
      p.node = align { bounds := box } alignment call.answer placed ∧
      placed.bounds.start .horizontal = 27 ∧ placed.bounds.extent .horizontal = 20 ∧
      placed.bounds.start .vertical = 3 ∧ placed.bounds.extent .vertical = 70 := by
  intro alignment root box
  obtain ⟨m, hm, hrest⟩ := map_eq_ok_iff.1 (by decide +kernel : (fun m : Measured =>
      ((m.visit.last? [0]).map (·.answer), (m.node.place box).toOption.isSome)) <$>
    root.measure (.upTo ⟨101, 100⟩) = .ok (some ⟨20, 70⟩, true))
  simp only [Prod.mk.injEq, Option.map_eq_some_iff] at hrest
  obtain ⟨⟨call, hcall, hanswer⟩, hplaced⟩ := hrest
  obtain ⟨call', found, hcall', hnode⟩ := place_interpolates.1 _ _ hm
  obtain rfl := Option.some.inj (hcall.symm.trans hcall')
  cases hp : m.node.place box with
  | error fault => rw [hp] at hplaced; cases hplaced
  | ok p =>
    obtain ⟨placed, hnode', haxis⟩ := place_interpolates.2 box p (hnode ▸ hp)
    rw [hanswer] at haxis
    obtain ⟨o, ho, hwidth, hx, -⟩ := haxis .horizontal (by decide) (by decide) (by decide)
    obtain ⟨o', ho', hheight, hy, -⟩ := haxis .vertical (by decide) (by decide) (by decide)
    rw [(ho _).2] at hx
    rw [(ho' _).2] at hy
    exact ⟨m, p, placed, call, hm, hcall, hanswer, hp, hnode', hx.trans (by decide), hwidth,
      hy.trans (by decide), hheight⟩

end Node

end BoxLayout
