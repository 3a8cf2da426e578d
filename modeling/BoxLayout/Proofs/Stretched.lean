import BoxLayout.Proofs.Asked
import BoxLayout.Proofs.Extents

/-!
# How far stretched children stretch

Where its own constraints leave the extent across its axis open, a stack with stretched children
asks itself for its least extent there, and every child is then measured at the answer
(`Node.measure_stretched`). It asks on the assumption that its axis is unbounded too. A homogeneous
stack whose axis is bounded measures its children at a slice of the bound, so that a child that gets
higher as it gets narrower is held to less than it needs there
(`Node.row_stretches_too_little`).
-/

namespace BoxLayout

namespace Node

variable {frame : Frame} {style : StackStyle} {totals : StackTotals} {items : List (Item Node)}
  {given : Constraints} {m : Measured}

/-- Only a homogeneous stack asks its children differently when it has a bound to cut. -/
theorem minExtent_flip_eq {main : Int} (h : style.isHomogeneous = false ∨ main = Extent.inf) :
    (stack frame style totals items).minExtent style.axis.flip main =
      (stack frame style totals items).minExtent style.axis.flip Extent.inf := by
  rcases h with h | rfl
  · have hslice (main : Int) : style.slice main (liveCount items) = .ok Extent.inf :=
      if_neg (by simp [h])
    simp only [minExtent, if_neg style.axis.flip_ne, hslice]
  · rfl

theorem minExtent_flip_of_empty (h : liveCount items = 0) :
    (stack frame style totals items).minExtent style.axis.flip Extent.inf = .ok 0 := by
  have hextents : itemExtents style.axis.flip Extent.inf items = .ok [] := by
    rw [itemExtents_eq, List.filter_eq_nil_iff.2 (List.countP_eq_zero.1 h)]
    rfl
  have hslice : style.slice Extent.inf (liveCount items) = .ok Extent.inf := by
    unfold StackStyle.slice
    split
    · exact Extent.scale_inf ..
    · rfl
  rw [minExtent, if_neg style.axis.flip_ne, hslice]
  exact bind_eq_ok_iff.2 ⟨_, rfl, bind_eq_ok_iff.2 ⟨_, hextents, rfl⟩⟩

/-- The stack asked itself how far to stretch its children. -/
theorem breadth_eq (hs : style.align = .stretch)
    (hb : (given.along style.axis.flip).hi = Extent.inf) :
    (stack frame style totals items).breadth style given =
      (stack frame style totals items).minExtent style.axis.flip Extent.inf := by
  rw [breadth, if_pos (by simp [StackStyle.needsBreadth, Limits.isBounded, hs, hb])]

/-- A child is held to what is offered across the axis, the second time as the first. -/
theorem along_flip_of_mem_calls {run : Sharing}
    (hr : run.IsRun (stack frame style totals items) style items given)
    {call : Nat × Visit Measuring}
    (hc : call ∈ Measured.calls (pick (·.node.isLive) run.once items) ++
      Measured.calls (pick run.shares run.again items)) :
    call.2.event.given.along style.axis.flip = run.offer.along style.axis.flip := by
  obtain ⟨i, visit⟩ := call
  rw [List.mem_append, Measured.mem_calls_pick_iff, Measured.mem_calls_pick_iff] at hc
  rcases hc with ⟨item, hi, hl, rfl⟩ | ⟨item, hi, hq, rfl⟩
  · rw [event_of_measure (hr.once item (List.mem_of_getElem? hi) hl)]
  · rw [event_of_measure (hr.again item (List.mem_of_getElem? hi) hq)]
    exact hr.along_flip_enlarged (List.mem_of_getElem? hi) hq

/-- With stretched children and no bound across its axis, a stack is as large there as its own least
extent on an unbounded axis, if its lower limit is not above that. All of its children are measured
at that extent. It is the least extent at the bound of the axis if there is none, or if the stack
does not cut it into slices. -/
theorem measure_stretched (hs : style.align = .stretch)
    (hb : (given.along style.axis.flip).hi = Extent.inf)
    (hx : (stack frame style totals items).AllReached HasExtents)
    (h : (stack frame style totals items).measure given = .ok m) :
    ∃ least, (stack frame style totals items).minExtent style.axis.flip Extent.inf = .ok least ∧
      m.size.along style.axis.flip = max (given.along style.axis.flip).lo least ∧
      (∀ call ∈ m.visit.calls, call.2.event.given.along style.axis.flip =
        .exactly (m.size.along style.axis.flip)) ∧
      (style.isHomogeneous = false ∨ (given.along style.axis).hi = Extent.inf →
        (stack frame style totals items).minExtent style.axis.flip (given.along style.axis).hi =
          .ok least) := by
  have hn := isNormalized_of_measure h
  have hlo := Limits.isLength_lo (Constraints.isNormalized_iff.1 hn style.axis.flip)
  rcases Classical.em (liveCount items = 0) with hcount | hcount
  · have hleast : (stack frame style totals items).minExtent style.axis.flip Extent.inf = .ok 0 :=
      minExtent_flip_of_empty hcount
    obtain ⟨ha, -, hcalls⟩ := run_stack_empty h hcount
    refine ⟨0, hleast, ?_, by simp [hcalls], fun hc => (minExtent_flip_eq hc).trans hleast⟩
    rw [Constraints.along_of_constrain ha, Limits.nearest, hb]
    cases style.axis <;> rfl
  · obtain ⟨run, hr, ha, -, hcalls⟩ := run_stack h hcount
    have hleast := (breadth_eq hs hb).symm.trans hr.breadth
    have hrange := inRange_of_minExtent hx (by decide) hleast
    have hoffer := (hr.offer_spec hn hcount).2
    rw [StackStyle.across, if_pos hs, Limits.nearest, hb,
      Int.min_eq_left hrange.2] at hoffer
    have hsize : m.size.along style.axis.flip =
        max (given.along style.axis.flip).lo run.breadth := by
      rw [Constraints.along_of_constrain ha, Size.along_flip_ofAxis, Sharing.breadthOf, if_pos hs,
        hoffer, Limits.nearest, hb]
      have := hlo.2
      have := hrange.2
      simp only [Limits.exactly]
      omega
    refine ⟨run.breadth, hleast, hsize, fun call hc => ?_,
      fun hc => (minExtent_flip_eq hc).trans hleast⟩
    rw [along_flip_of_mem_calls hr (hcalls ▸ hc), hoffer, hsize]

/-- A row that is 90 wide asks a text for one line, which its other child does not need. -/
theorem measure_stretched_row :
    let row := stackOf { axis := .horizontal, align := .stretch }
      [(ofLeaf (.text "aaaa bbbb" .visible default), 0), (ofLeaf (.canvas ⟨1, 1⟩ .visible none), 0)]
    ∃ m, row.measure (.upTo ⟨90, Extent.inf⟩) = .ok m ∧ m.size.height = 16 ∧
      row.minExtent .vertical 90 = .ok 16 := by
  intro row
  obtain ⟨m, hm, hheight⟩ : ∃ m, row.measure (.upTo ⟨90, Extent.inf⟩) = .ok m ∧
      m.size.height = 16 :=
    map_eq_ok_iff.1 (by decide +kernel :
      (·.size.height) <$> row.measure (.upTo ⟨90, Extent.inf⟩) = .ok 16)
  obtain ⟨least, -, hsize, -, hbound⟩ := measure_stretched rfl rfl (by decide +kernel) hm
  have hleast : max 0 least = 16 := hsize.symm.trans hheight
  obtain rfl : least = 16 := by omega
  exact ⟨m, hm, hheight, hbound (.inl rfl)⟩

/-- In slices of 45 the text takes two lines, but the children are held to the height of one. -/
theorem row_stretches_too_little :
    let row := stackOf { axis := .horizontal, justify := .homogeneous, align := .stretch }
      [(ofLeaf (.text "aaaa bbbb" .visible default), 0), (ofLeaf (.canvas ⟨1, 1⟩ .visible none), 0)]
    (∃ m, row.measure (.upTo ⟨90, Extent.inf⟩) = .ok m ∧ m.size = ⟨90, 16⟩) ∧
      row.minExtent .vertical 90 = .ok 32 := by
  intro row
  exact ⟨map_eq_ok_iff.1 (by decide +kernel :
    (·.size) <$> row.measure (.upTo ⟨90, Extent.inf⟩) = .ok ⟨90, 16⟩), by decide +kernel⟩

end Node

end BoxLayout
