import BoxLayout.Proofs.Repeats
import BoxLayout.Proofs.Sharing

/-!
# Shares of the room

Each child of a stack that is not cut into slices ends up with what it chose in the first round and
with the part of the room that is due to its weight, rounded down. So of the room there is less than
one pixel lost for each child that has a weight, and the stack never grows beyond the limit up to
which room is counted (`Node.measure_shares`).
-/

namespace BoxLayout

namespace Node

/-- The calls of the first round, in which a stack measures each child that takes part. -/
def firstRound (node : Node) (m : Measured) : List (Nat × Visit Measuring) :=
  m.visit.calls.take node.liveItems.length

/-- The extents along `axis` that the children of a stack chose in the first round. -/
def chosen (node : Node) (axis : Axis) (m : Measured) : List Int :=
  (node.firstRound m).map fun call => call.2.event.answer.along axis

variable {frame : Frame} {style : StackStyle} {totals : StackTotals} {items : List (Item Node)}
  {given : Constraints} {m : Measured} {run : Sharing}

theorem firstRound_stack (hcalls : m.visit.calls =
      Measured.calls (pick (·.node.isLive) run.once items) ++
        Measured.calls (pick run.shares run.again items)) :
    (stack frame style totals items).firstRound m =
      (items.zipIdx.filter fun item => item.1.node.isLive).map
        fun item => (item.2, (run.once item.1).visit) := by
  have hlength := congrArg List.length (map_filter_zipIdx (·.node.isLive) id items)
  rw [List.length_map, List.length_map] at hlength
  rw [firstRound, hcalls, Measured.calls_pick, liveItems, List.take_left']
  rw [List.length_map]
  exact hlength

theorem chosen_stack (hcalls : m.visit.calls =
      Measured.calls (pick (·.node.isLive) run.once items) ++
        Measured.calls (pick run.shares run.again items)) (axis : Axis) :
    (stack frame style totals items).chosen axis m = run.onceAlong axis items := by
  rw [chosen, firstRound_stack hcalls, List.map_map]
  exact map_filter_zipIdx (·.node.isLive) (fun item => (run.once item).size.along axis) items

end Node

/-! ## Rounding -/

namespace StackStyle

/-- What children that chose `old` have once they got the parts of `extra` that are due to their
weights out of `total`, each part rounded down. -/
def grown (extra : Int) (total : Nat) (old : List Int) (weights : List Nat) : List Int :=
  List.zipWith (fun v (weight : Nat) => v + extra * weight / total) old weights

section Grown

variable {α : Type} {extra : Int} {total : Nat} (f : α → Int) (weight : α → Nat) (xs : List α)

theorem grown_map : grown extra total (xs.map f) (xs.map weight) =
    xs.map fun x => f x + extra * weight x / total := by
  rw [grown, List.zipWith_map, List.zipWith_self]

theorem grown_zero : grown extra 0 (xs.map f) (xs.map weight) = xs.map f := by
  simp [grown_map]

theorem getElem?_grown {old : List Int} {weights : List Nat} {i : Nat}
    (hi : weights[i]? = some 0) : (grown extra total old weights)[i]? = old[i]? := by
  rw [grown, List.getElem?_zipWith, hi]
  cases old[i]? <;> simp

theorem forall₂_le_grown (h₀ : 0 ≤ extra) :
    List.Forall₂ (· ≤ ·) (xs.map f) (grown extra total (xs.map f) (xs.map weight)) := by
  rw [grown_map, List.forall₂_map_left_iff, List.forall₂_map_right_iff, List.forall₂_same]
  intro x _
  have := Int.ediv_nonneg (Int.mul_nonneg h₀ (Int.natCast_nonneg (weight x)))
    (Int.natCast_nonneg total)
  omega

/-- Rounding takes less than one pixel away from each child that has a weight. -/
theorem sum_grown_bounds (h₀ : 0 ≤ extra) (hne : extra ≠ Extent.inf)
    (hp : 0 < sumFlex (xs.map weight)) :
    (xs.map f).sum + extra - ((xs.map weight).countP (0 < ·) - 1) ≤
        (grown extra (sumFlex (xs.map weight)) (xs.map f) (xs.map weight)).sum ∧
      (grown extra (sumFlex (xs.map weight)) (xs.map f) (xs.map weight)).sum ≤
        (xs.map f).sum + extra := by
  have hle := sum_share_le h₀ hne hp (Nat.le_refl _)
  have hge := le_sum_share hne hp
  simp only [share_of_ne hne, List.map_map, Function.comp_def] at hle hge
  rw [grown_map, List.sum_map_add]
  omega

end Grown

end StackStyle

namespace Sharing.IsRun

open Node

variable {run : Sharing} {stack : Node} {style : StackStyle} {items : List (Item Node)}
  {given : Constraints}

/-- The room is what is missing to the limit up to which it is counted. -/
theorem extra_eq_of_finite (h : run.IsRun stack style items given)
    (hn : given.isNormalized = true) (hf : run.IsFaithful style.axis items)
    (hfinite : (run.onceAlong style.axis items).sum < Extent.inf) (hflex : run.flex ≠ 0) :
    run.extra = max (StackStyle.brim (given.along style.axis) -
      (run.onceAlong style.axis items).sum) 0 := by
  have hnn := hf.nonneg_onceAlong
  rw [h.extra_eq_room hn hnn, if_neg hflex, Extent.total_eq_min hnn,
    Int.min_eq_left (Int.le_of_lt hfinite),
    StackStyle.room_eq (Constraints.isNormalized_iff.1 hn _) (List.sum_nonneg hnn)]

theorem extra_ne_inf (h : run.IsRun stack style items given) (hn : given.isNormalized = true)
    (hf : run.IsFaithful style.axis items) (hlo : (given.along style.axis).lo < Extent.inf)
    (hfinite : (run.onceAlong style.axis items).sum < Extent.inf) : run.extra ≠ Extent.inf := by
  have hinf : (0 : Int) < Extent.inf := by decide
  by_cases hflex : run.flex = 0
  · have hextra := h.extra
    rw [if_pos hflex] at hextra
    have := Except.ok.inj hextra
    omega
  · have hsum := List.sum_nonneg hf.nonneg_onceAlong
    have hbrim := StackStyle.brim_lt (Constraints.isNormalized_iff.1 hn style.axis) hlo
    rw [h.extra_eq_of_finite hn hf hfinite hflex]
    omega

/-- Each child ends up with what it chose and with its part of the room. -/
theorem lastAlong_eq (h : run.IsRun stack style items given) (hn : given.isNormalized = true)
    (hs : style.isHomogeneous = false) (hf : run.IsFaithful style.axis items)
    (hlo : (given.along style.axis).lo < Extent.inf)
    (hfinite : (run.onceAlong style.axis items).sum < Extent.inf) :
    run.lastAlong style.axis items =
      StackStyle.grown (max (StackStyle.brim (given.along style.axis) -
          (run.onceAlong style.axis items).sum) 0)
        (sumFlex ((items.filter (·.node.isLive)).map (·.flex))) (run.onceAlong style.axis items)
        ((items.filter (·.node.isLive)).map (·.flex)) := by
  have hne := h.extra_ne_inf hn hf hlo hfinite
  rw [onceAlong, StackStyle.grown_map, ← onceAlong, ← (h.flex_eq hs).1]
  refine List.map_congr_left fun item hm => ?_
  obtain ⟨hi, hl⟩ := List.mem_filter.1 hm
  rw [hf.along_last h hne hi hl, gain, StackStyle.share_of_ne hne]
  by_cases hflex : run.flex = 0
  · simp [hflex]
  · rw [← h.extra_eq_of_finite hn hf hfinite hflex]

end Sharing.IsRun

namespace Node

variable {frame : Frame} {style : StackStyle} {totals : StackTotals} {items : List (Item Node)}
  {given : Constraints} {m : Measured}

theorem weights_stack (hs : style.isHomogeneous = false) :
    (stack frame style totals items).weights = (items.filter (·.node.isLive)).map (·.flex) := by
  rw [weights, hs]
  rfl

theorem firstRound_of_empty (hm : (stack frame style totals items).measure given = .ok m)
    (hcount : liveCount items = 0) : (stack frame style totals items).firstRound m = [] := by
  rw [firstRound, (run_stack_empty hm hcount).2.2, List.take_nil]

/-- What each child chose in the first round, and has in the end. -/
theorem exists_chosen (hs : style.isHomogeneous = false)
    (hinsets : (stack frame style totals items).AllReached HasNonnegInsets)
    (hlo : (given.along style.axis).lo < Extent.inf)
    (hm : (stack frame style totals items).measure given = .ok m)
    (hfinite : ((stack frame style totals items).chosen style.axis m).sum < Extent.inf) :
    ((stack frame style totals items).firstRound m).map Prod.fst =
        (items.zipIdx.filter fun item => item.1.node.isLive).map Prod.snd ∧
      ∃ once : Item Node → Int, 0 ≤ ((items.filter (·.node.isLive)).map once).sum ∧
        (stack frame style totals items).chosen style.axis m =
          (items.filter (·.node.isLive)).map once ∧
        m.node.measuredAlong style.axis =
          StackStyle.grown (max (StackStyle.brim (given.along style.axis) -
              ((items.filter (·.node.isLive)).map once).sum) 0)
            (sumFlex ((items.filter (·.node.isLive)).map (·.flex)))
            ((items.filter (·.node.isLive)).map once)
            ((items.filter (·.node.isLive)).map (·.flex)) := by
  rcases Classical.em (liveCount items = 0) with hcount | hcount
  · have hround := firstRound_of_empty hm hcount
    have hnone : items.filter (·.node.isLive) = [] :=
      List.filter_eq_nil_iff.2 (List.countP_eq_zero.1 hcount)
    have hindices := map_filter_zipIdx (·.node.isLive) id items
    rw [hnone, List.map_nil, List.map_eq_nil_iff] at hindices
    rw [chosen, hround, hindices, hnone, (run_stack_empty hm hcount).2.1,
      measuredAlong_of_empty hcount]
    exact ⟨rfl, fun _ => 0, Int.le_refl 0, rfl, rfl⟩
  · obtain ⟨run, hr, -, hnode, hcalls⟩ := run_stack hm hcount
    have hf := hr.isFaithful hs (allReached_stack.1 hinsets).2
    rw [chosen_stack hcalls] at hfinite ⊢
    refine ⟨?_, fun item => (run.once item).size.along style.axis,
      List.sum_nonneg hf.nonneg_onceAlong, rfl, ?_⟩
    · rw [firstRound_stack hcalls, List.map_map]
      rfl
    · rw [hnode, measuredAlong_settled hr]
      exact hr.lastAlong_eq (isNormalized_of_measure hm) hs hf hlo hfinite

/-- A stack that is not cut into slices measures each child that takes part once. Of the room that
these answers leave up to the limit `StackStyle.brim`, each child gets in the end exactly the part
that is due to its weight, rounded down. The stack recalls the sum of what its children have then:
for each child that has a weight less than one pixel of the room is lost, and the sum does not
exceed the limit. -/
theorem measure_shares (hs : style.isHomogeneous = false)
    (hinsets : (stack frame style totals items).AllReached HasNonnegInsets)
    (hlo : (given.along style.axis).lo < Extent.inf)
    (hm : (stack frame style totals items).measure given = .ok m)
    (hfinite : ((stack frame style totals items).chosen style.axis m).sum < Extent.inf) :
    let root := stack frame style totals items
    let old := root.chosen style.axis m
    let new := m.node.measuredAlong style.axis
    let brim := StackStyle.brim (given.along style.axis)
    let extra := max (brim - old.sum) 0
    let flex := sumFlex root.weights
    (root.firstRound m).map Prod.fst =
        (items.zipIdx.filter fun item => item.1.node.isLive).map Prod.snd ∧
      new = StackStyle.grown extra flex old root.weights ∧
      List.Forall₂ (· ≤ ·) old new ∧
      (∀ i : Nat, root.weights[i]? = some 0 → new[i]? = old[i]?) ∧
      m.node.totals.extent = new.sum ∧
      (0 < flex → old.sum + extra - (root.weights.countP (0 < ·) - 1) ≤ new.sum ∧
        new.sum ≤ old.sum + extra ∧ (0 < extra → new.sum ≤ brim)) ∧
      (flex = 0 → new = old) := by
  intro root old new brim extra flex
  have hweights : root.weights = (items.filter (·.node.isLive)).map (·.flex) := weights_stack hs
  obtain ⟨hround, once, hnonneg, hold, hgrown⟩ := exists_chosen hs hinsets hlo hm hfinite
  replace hold : old = (items.filter (·.node.isLive)).map once := hold
  rw [← hold] at hnonneg
  have hnew : new = StackStyle.grown extra flex old root.weights := by
    rwa [← hweights, ← hold] at hgrown
  have hbrim : brim < Extent.inf := StackStyle.brim_lt
    (Constraints.isNormalized_iff.1 (isNormalized_of_measure hm) style.axis) hlo
  replace hfinite : old.sum < Extent.inf := hfinite
  have hextra : 0 ≤ extra := Int.le_max_right ..
  have hbounds : 0 < flex → old.sum + extra - (root.weights.countP (0 < ·) - 1) ≤ new.sum ∧
      new.sum ≤ old.sum + extra := by
    intro hpos
    have hsum := StackStyle.sum_grown_bounds once (·.flex) (items.filter (·.node.isLive)) hextra
      (by omega) (hweights ▸ hpos)
    rwa [← hold, ← hweights, ← hnew] at hsum
  have hkept : flex = 0 → new = old := fun hz => by
    rw [hnew, hz, hold, hweights, StackStyle.grown_zero]
  have hle : new.sum ≤ Extent.inf := by
    rcases Nat.eq_zero_or_pos flex with hz | hpos
    · rw [hkept hz]
      omega
    · have := (hbounds hpos).2
      omega
  refine ⟨hround, hnew, ?_, fun i hi => ?_, extent_of_measure hs hinsets hm hle, fun hpos => ?_,
    hkept⟩
  · rw [hnew, hold, hweights]
    exact StackStyle.forall₂_le_grown _ _ _ hextra
  · rw [hnew]
    exact StackStyle.getElem?_grown hi
  · obtain ⟨hlow, hhigh⟩ := hbounds hpos
    exact ⟨hlow, hhigh, fun _ => by omega⟩

/-- Of 74 pixels two children get 24 and 49, and the third one, which has no weight, none. -/
theorem measure_shares_of_row :
    let row := stackOf { axis := .horizontal } [(ofLeaf (.spacer ⟨10, 4⟩), 1),
      (pad (.all 2) (ofLeaf (.spacer ⟨5, 4⟩)), 2), (ofLeaf (.spacer ⟨7, 4⟩), 0)]
    ∃ m, row.measure (.upTo ⟨100, 20⟩) = .ok m ∧ row.chosen .horizontal m = [10, 9, 7] ∧
      m.node.measuredAlong .horizontal = [34, 58, 7] ∧ m.node.totals.extent = 99 := by
  intro row
  have hinsets : row.AllReached HasNonnegInsets := by decide +kernel
  obtain ⟨m, hm, hchosen⟩ : ∃ m, row.measure (.upTo ⟨100, 20⟩) = .ok m ∧
      row.chosen .horizontal m = [10, 9, 7] :=
    map_eq_ok_iff.1 (by decide +kernel : row.chosen .horizontal <$> row.measure (.upTo ⟨100, 20⟩) =
      .ok [10, 9, 7])
  have hfinite : (row.chosen .horizontal m).sum < Extent.inf := hchosen ▸ (by decide)
  obtain ⟨-, hnew, -, -, hextent, -⟩ := measure_shares rfl hinsets (by decide) hm hfinite
  replace hnew : m.node.measuredAlong .horizontal =
      StackStyle.grown (max (100 - (row.chosen .horizontal m).sum) 0) 3 (row.chosen .horizontal m)
        [1, 2, 0] := hnew
  rw [hchosen] at hnew
  exact ⟨m, hm, hchosen, hnew, hextent.trans (congrArg List.sum hnew)⟩

end Node

end BoxLayout
