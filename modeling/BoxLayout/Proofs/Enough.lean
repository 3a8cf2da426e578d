import BoxLayout.Proofs.History
import BoxLayout.Proofs.StackFits

/-!
# With enough room nothing overflows

A firm tree that is given at least what it needs is laid out in exactly the given size, with every
child inside its parent, siblings apart and no leaf smaller than it wants to be
(`Node.fit_of_enough_room`). Measuring leaves a tree that fits its answer (`Node.settles`), and a
tree that fits a size can be placed in a box of that size (`Node.Fits.places`).
-/

namespace BoxLayout

namespace Node

/-- A measured tree that fits a size is placed tidily in a proper box of that size, unless it
overruns. -/
theorem Fits.arranges {node : Node} {size : Size} (h : node.Fits size) : node.Arranges size := by
  induction h with
  | leaf hi hle => exact .leaf hi hle
  | padding hi ht hn hsize _ ih => exact .padding hi ht hn hsize ih
  | align hn hle _ ih => exact .align hn hle ih
  | stack hs hmain hle hn hcross _ ih => exact .stack hs hmain hle hn hcross ih
  | table hl hm hn hle _ ih => exact .table hl hm hn hle ih

theorem Fits.places {node : Node} {size : Size} (h : node.Fits size) : node.Places size :=
  h.arranges.places

variable {root : Node}

/-- In a firm tree with finite needs all nodes that are reached are firm and have finite needs. -/
theorem HasFiniteNeed.allReached (firm : root.AllReached IsFirm) (h : root.HasFiniteNeed) :
    root.AllReached fun node => node.AllReached IsFirm ∧ node.HasFiniteNeed := by
  induction root using visited_induct with
  | step root ih =>
    refine (allReached_iff root).2 ⟨⟨firm, h⟩, fun child hc => ?_⟩
    obtain ⟨hneed, hle⟩ := h.of_visited firm hc
    exact ih child hc (((allReached_iff root).1 firm).2 child hc)
      ⟨hneed, fun axis => Int.lt_of_le_of_lt (hle axis) (h.2 axis)⟩

theorem HasFiniteNeed.isSafe {node : Node} (firm : node.IsFirm) (h : node.HasFiniteNeed) :
    node.IsSafe := by
  cases node with
  | leaf frame content =>
    obtain ⟨ideal, hi, -⟩ := firm
    have hok := h.1.leaf hi
    refine ⟨fun given => ⟨(Node.leaf frame content).need, ?_⟩,
      fun axis other => ⟨(Node.leaf frame content).need.along axis, ?_⟩⟩
    · rw [Leaf.measure_of_ideal hi, hok]
      rfl
    · rw [Leaf.minExtent_of_ideal hi, hok]
      rfl
  | padding frame insets child => exact h.1.isProper_insets firm
  | align frame alignment measured child => trivial
  | stack frame style totals items => trivial
  | table frame grid cells => exact h.1.table.1

theorem IsFirm.not_isUnfit {node : Node} {fault : Fault} (firm : node.IsFirm) :
    ¬ node.IsUnfit fault := by
  rintro (⟨-, hw⟩ | ⟨-, ht⟩)
  · cases node with
    | stack frame style totals items =>
      rw [IsOverweight, weights, if_neg (by simp [firm.1])] at hw
      exact Nat.not_lt.2 firm.2 hw
    | leaf | padding | align | table => cases hw
  · cases node with
    | table frame grid cells => exact Bool.false_ne_true (firm.2.symm.trans ht)
    | leaf | padding | align | stack => exact ht

/-- A firm tree with finite needs answers every question that leaves it what it needs. -/
theorem settles (firm : root.AllReached IsFirm) (h : root.HasFiniteNeed) : root.Settles := by
  refine (h.allReached firm).induct (motive := Settles) fun node ⟨firm, h⟩ ih => ?_
  obtain ⟨hfirm, hbelow⟩ := (allReached_iff node).1 firm
  have hbears : node.Bears := ⟨h, fun child hc => isNonneg_need (hbelow child hc)
    (h.of_visited firm hc).1, fun child hc => (h.of_visited firm hc).2, ih⟩
  cases node with
  | leaf frame content =>
    obtain ⟨ideal, hi, -⟩ := hfirm
    exact .leaf hi h.1
  | padding frame insets child =>
    have hc : child ∈ (Node.padding frame insets child).visited := List.mem_singleton.2 rfl
    exact .padding hfirm h (hbears.nonneg child hc) (ih child hc)
  | align frame alignment measured child =>
    have hc : child ∈ (Node.align frame alignment measured child).visited :=
      List.mem_singleton.2 rfl
    exact .align hfirm h (hbears.nonneg child hc) (ih child hc)
  | stack frame style totals items => exact .stack hfirm.1 hbears
  | table frame grid cells => exact .table hfirm.1.length_le hbears

/-- A firm tree that is asked for a size no less than it needs answers that size, and fits it. -/
theorem measure_of_enough_room (firm : root.AllReached IsFirm) {size : Size}
    (hlt : ∀ axis, size.along axis < Extent.inf)
    (hroom : ∀ axis, ∃ need, root.minExtent axis Extent.inf = .ok need ∧ need ≤ size.along axis) :
    ∃ m, root.measure (.exactly size) = .ok m ∧ m.size = size ∧ m.node.Fits size ∧
      size.IsNonneg := by
  have hneed : root.HasNeed := hasNeed_iff.2 fun axis =>
    (hroom axis).imp fun _ h => h.1
  have hle (axis : Axis) : root.need.along axis ≤ size.along axis := by
    obtain ⟨need, hn, hle⟩ := hroom axis
    rwa [along_need, hn, value_ok]
  have hfinite : root.HasFiniteNeed :=
    ⟨hneed, fun axis => Int.lt_of_le_of_lt (hle axis) (hlt axis)⟩
  have hnonneg (axis : Axis) : 0 ≤ size.along axis :=
    Int.le_trans (isNonneg_need firm hneed axis) (hle axis)
  have hsize : size.IsProper := fun axis => ⟨hnonneg axis, Int.le_of_lt (hlt axis)⟩
  have hfit : root.AllReached IsFit := (hfinite.allReached firm).mono fun node h =>
    have firm := h.1 node (.refl node)
    ⟨h.2.isSafe firm, fun _ => firm.not_isUnfit⟩
  obtain ⟨m, hm, -⟩ := measure_of_isFit hfit (Constraints.isNormalized_exactly hsize)
  obtain ⟨hanswer, hfits⟩ := (settles firm hfinite).fits_of_exactly hlt hle hm
  exact ⟨m, hm, hanswer, hfits, hnonneg⟩

end Node

end BoxLayout
