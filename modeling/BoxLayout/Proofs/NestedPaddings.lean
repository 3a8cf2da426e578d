import BoxLayout.Proofs.Agree
import BoxLayout.Proofs.Extents
import BoxLayout.Proofs.Preorder
import BoxLayout.Proofs.Transpose.Place

/-!
# Nested paddings fuse

A padding right inside another one does what a single padding does whose insets are the sums of
theirs, edge by edge (`Node.nested_paddings_fuse`). Taking room away from limits, from an extent or
from a box stops at nothing left and leaves an unbounded extent as it is, so that taking it away in
two steps is the same as in one (`Limits.less_less`, `Insets.inner_inner`, `Rect.inset_inset`). What
is put back stops at the unbounded extent, in two steps as in one (`Extent.saturatingAdd_assoc`).
-/

namespace BoxLayout

theorem Extent.saturatingAdd_assoc {v a b : Int} (hv : least ≤ v) (ha : 0 ≤ a) (hb : 0 ≤ b)
    (h : a + b < inf) : saturatingAdd (saturatingAdd v b) a = saturatingAdd v (a + b) := by
  simp only [saturatingAdd, saturate, least, inf] at *
  omega

/-- What is left of a length when two others are taken away from it. -/
theorem Extent.rest_rest {v a b : Int} (hv : IsLength v) (ha : 0 ≤ a) (hb : 0 ≤ b) :
    infOr (infOr v (max (v - a) 0)) (max (infOr v (max (v - a) 0) - b) 0) =
      infOr v (max (v - (a + b)) 0) := by
  rcases Classical.em (v = inf) with rfl | hne
  · rw [infOr_inf, infOr_inf, infOr_inf]
  · have hrest : max (v - a) 0 ≠ inf := by
      simp only [IsLength, inf] at *
      omega
    rw [infOr_of_ne hne, infOr_of_ne hne, infOr_of_ne hrest]
    omega

theorem Limits.less_less {limits : Limits} {a b : Int} (h : limits.isNormalized = true)
    (ha : 0 ≤ a) (hb : 0 ≤ b) : (limits.less a).less b = limits.less (a + b) := by
  have hlo := Extent.rest_rest (isLength_lo h) ha hb
  obtain ⟨h₀, hle, hinf⟩ := isNormalized_iff.1 h
  simp only [less, Limits.mk.injEq, hlo, true_and]
  rcases Classical.em (limits.hi = Extent.inf) with hhi | hhi
  · have hleft : Extent.infOr limits.lo (max (limits.lo - a) 0) ≤ Extent.inf := by
      simp only [Extent.infOr, Extent.inf] at *
      omega
    rw [hhi, Extent.infOr_inf, Extent.infOr_inf, Int.max_eq_left hleft, Extent.infOr_inf]
  · have hne : limits.lo ≠ Extent.inf := by omega
    have hleft : max (limits.hi - a) (max (limits.lo - a) 0) ≠ Extent.inf := by
      simp only [Extent.inf] at *
      omega
    rw [Extent.infOr_of_ne hhi, Extent.infOr_of_ne hhi, Extent.infOr_of_ne hne,
      Extent.infOr_of_ne hne, Extent.infOr_of_ne hleft]
    omega

/-! ## Insets one after the other -/

/-- The insets of a padding and of the one right inside it, taken together. -/
instance : Add Insets :=
  ⟨fun a b => ⟨a.top + b.top, a.right + b.right, a.bottom + b.bottom, a.left + b.left⟩⟩

namespace Insets

variable {a b : Insets}

theorem amount_add (a b : Insets) (axis : Axis) :
    (a + b).amount axis = a.amount axis + b.amount axis := by
  cases axis <;> exact add_add_add_comm ..

theorem lead_add (a b : Insets) (axis : Axis) :
    (a + b).lead axis = a.lead axis + b.lead axis := by
  cases axis <;> rfl

/-- Two insets and their sum are proper if the sum takes away no unbounded extent. -/
structure AreFusable (a b : Insets) : Prop where
  nonneg : a.IsNonneg
  nonneg_inner : b.IsNonneg
  amount_lt : ∀ axis, a.amount axis + b.amount axis < Extent.inf

namespace AreFusable

variable (h : AreFusable a b)
include h

theorem outer : a.IsProper :=
  ⟨h.nonneg, fun axis => by
    have := h.nonneg_inner.amount_nonneg axis
    have := h.amount_lt axis
    omega⟩

theorem inner : b.IsProper :=
  ⟨h.nonneg_inner, fun axis => by
    have := h.nonneg.amount_nonneg axis
    have := h.amount_lt axis
    omega⟩

theorem sum : (a + b).IsProper := by
  refine ⟨?_, fun axis => amount_add a b axis ▸ Int.le_of_lt (h.amount_lt axis)⟩
  obtain ⟨ha₁, ha₂, ha₃, ha₄⟩ := h.nonneg
  obtain ⟨hb₁, hb₂, hb₃, hb₄⟩ := h.nonneg_inner
  exact ⟨Int.add_nonneg ha₁ hb₁, Int.add_nonneg ha₂ hb₂, Int.add_nonneg ha₃ hb₃,
    Int.add_nonneg ha₄ hb₄⟩

/-- What is put back around a size. -/
theorem saturatingAdd_eq (axis : Axis) {v : Int} (hv : Extent.InRange v) :
    Extent.saturatingAdd (Extent.saturatingAdd v (b.amount axis)) (a.amount axis) =
      Extent.saturatingAdd v ((a + b).amount axis) := by
  rw [amount_add]
  exact Extent.saturatingAdd_assoc hv.1 (h.nonneg.amount_nonneg axis)
    (h.nonneg_inner.amount_nonneg axis) (h.amount_lt axis)

end AreFusable

theorem inner_inner (h : AreFusable a b) (axis : Axis) {v : Int} (hv : Extent.IsLength v) :
    (do b.inner axis (← a.inner axis v)) = (a + b).inner axis v := by
  obtain ⟨rest, hrest, hl⟩ := h.outer.inner_isOk axis hv
  have hinner := h.outer.inner_eq axis hv
  obtain rfl := Except.ok.inj (hrest.symm.trans hinner)
  rw [hinner, h.sum.inner_eq axis hv, amount_add, ← Extent.rest_rest hv
    (h.nonneg.amount_nonneg axis) (h.nonneg_inner.amount_nonneg axis)]
  exact h.inner.inner_eq axis hl

end Insets

namespace Rect

variable {rect : Rect}

instance (rect : Rect) : Decidable rect.StartsInRange :=
  inferInstanceAs (Decidable (∀ axis, Extent.InRange (rect.start axis)))

/-- The box that insets leave, which may start out of range. -/
def within (rect : Rect) (insets : Insets) : Rect :=
  ⟨⟨rect.origin.x + insets.left, rect.origin.y + insets.top⟩,
    ⟨max (rect.size.width - insets.amount .horizontal) 0,
      max (rect.size.height - insets.amount .vertical) 0⟩⟩

theorem start_within (insets : Insets) (axis : Axis) :
    (rect.within insets).start axis = rect.start axis + insets.lead axis := by
  cases axis <;> rfl

theorem extent_within (insets : Insets) (axis : Axis) :
    (rect.within insets).extent axis = max (rect.extent axis - insets.amount axis) 0 := by
  cases axis <;> rfl

theorem isProper_within {insets : Insets} (hi : insets.IsNonneg) (hs : rect.size.IsProper) :
    (rect.within insets).size.IsProper := fun axis => by
  obtain ⟨h₀, h₁⟩ := hs axis
  have ha := hi.amount_nonneg axis
  show Extent.IsLength ((rect.within insets).extent axis)
  rw [extent_within]
  simp only [Extent.IsLength, extent, Extent.inf] at *
  omega

/-- A box of a proper size can be shrunk unless what is left would start out of range. -/
theorem inset_eq_ite {insets : Insets} (hi : insets.IsProper) (hs : rect.size.IsProper) :
    rect.inset insets = if (rect.within insets).StartsInRange then .ok (rect.within insets)
      else .error .overflow := by
  have hsub (axis : Axis) : Extent.sub (rect.extent axis) (insets.amount axis) =
      .ok (rect.extent axis - insets.amount axis) := by
    have hv : Extent.IsLength (rect.extent axis) := hs axis
    have ha := hi.isLength_amount axis
    refine Extent.checked_of_inRange ?_
    simp only [Extent.IsLength, Extent.InRange, Extent.least, Extent.inf] at *
    omega
  split
  · rename_i hr
    refine inset_eq_ok_iff.2 fun axis => ⟨?_, _, _, hi.total_eq axis, hsub axis, extent_within ..⟩
    rw [start_within]
    exact Extent.checked_of_inRange (start_within insets axis ▸ hr axis)
  · rename_i hr
    by_cases hx : Extent.InRange (rect.origin.x + insets.left)
    · have hy : ¬ Extent.InRange (rect.origin.y + insets.top) := fun hy =>
        hr ((Axis.forall_iff .horizontal).2 ⟨hx, hy⟩)
      have hleft : Extent.add rect.origin.x insets.left = .ok _ := Extent.checked_of_inRange hx
      have htop : Extent.add rect.origin.y insets.top = .error .overflow :=
        Extent.checked_eq_error_iff.2 ⟨hy, rfl⟩
      rw [inset, hleft, htop]
      rfl
    · have hleft : Extent.add rect.origin.x insets.left = .error .overflow :=
        Extent.checked_eq_error_iff.2 ⟨hx, rfl⟩
      rw [inset, hleft]
      rfl

theorem within_within (a b : Insets) (hb : b.IsNonneg) :
    (rect.within a).within b = rect.within (a + b) := by
  have hw := hb.amount_nonneg .horizontal
  have hh := hb.amount_nonneg .vertical
  simp only [within, Insets.amount_add, mk.injEq, Point.mk.injEq, Size.mk.injEq]
  exact ⟨⟨Int.add_assoc .., Int.add_assoc ..⟩, by omega, by omega⟩

theorem startsInRange_within {a b : Insets} (h : Insets.AreFusable a b) (hr : rect.StartsInRange)
    (hs : (rect.within (a + b)).StartsInRange) : (rect.within a).StartsInRange := fun axis => by
  have hlead (insets : Insets) (hi : insets.IsNonneg) : 0 ≤ insets.lead axis := by
    unfold Insets.IsNonneg at hi
    cases axis <;> simp only [Insets.lead] <;> omega
  have ha := hlead a h.nonneg
  have hb := hlead b h.nonneg_inner
  have hstart := hr axis
  have hstop := hs axis
  rw [start_within, Insets.lead_add] at hstop
  rw [start_within]
  simp only [Extent.InRange] at *
  omega

/-- Shrinking a box twice, with a fault where it would start out of range. -/
theorem inset_inset {a b : Insets} (h : Insets.AreFusable a b) (hr : rect.StartsInRange)
    (hs : rect.size.IsProper) : (do (← rect.inset a).inset b) = rect.inset (a + b) := by
  rw [inset_eq_ite h.outer hs, inset_eq_ite h.sum hs]
  by_cases hsum : (rect.within (a + b)).StartsInRange
  · rw [if_pos hsum, if_pos (startsInRange_within h hr hsum)]
    refine (inset_eq_ite h.inner (isProper_within h.nonneg hs)).trans ?_
    rw [within_within a b h.nonneg_inner, if_pos hsum]
  · rw [if_neg hsum]
    split
    · refine (inset_eq_ite h.inner (isProper_within h.nonneg hs)).trans ?_
      rw [within_within a b h.nonneg_inner, if_neg hsum]
    · rfl

end Rect

/-! ## One padding inside another -/

namespace Node

variable {a b : Insets} {child : Node}

/-- What a padding of proper insets does when it is asked normally. -/
theorem measure_padding_eq {insets : Insets} (hi : insets.IsProper) {given : Constraints}
    (hn : given.isNormalized = true) (frame : Frame) (child : Node) :
    (padding frame insets child).measure given =
      (fun found => ⟨padding frame insets found.node, .mk "Padding"
        ⟨given, found.size.saturatingAdd ⟨insets.amount .horizontal, insets.amount .vertical⟩⟩
        [(0, found.visit)]⟩) <$>
      child.measure (given.less (insets.amount .horizontal) (insets.amount .vertical)) := by
  have ht (axis : Axis) : insets.total axis =
      .ok ((Size.mk (insets.amount .horizontal) (insets.amount .vertical)).along axis) := by
    cases axis <;> exact hi.total_eq _
  rw [measure_padding_of_total hn ht, Constraints.inset_eq hn (hi.isLength_amount .horizontal)
    (hi.isLength_amount .vertical)]
  rfl

theorem inset_less (h : Insets.AreFusable a b) {given : Constraints}
    (hn : given.isNormalized = true) :
    (given.less (a.amount .horizontal) (a.amount .vertical)).less (b.amount .horizontal)
        (b.amount .vertical) =
      given.less ((a + b).amount .horizontal) ((a + b).amount .vertical) := by
  have haxis (axis : Axis) := Limits.less_less (Constraints.isNormalized_iff.1 hn axis)
    (h.nonneg.amount_nonneg axis) (h.nonneg_inner.amount_nonneg axis)
  simp only [Insets.amount_add]
  exact congrArg₂ Constraints.mk (haxis .horizontal) (haxis .vertical)

theorem agree_measure_nested (h : Insets.AreFusable a b) (outer inner frame : Frame)
    (given : Constraints) :
    Agree (fun n f => n.size = f.size ∧ n.visit.size = f.visit.size + 1 ∧
        ∃ found : Node, n.node = padding outer a (padding inner b found) ∧
          f.node = padding frame (a + b) found)
      ((padding outer a (padding inner b child)).measure given)
      ((padding frame (a + b) child).measure given) := by
  by_cases hn : given.isNormalized = true
  · have hless := Constraints.isNormalized_less hn (h.outer.isLength_amount .horizontal)
      (h.outer.isLength_amount .vertical)
    rw [measure_padding_eq h.outer hn, measure_padding_eq h.inner hless,
      measure_padding_eq h.sum hn, inset_less h hn]
    cases hm : child.measure
        (given.less ((a + b).amount .horizontal) ((a + b).amount .vertical)) with
    | error fault => exact .error fault
    | ok found =>
      refine .ok ⟨Size.eq_of_along fun axis => ?_, ?_, found.node, rfl, rfl⟩
      · have hback := h.saturatingAdd_eq axis (inRange_of_measure hm axis)
        cases axis <;> exact hback
      · simp only [Visit.size, Visit.sizeAll]
        omega
  · have hfault (frame : Frame) (insets : Insets) (child : Node) :
        (padding frame insets child).measure given = .error (.notNormalized given) := by
      rw [measure, if_pos (by simpa using hn)]
    rw [hfault, hfault]
    exact .error _

theorem minExtent_padding_eq {insets : Insets} (hi : insets.IsProper) (frame : Frame) (child : Node)
    {axis : Axis} {other rest : Int} (hr : insets.inner axis.flip other = .ok rest) :
    (padding frame insets child).minExtent axis other =
      (Extent.saturatingAdd · (insets.amount axis)) <$> child.minExtent axis rest := by
  rw [minExtent, hr, hi.total_eq]
  show (child.minExtent axis rest >>= _) = _
  cases child.minExtent axis rest <;> rfl

theorem minExtent_nested (h : Insets.AreFusable a b) (outer inner frame : Frame)
    (hx : child.AllReached HasExtents) (axis : Axis) {other : Int} (ho : Extent.IsLength other) :
    (padding outer a (padding inner b child)).minExtent axis other =
      (padding frame (a + b) child).minExtent axis other := by
  obtain ⟨rest, hrest, hl⟩ := h.outer.inner_isOk axis.flip ho
  obtain ⟨last, hlast, hll⟩ := h.inner.inner_isOk axis.flip hl
  have hboth : (a + b).inner axis.flip other = .ok last := by
    rw [← Insets.inner_inner h axis.flip ho, hrest]
    exact hlast
  rw [minExtent_padding_eq h.outer _ _ hrest, minExtent_padding_eq h.inner _ _ hlast,
    minExtent_padding_eq h.sum _ _ hboth]
  cases hm : child.minExtent axis last with
  | error fault => rfl
  | ok least =>
    exact congrArg Except.ok (h.saturatingAdd_eq axis (inRange_of_minExtent hx hll.inRange hm))

/-- Placing a padding starts with the box for its child. -/
theorem place_padding_eq (frame : Frame) (insets : Insets) (child : Node) (bounds : Rect) :
    (padding frame insets child).place bounds = bounds.inset insets >>= fun slot =>
      (fun below => ⟨padding { frame with bounds } insets below.node,
        .mk "Padding" ⟨bounds, none⟩ [(0, below.visit)]⟩) <$> child.place slot := by
  rw [place]
  cases bounds.inset insets with
  | error fault => rfl
  | ok slot =>
    show _ <$> (child.place slot >>= _) = _ <$> child.place slot
    cases child.place slot <;> rfl

theorem agree_place_nested (h : Insets.AreFusable a b) (outer inner frame : Frame) {bounds : Rect}
    (hr : bounds.StartsInRange) (hs : bounds.size.IsProper) :
    Agree (fun n f => ∃ (between slot : Rect) (below : Placed), child.place slot = .ok below ∧
        n.node = padding { outer with bounds } a
          (padding { inner with bounds := between } b below.node) ∧
        f.node = padding { frame with bounds } (a + b) below.node)
      ((padding outer a (padding inner b child)).place bounds)
      ((padding frame (a + b) child).place bounds) := by
  rw [place_padding_eq, place_padding_eq, ← Rect.inset_inset h hr hs]
  cases bounds.inset a with
  | error fault => exact .error fault
  | ok between =>
    show Agree _ (_ <$> (padding inner b child).place between) (between.inset b >>= _)
    rw [place_padding_eq]
    cases between.inset b with
    | error fault => exact .error fault
    | ok slot =>
      show Agree _ (_ <$> (_ <$> child.place slot)) (_ <$> child.place slot)
      cases hp : child.place slot with
      | error fault => exact .error fault
      | ok below => exact .ok ⟨between, slot, below, hp, rfl, rfl⟩

/-- A padding right inside another answers the same sizes and least extents as a single padding of
the summed insets, leaves the child as that one does and places it in the same box, at the cost of
one call. Where one of them fails, so does the other, for the same reason. -/
theorem nested_paddings_fuse {a b : Insets} (ha : a.IsNonneg) (hb : b.IsNonneg)
    (hlt : ∀ axis, (a + b).amount axis < Extent.inf) (child : Node) (outer inner frame : Frame) :
    (∀ given, Agree (fun n f => n.size = f.size ∧ n.visit.size = f.visit.size + 1 ∧
        ∃ found : Node, n.node = padding outer a (padding inner b found) ∧
          f.node = padding frame (a + b) found)
      ((padding outer a (padding inner b child)).measure given)
      ((padding frame (a + b) child).measure given)) ∧
    (child.AllReached HasExtents → ∀ axis other, Extent.IsLength other →
      (padding outer a (padding inner b child)).minExtent axis other =
        (padding frame (a + b) child).minExtent axis other) ∧
    (∀ bounds : Rect, bounds.StartsInRange → bounds.size.IsProper →
      Agree (fun n f => ∃ (between slot : Rect) (below : Placed), child.place slot = .ok below ∧
          n.node = padding { outer with bounds } a
            (padding { inner with bounds := between } b below.node) ∧
          f.node = padding { frame with bounds } (a + b) below.node)
        ((padding outer a (padding inner b child)).place bounds)
        ((padding frame (a + b) child).place bounds)) := by
  have h : Insets.AreFusable a b := ⟨ha, hb, fun axis => Insets.amount_add a b axis ▸ hlt axis⟩
  exact ⟨agree_measure_nested h outer inner frame,
    fun hx axis other ho => minExtent_nested h outer inner frame hx axis ho,
    fun bounds hr hs => agree_place_nested h outer inner frame hr hs⟩

/-- Insets of 2 around insets of 3 are insets of 5, also where they leave nothing of a box. -/
theorem nested_paddings_fuse_canvas :
    let canvas := ofLeaf (.canvas ⟨20, 10⟩ .visible none)
    (∃ n f, (pad (.all 2) (pad (.all 3) canvas)).measure (.upTo ⟨30, 16⟩) = .ok n ∧
      (pad (.all 2 + .all 3) canvas).measure (.upTo ⟨30, 16⟩) = .ok f ∧ n.size = f.size ∧
      n.visit.size = f.visit.size + 1) ∧
    (pad (.all 2) (pad (.all 3) canvas)).minExtent .horizontal 8 =
      (pad (.all 2 + .all 3) canvas).minExtent .horizontal 8 ∧
    ∃ f slot below, (pad (.all 2 + .all 3) canvas).place (.atOrigin ⟨9, 40⟩) = .ok f ∧
      canvas.place slot = .ok below ∧
      f.node = padding ⟨.visible, .atOrigin ⟨9, 40⟩⟩ (.all 2 + .all 3) below.node := by
  intro canvas
  obtain ⟨hmeasure, hextent, hplace⟩ := nested_paddings_fuse (a := .all 2) (b := .all 3)
    (by decide) (by decide) (by decide) canvas {} {} {}
  obtain ⟨n, hn, -⟩ : ∃ n, (pad (.all 2) (pad (.all 3) canvas)).measure (.upTo ⟨30, 16⟩) = .ok n ∧
      n.size = ⟨30, 16⟩ :=
    map_eq_ok_iff.1 (by decide +kernel : (·.size) <$>
      (pad (.all 2) (pad (.all 3) canvas)).measure (.upTo ⟨30, 16⟩) = .ok ⟨30, 16⟩)
  obtain ⟨f, hf, hsize, hcalls, -⟩ := (hmeasure (.upTo ⟨30, 16⟩)).exists_of_ok hn
  obtain ⟨p, hp, -⟩ : ∃ p, (pad (.all 2) (pad (.all 3) canvas)).place (.atOrigin ⟨9, 40⟩) = .ok p ∧
      p.visit.size = 3 :=
    map_eq_ok_iff.1 (by decide +kernel : (·.visit.size) <$>
      (pad (.all 2) (pad (.all 3) canvas)).place (.atOrigin ⟨9, 40⟩) = .ok 3)
  obtain ⟨q, hq, -, slot, below, hbelow, -, hnode⟩ :=
    (hplace (.atOrigin ⟨9, 40⟩) (by decide) (by decide)).exists_of_ok hp
  exact ⟨⟨n, f, hn, hf, hsize, hcalls⟩,
    hextent (by decide +kernel) .horizontal 8 (by decide), q, slot, below, hq, hbelow, hnode⟩

end Node

end BoxLayout
