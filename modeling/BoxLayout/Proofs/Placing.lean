import BoxLayout.Node.Place
import BoxLayout.Proofs.Anchors
import BoxLayout.Proofs.Fits
import BoxLayout.Proofs.Outcome

/-!
# Placed trees keep their children in

Where a measured tree fits a box (`Node.Fits`), placing it there leaves a tidy tree (`Node.IsTidy`):
every child lies inside its parent, siblings lie apart and leaves have the size that they want. The
kinds of nodes with a single child are dealt with here.

Placing can only fail because of a stack that spaces its children out: it computes where another
child would go after the last one, and that position may not be an extent any more
(`Node.Overruns`). In a box that is close to the origin this does not happen (`Rect.IsClose`).
-/

namespace BoxLayout

/-- The inset before what it surrounds, on one axis. -/
def Insets.lead (insets : Insets) : Axis → Int
  | .horizontal => insets.left
  | .vertical => insets.top

namespace Rect

/-- Where the box ends on one axis, as an exact number. -/
def far (rect : Rect) (axis : Axis) : Int := rect.start axis + rect.extent axis

theorem start_atOrigin (size : Size) (axis : Axis) : (atOrigin size).start axis = 0 := by
  cases axis <;> rfl

theorem far_atOrigin (size : Size) (axis : Axis) : (atOrigin size).far axis = size.along axis := by
  cases axis <;> exact Int.zero_add _

/-- No part of `inner` sticks out of `outer`. -/
def IsInside (inner outer : Rect) : Prop :=
  ∀ axis, outer.start axis ≤ inner.start axis ∧ inner.far axis ≤ outer.far axis

/-- On some axis one of the boxes ends before the other one starts. -/
def IsApart (a b : Rect) : Prop :=
  ∃ axis, a.far axis ≤ b.start axis ∨ b.far axis ≤ a.start axis

/-- The box lies on the positive side, and so close to the origin that the sum of two positions in
it is an extent. -/
def IsClose (rect : Rect) : Prop :=
  ∀ axis, 0 ≤ rect.start axis ∧ 0 ≤ rect.extent axis ∧ 2 * rect.far axis ≤ Extent.inf

/-- The box lies on the positive side, and all positions in it are finite extents. -/
def IsProper (rect : Rect) : Prop :=
  ∀ axis, 0 ≤ rect.start axis ∧ 0 ≤ rect.extent axis ∧ rect.far axis < Extent.inf

theorem IsClose.isProper {rect : Rect} (h : rect.IsClose) : rect.IsProper := fun axis => by
  have hinf : Extent.inf = 2147483647 := rfl
  obtain ⟨hs, he, hf⟩ := h axis
  unfold far at *
  exact ⟨hs, he, by omega⟩

theorem IsProper.of_isInside {inner outer : Rect} (h : outer.IsProper) (hi : inner.IsInside outer)
    (hn : ∀ axis, 0 ≤ inner.extent axis) : inner.IsProper := fun axis => by
  obtain ⟨h₁, h₂, h₃⟩ := h axis
  obtain ⟨hs, hf⟩ := hi axis
  exact ⟨by omega, hn axis, by omega⟩

theorem IsClose.of_isInside {inner outer : Rect} (h : outer.IsClose) (hi : inner.IsInside outer)
    (hn : ∀ axis, 0 ≤ inner.extent axis) : inner.IsClose := fun axis => by
  obtain ⟨h₁, h₂, h₃⟩ := h axis
  obtain ⟨hs, hf⟩ := hi axis
  exact ⟨by omega, hn axis, by omega⟩

/-- A box is shrunk on each axis by itself. -/
theorem inset_eq_ok_iff {rect inner : Rect} {insets : Insets} :
    rect.inset insets = .ok inner ↔ ∀ axis,
      Extent.add (rect.start axis) (insets.lead axis) = .ok (inner.start axis) ∧
        ∃ amount v, insets.total axis = .ok amount ∧ Extent.sub (rect.extent axis) amount = .ok v ∧
          inner.extent axis = max v 0 := by
  unfold inset
  simp only [bind_eq_ok_iff]
  constructor
  · rintro ⟨x, hx, y, hy, horizontal, hh, width, hw, vertical, hv, height, hht, e⟩
    cases e
    intro axis
    cases axis with
    | horizontal => exact ⟨hx, horizontal, width, hh, hw, rfl⟩
    | vertical => exact ⟨hy, vertical, height, hv, hht, rfl⟩
  · intro h
    obtain ⟨hx, horizontal, width, hh, hw, hwidth⟩ := h .horizontal
    obtain ⟨hy, vertical, height, hv, hht, hheight⟩ := h .vertical
    exact ⟨_, hx, _, hy, horizontal, hh, width, hw, vertical, hv, height, hht,
      congrArg Except.ok (congrArg (Rect.mk _) (congrArg₂ Size.mk hwidth.symm hheight.symm))⟩

/-- Insets that the box has room for. -/
theorem inset_eq {rect : Rect} (h : rect.IsProper) {insets : Insets} (hi : insets.IsNonneg)
    (ht : ∀ axis, insets.total axis = .ok (insets.amount axis)) {inner : Size} (hn : inner.IsNonneg)
    (hsize : ∀ axis, rect.extent axis = inner.along axis + insets.amount axis) :
    ∃ shrunk, rect.inset insets = .ok shrunk ∧ shrunk.size = inner ∧ shrunk.IsInside rect := by
  have hlead (axis : Axis) : 0 ≤ insets.lead axis ∧ insets.lead axis ≤ insets.amount axis := by
    unfold Insets.IsNonneg at hi
    cases axis <;> simp only [Insets.lead, Insets.amount] <;> omega
  let shrunk : Rect := ⟨⟨rect.origin.x + insets.left, rect.origin.y + insets.top⟩, inner⟩
  have hstart (axis : Axis) : shrunk.start axis = rect.start axis + insets.lead axis := by
    cases axis <;> rfl
  have hextent (axis : Axis) : shrunk.extent axis = inner.along axis := rfl
  have hinf : Extent.inf = 2147483647 := rfl
  refine ⟨shrunk, inset_eq_ok_iff.2 fun axis => ?_, rfl, fun axis => ?_⟩
  · obtain ⟨hs, he, hf⟩ := h axis
    have hroom := hsize axis
    have hin := hn axis
    have hl := hlead axis
    unfold far at hf
    have hadd : Extent.add (rect.start axis) (insets.lead axis) = .ok _ :=
      Extent.IsLength.checked_eq ⟨by omega, by omega⟩
    have hsub : Extent.sub (rect.extent axis) (insets.amount axis) = .ok _ :=
      Extent.IsLength.checked_eq ⟨by omega, by omega⟩
    rw [hstart, hextent]
    exact ⟨hadd, _, _, ht axis, hsub, by omega⟩
  · have hroom := hsize axis
    have hl := hlead axis
    unfold far
    rw [hstart, hextent]
    exact ⟨by omega, by omega⟩

end Rect

namespace Alignment

theorem position_isOk (alignment : Alignment) (axis : Axis) {rect : Rect} (h : rect.IsProper)
    {child : Size} (hn : 0 ≤ child.along axis) (hle : child.along axis ≤ rect.extent axis) :
    ∃ pos, alignment.position axis rect child = .ok pos ∧ rect.start axis ≤ pos ∧
      pos + child.along axis ≤ rect.far axis := by
  obtain ⟨hs, he, hf⟩ := h axis
  have hinf : Extent.inf = 2147483647 := rfl
  unfold Rect.far at *
  have hoffset := (alignment.anchor axis).offset_eq_lead he (by omega)
    (show Extent.IsLength (child.along axis) from ⟨hn, by omega⟩)
  obtain ⟨hlow, hhigh⟩ := (alignment.anchor axis).lead_bounds (Int.sub_nonneg_of_le hle)
  have hrange : Extent.IsLength (rect.start axis +
      (alignment.anchor axis).lead (rect.extent axis - child.along axis)) :=
    ⟨by omega, by omega⟩
  exact ⟨_, position_eq_ok_iff.2 ⟨_, hoffset, hrange.inRange, rfl⟩, by omega, by omega⟩

/-- A child is positioned on each axis by itself, and keeps its size. -/
theorem slot_eq_ok_iff {alignment : Alignment} {bounds slot : Rect} {child : Size} :
    alignment.slot bounds child = .ok slot ↔ slot.size = child ∧
      ∀ axis, alignment.position axis bounds child = .ok (slot.start axis) := by
  unfold Alignment.slot
  simp only [bind_eq_ok_iff]
  constructor
  · rintro ⟨x, hx, y, hy, e⟩
    cases e
    refine ⟨rfl, fun axis => ?_⟩
    cases axis with
    | horizontal => exact hx
    | vertical => exact hy
  · rintro ⟨rfl, h⟩
    exact ⟨_, h .horizontal, _, h .vertical, rfl⟩

/-- A child that is no larger than the box is aligned inside it. -/
theorem slot_isOk (alignment : Alignment) {rect : Rect} (h : rect.IsProper) {child : Size}
    (hn : child.IsNonneg) (hle : ∀ axis, child.along axis ≤ rect.extent axis) :
    ∃ slot, alignment.slot rect child = .ok slot ∧ slot.size = child ∧ slot.IsInside rect := by
  obtain ⟨x, hx, hxs, hxf⟩ := alignment.position_isOk .horizontal h (hn _) (hle _)
  obtain ⟨y, hy, hys, hyf⟩ := alignment.position_isOk .vertical h (hn _) (hle _)
  refine ⟨⟨⟨x, y⟩, child⟩, slot_eq_ok_iff.2 ⟨rfl, fun axis => ?_⟩, rfl, fun axis => ?_⟩
  · cases axis with
    | horizontal => exact hx
    | vertical => exact hy
  · cases axis with
    | horizontal => exact ⟨hxs, hxf⟩
    | vertical => exact ⟨hys, hyf⟩

end Alignment

theorem Leaf.ideal_place (leaf : Leaf) (bounds : Rect) :
    (leaf.place bounds).ideal = leaf.ideal := by cases leaf <;> rfl

namespace Node

/-- Children lie inside the node and apart from each other, and a leaf has the size it wants. -/
structure IsTidy (node : Node) : Prop where
  inside : ∀ child ∈ node.visited, child.bounds.IsInside node.bounds
  apart : node.visited.Pairwise fun a b => a.bounds.IsApart b.bounds
  ideal_le : ∀ frame content, node = leaf frame content →
    ∃ ideal, content.ideal = some (.ok ideal) ∧
      ∀ axis, ideal.along axis ≤ frame.bounds.extent axis

/-- In a box of the given size the node can be placed, and is tidy then. -/
def Places (node : Node) (size : Size) : Prop := ∀ rect : Rect, rect.size = size → rect.IsClose →
  ∃ placed, node.place rect = .ok placed ∧ placed.node.bounds = rect ∧
    placed.node.AllReached IsTidy ∧ placed.node.isLive = node.isLive

/-- The slot that a node in the box `bounds` has for a child that takes part. -/
inductive Hands : Node → Rect → Node → Rect → Prop
  | padding {frame : Frame} {insets : Insets} {child : Node} {bounds slot : Rect}
      (h : bounds.inset insets = .ok slot) : Hands (padding frame insets child) bounds child slot
  | align {frame : Frame} {alignment : Alignment} {measured : Size} {child : Node}
      {bounds slot : Rect} (h : alignment.slot bounds measured = .ok slot) :
      Hands (align frame alignment measured child) bounds child slot
  | stack {frame : Frame} {style : StackStyle} {totals : StackTotals} {items : List (Item Node)}
      {bounds slot : Rect} {i : Nat} {item : Item Node} (hi : items[i]? = some item)
      (hl : item.node.isLive = true)
      (h : (style.slots bounds totals (measuredSizes items)).toList[i]? = some (some slot)) :
      Hands (stack frame style totals items) bounds item.node slot
  | table {frame : Frame} {grid : Grid} {cells : List (Option Node)} {bounds slot : Rect} {i : Nat}
      {child : Node} (hi : cells[i]? = some (some child)) (hl : child.isLive = true)
      (h : grid.slot (grid.lines .horizontal bounds.origin.x)
        (grid.lines .vertical bounds.origin.y) i = .ok slot) :
      Hands (table frame grid cells) bounds child slot

/-- Placed in the box, the node or one below it spaces its children out so that the gap after the
last one ends past the greatest extent. -/
inductive Overruns : Node → Rect → Prop
  | here {frame : Frame} {style : StackStyle} {totals : StackTotals} {items : List (Item Node)}
      {bounds : Rect} {spacing : Spacing} (hjustify : style.justify = .spaceBetween)
      (hcount : 1 < liveCount items)
      (hspacing : style.spacing bounds totals (liveCount items) = .ok spacing)
      (hend : Extent.inf < bounds.start style.axis + spacing.lead +
        List.sum ((items.filter (·.node.isLive)).map
          (·.measured.along style.axis + spacing.gap))) :
      Overruns (stack frame style totals items) bounds
  | deeper {node child : Node} {bounds slot : Rect} (hands : node.Hands bounds child slot)
      (h : Overruns child slot) : Overruns node bounds

/-- In a proper box of the given size the node overruns, which takes a box that is not close to the
origin, or can be placed and is tidy then. -/
def Arranges (node : Node) (size : Size) : Prop :=
  ∀ rect : Rect, rect.size = size → rect.IsProper →
    Outcome (overflowIf (node.Overruns rect ∧ ¬ rect.IsClose))
      (fun placed => placed.node.bounds = rect ∧ placed.node.AllReached IsTidy ∧
        placed.node.isLive = node.isLive) (node.place rect)

theorem Arranges.places {node : Node} {size : Size} (h : node.Arranges size) :
    node.Places size := fun rect hsize hclose =>
  (h rect hsize hclose.isProper).eq_ok fun _ hcause => hcause.2.2 hclose

/-- A child is placed in the slot that a node has for it, unless it overruns and the node with
it. -/
theorem Hands.place {node child : Node} {bounds slot : Rect} (h : node.Hands bounds child slot)
    (hc : child.Arranges slot.size) (hbounds : bounds.IsProper) (hinside : slot.IsInside bounds)
    (hn : slot.size.IsNonneg) :
    Outcome (overflowIf (node.Overruns bounds ∧ ¬ bounds.IsClose))
      (fun placed => placed.node.bounds = slot ∧ placed.node.AllReached IsTidy ∧
        placed.node.isLive = child.isLive) (child.place slot) := by
  refine (hc slot rfl (hbounds.of_isInside hinside hn)).mono ?_ fun _ => id
  rintro fault ⟨rfl, hover, hclose⟩
  exact ⟨rfl, .deeper h hover, fun hb => hclose (hb.of_isInside hinside hn)⟩

variable {frame : Frame}

theorem Arranges.leaf {content : Leaf} {ideal size : Size} (hi : content.ideal = some (.ok ideal))
    (hle : ∀ axis, ideal.along axis ≤ size.along axis) :
    (Node.leaf frame content).Arranges size := by
  rintro rect rfl -
  rw [place]
  refine .ok ⟨rfl, allReached_leaf.2 ⟨nofun, .nil, ?_⟩, ?_⟩
  · rintro _ _ ⟨⟩
    exact ⟨ideal, (Leaf.ideal_place ..).trans hi, hle⟩
  · rw [isLive_leaf, isLive_leaf, Leaf.visibility_place]

/-- A container with one child, which lies inside it. -/
theorem isTidy_of_visited_eq {node child : Node} (hv : node.visited = [child])
    (hi : child.bounds.IsInside node.bounds) (hc : child.AllReached IsTidy) :
    node.AllReached IsTidy := by
  refine (allReached_iff _).2 ⟨⟨?_, ?_, ?_⟩, ?_⟩
  · rw [hv]
    exact List.forall_mem_singleton.2 hi
  · rw [hv]
    exact List.pairwise_singleton ..
  · rintro frame content rfl
    cases hv
  · rw [hv]
    exact List.forall_mem_singleton.2 hc

theorem Arranges.padding {insets : Insets} {child : Node} {inner size : Size}
    (hi : insets.IsNonneg) (ht : ∀ axis, insets.total axis = .ok (insets.amount axis))
    (hn : inner.IsNonneg)
    (hsize : ∀ axis, size.along axis = inner.along axis + insets.amount axis)
    (hc : child.Arranges inner) : (Node.padding frame insets child).Arranges size := by
  rintro rect rfl hproper
  obtain ⟨shrunk, hs, rfl, hinside⟩ := Rect.inset_eq hproper hi ht hn hsize
  rw [place]
  refine Outcome.map (.bind_ok hs (.bind (Hands.place (.padding hs) hc hproper hinside hn) ?_))
    fun _ => id
  rintro placed ⟨hb, htidy, -⟩
  refine .ok ⟨rfl, isTidy_of_visited_eq rfl (hb ▸ hinside) htidy, ?_⟩
  rw [isLive_padding, isLive_padding]

theorem Arranges.align {alignment : Alignment} {measured size : Size} {child : Node}
    (hn : measured.IsNonneg) (hle : ∀ axis, measured.along axis ≤ size.along axis)
    (hc : child.Arranges measured) : (Node.align frame alignment measured child).Arranges size := by
  rintro rect rfl hproper
  obtain ⟨slot, hs, rfl, hinside⟩ := alignment.slot_isOk hproper hn hle
  rw [place]
  refine Outcome.map (.bind_ok hs (.bind (Hands.place (.align hs) hc hproper hinside hn) ?_))
    fun _ => id
  rintro placed ⟨hb, htidy, -⟩
  refine .ok ⟨rfl, isTidy_of_visited_eq rfl (hb ▸ hinside) htidy, ?_⟩
  rw [isLive_align, isLive_align]

end Node

end BoxLayout
