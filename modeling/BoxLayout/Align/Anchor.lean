import BoxLayout.Extent.Checked

/-!
# Anchors

A position between the start edge and the end edge of a box, in hundredths. `Anchor.offset` turns
it into the distance at which a smaller span starts inside a larger one.

* `offset_start`, `offset_stop`: the ends of the scale put the span at the ends of the box.
-/

namespace BoxLayout

/-- A position from the start edge (0) to the end edge (100). -/
structure Anchor where
  value : Nat
  value_le : value ≤ 100 := by decide
  deriving DecidableEq, Repr

namespace Anchor

def start : Anchor := ⟨0, by decide⟩

def center : Anchor := ⟨50, by decide⟩

def stop : Anchor := ⟨100, by decide⟩

instance : Inhabited Anchor := ⟨center⟩

/-- The anchor at `value`, which must lie on the scale. -/
def ofNat (value : Nat) : Except Fault Anchor :=
  if h : value ≤ 100 then .ok ⟨value, h⟩ else .error (.anchorOutOfRange value)

/-- Where a span of extent `child` starts inside one of extent `extent`. -/
def offset (anchor : Anchor) (extent child : Int) : Except Fault Int := do
  Extent.scale (← Extent.sub extent child) anchor.value 100

theorem offset_eq {anchor : Anchor} {extent child : Int}
    (h : Extent.InRange (extent - child)) (hinf : extent - child ≠ Extent.inf) :
    anchor.offset extent child = .ok (((extent - child) * anchor.value).tdiv 100) := by
  have hv := anchor.value_le
  rw [offset, Extent.sub, Extent.checked_of_inRange h]
  exact Extent.scale_of_le h hinf (by omega) (by omega) (by decide) (by decide)

theorem offset_start {extent child : Int} (h : Extent.InRange (extent - child))
    (hinf : extent - child ≠ Extent.inf) : start.offset extent child = .ok 0 := by
  rw [offset_eq h hinf]; simp [start]

theorem offset_stop {extent child : Int} (h : Extent.InRange (extent - child))
    (hinf : extent - child ≠ Extent.inf) : stop.offset extent child = .ok (extent - child) := by
  rw [offset_eq h hinf]
  exact congrArg Except.ok (Int.mul_tdiv_cancel _ (by decide))

end Anchor

end BoxLayout
