import BoxLayout.Extent

/-!
# Extents from fractional numbers

Scaling by a factor leaves the whole numbers. `Extent.truncate` leads back.
-/

namespace BoxLayout

namespace Extent

/-- The extent that `x` reaches, rounded towards zero and held at the ends of the range; a value
that is not a number gives zero. -/
def truncate (x : Float) : Int :=
  if x < 0 then max least (-((-x).toUInt32.toNat : Int)) else min inf x.toUInt32.toNat

theorem inRange_truncate (x : Float) : InRange (truncate x) := by
  unfold truncate
  split <;> simp only [InRange, least, inf] <;> omega

theorem truncate_nonneg {x : Float} (h : ¬ x < 0) : 0 ≤ truncate x := by
  rw [truncate, if_neg h]
  simp only [inf]
  omega

end Extent

end BoxLayout
