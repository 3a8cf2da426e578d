import BoxLayout.Extent.Rounding

/-!
# Size factors

An aligned child may ask for a box that is larger or smaller than itself by a factor per axis.
Factors have single precision; only a positive one has an effect.
-/

namespace BoxLayout

/-- By how much a reported extent differs from that of the child. -/
inductive Factor where
  /-- Not at all. -/
  | natural
  /-- The child's extent times a positive factor. -/
  | times (factor : Float)
  deriving Inhabited

namespace Factor

/-- The factor next to `x` in single precision; none unless that is positive. -/
def ofFloat (x : Float) : Factor :=
  let single := x.toFloat32.toFloat
  if single > 0 then times single else natural

/-- The factor applied to an extent; an unbounded extent stays so. -/
def apply (factor : Factor) (v : Int) : Int :=
  match factor with
  | natural => v
  | times factor => if v = Extent.inf then v else Extent.truncate (.ofInt v * factor)

@[simp] theorem apply_natural (v : Int) : natural.apply v = v := rfl

@[simp] theorem apply_inf (factor : Factor) : factor.apply Extent.inf = Extent.inf := by
  cases factor <;> simp [apply]

end Factor

end BoxLayout
