/-!
# Extents

An extent is a length or position along one axis: a whole number of pixels between `least` and
`inf`. The greatest one, `inf`, stands for *unbounded*, and the operations here keep it so:

* `infOr_inf`: what is computed from an unbounded extent stays unbounded.
* `saturatingAdd_inf_left`, `saturatingAdd_inf_right`: an unbounded part makes a sum unbounded.
* `inRange_saturatingAdd`: a sum of extents is an extent, held at the ends of the range.

The operations that can fail are in `BoxLayout.Extent.Checked`.
-/

namespace BoxLayout

namespace Extent

/-- The smallest extent. -/
def least : Int := -2147483648

/-- The unbounded extent, which is also the greatest. -/
def inf : Int := 2147483647

/-- `v` is an extent. -/
def InRange (v : Int) : Prop := least ≤ v ∧ v ≤ inf

instance (v : Int) : Decidable (InRange v) := inferInstanceAs (Decidable (_ ∧ _))

/-- The extent nearest to `v`. -/
def saturate (v : Int) : Int := max least (min v inf)

/-- The extent that agrees with `v` in the low 32 bits. -/
def wrap (v : Int) : Int := v.bmod 4294967296

/-- Unbounded if `a` is, and `b` otherwise. -/
def infOr (a b : Int) : Int := if a = inf then inf else b

/-- The sum of two extents: unbounded if one of them is. -/
def saturatingAdd (a b : Int) : Int := if a = inf ∨ b = inf then inf else saturate (a + b)

/-- The extent `v`, `n` times: unbounded if `v` is. -/
def saturatingMul (v n : Int) : Int := if v = inf then inf else saturate (v * n)

/-- The sum of all of `vs`. -/
def total (vs : List Int) : Int := vs.foldl saturatingAdd 0

/-- The greatest of `vs`, zero if there is none. -/
def largest (vs : List Int) : Int := vs.max?.getD 0

/-- An extent in decimal, the unbounded one as a word. -/
def text (v : Int) : String := if v = inf then "inf" else toString v

/-! ## Range -/

theorem inRange_saturate (v : Int) : InRange (saturate v) := by
  simp only [InRange, saturate, least, inf]; omega

theorem inRange_wrap (v : Int) : InRange (wrap v) := by
  have := @Int.le_bmod v 4294967296 (by decide)
  have := @Int.bmod_lt v 4294967296 (by decide)
  simp only [InRange, wrap, least, inf] at *; omega

theorem wrap_of_inRange {v : Int} (h : InRange v) : wrap v = v := by
  simp only [InRange, least, inf] at h
  exact Int.bmod_eq_of_le (by omega) (by omega)

/-! ## The unbounded extent -/

@[simp] theorem infOr_inf (b : Int) : infOr inf b = inf := by simp [infOr]

theorem infOr_of_ne {a : Int} (h : a ≠ inf) (b : Int) : infOr a b = b := by
  simp [infOr, h]

@[simp] theorem saturatingAdd_inf_left (b : Int) : saturatingAdd inf b = inf := by
  simp [saturatingAdd]

@[simp] theorem saturatingAdd_inf_right (a : Int) : saturatingAdd a inf = inf := by
  simp [saturatingAdd]

theorem inRange_saturatingAdd (a b : Int) : InRange (saturatingAdd a b) := by
  unfold saturatingAdd
  split
  · decide
  · exact inRange_saturate _

@[simp] theorem total_nil : total [] = 0 := rfl

end Extent

end BoxLayout
