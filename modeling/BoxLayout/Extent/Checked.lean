import BoxLayout.Fault

/-!
# Arithmetic that stays in range

Sums, differences and products that fail with `Fault.overflow` where the exact result is no extent,
and the proportional part `Extent.scale`, which every way of sharing out space goes through.

* `checked_eq_ok_iff`, `checked_eq_error_iff`: when a result is kept and when it is refused.
* `scale_of_le`: a proper part is `value * num / den`, rounded towards zero.
-/

namespace BoxLayout

namespace Extent

/-- `v` itself, if it is an extent. -/
def checked (v : Int) : Except Fault Int := if InRange v then .ok v else .error .overflow

def add (a b : Int) : Except Fault Int := checked (a + b)

def sub (a b : Int) : Except Fault Int := checked (a - b)

def mul (a b : Int) : Except Fault Int := checked (a * b)

/-- `v` itself, if it fits in a signed word of 64 bits. -/
def checkedWide (v : Int) : Except Fault Int :=
  if -9223372036854775808 ≤ v ∧ v ≤ 9223372036854775807 then .ok v else .error .overflow

/-- The part `num / den` of `value`, rounded towards zero: product and quotient are computed in a
wide word, of which the extent keeps the low half. An unbounded value stays so, and a part of
nothing is zero. -/
def scale (value num den : Int) : Except Fault Int :=
  if value = inf then .ok inf
  else if den = 0 then .ok 0
  else do
    let product ← checkedWide (value * num)
    let quotient ← checkedWide (product.tdiv den)
    return wrap quotient

/-! ## When they succeed -/

theorem checked_of_inRange {v : Int} (h : InRange v) : checked v = .ok v := if_pos h

theorem checked_eq_ok_iff {v r : Int} : checked v = .ok r ↔ InRange v ∧ r = v := by
  unfold checked
  split <;> simp_all [eq_comm]

theorem checked_eq_error_iff {v : Int} {fault : Fault} :
    checked v = .error fault ↔ ¬ InRange v ∧ fault = .overflow := by
  unfold checked
  split <;> simp_all [eq_comm]

theorem add_eq_ok_iff {a b r : Int} : add a b = .ok r ↔ InRange (a + b) ∧ r = a + b :=
  checked_eq_ok_iff

theorem sub_eq_ok_iff {a b r : Int} : sub a b = .ok r ↔ InRange (a - b) ∧ r = a - b :=
  checked_eq_ok_iff

theorem mul_eq_ok_iff {a b r : Int} : mul a b = .ok r ↔ InRange (a * b) ∧ r = a * b :=
  checked_eq_ok_iff

theorem checkedWide_eq_ok_iff {v r : Int} :
    checkedWide v = .ok r ↔
      (-9223372036854775808 ≤ v ∧ v ≤ 9223372036854775807) ∧ r = v := by
  unfold checkedWide
  split <;> rename_i h
  · simp [h, eq_comm]
  · simp [h]

@[simp] theorem scale_inf (num den : Int) : scale inf num den = .ok inf := by simp [scale]

theorem scale_of_inRange {value num den : Int} (hv : value ≠ inf) (hd : den ≠ 0)
    (hp : -9223372036854775808 ≤ value * num ∧ value * num ≤ 9223372036854775807)
    (hq : InRange ((value * num).tdiv den)) :
    scale value num den = .ok ((value * num).tdiv den) := by
  have hw : checkedWide ((value * num).tdiv den) = .ok ((value * num).tdiv den) :=
    checkedWide_eq_ok_iff.2 ⟨by simp only [InRange, least, inf] at hq; omega, rfl⟩
  rw [scale, if_neg hv, if_neg hd, checkedWide_eq_ok_iff.2 ⟨hp, rfl⟩]
  show (do let quotient ← checkedWide ((value * num).tdiv den); return wrap quotient) = _
  rw [hw]
  exact congrArg Except.ok (wrap_of_inRange hq)

theorem mul_bounds {value num bound : Int} (hv : InRange value) (h₀ : 0 ≤ num)
    (h₁ : num ≤ bound) : least * bound ≤ value * num ∧ value * num ≤ inf * bound := by
  simp only [InRange, least, inf] at *
  have lower := Int.mul_le_mul_of_nonneg_right hv.1 h₀
  have upper := Int.mul_le_mul_of_nonneg_right hv.2 h₀
  omega

theorem inRange_tdiv {p den : Int} (hd : 0 < den) (lower : least * den ≤ p)
    (upper : p ≤ inf * den) : InRange (p.tdiv den) := by
  simp only [InRange, least, inf] at *
  rcases Int.le_total 0 p with hp | hp
  · rw [Int.tdiv_eq_ediv_of_nonneg hp]
    have := Int.ediv_nonneg hp (Int.le_of_lt hd)
    have := Int.ediv_le_of_le_mul hd upper
    omega
  · have hneg : 0 ≤ -p := by omega
    have h₁ := Int.ediv_nonneg hneg (Int.le_of_lt hd)
    have h₂ := Int.ediv_le_of_le_mul hd (show -p ≤ 2147483648 * den by omega)
    rw [← Int.neg_neg p, Int.neg_tdiv, Int.tdiv_eq_ediv_of_nonneg hneg]
    omega

/-- A proper part of an extent is an extent, and nothing is lost on the way. -/
theorem scale_of_le {value num den : Int} (hv : InRange value) (hne : value ≠ inf) (h₀ : 0 ≤ num)
    (h₁ : num ≤ den) (hd : 0 < den) (hw : den ≤ 4294967296) :
    scale value num den = .ok ((value * num).tdiv den) := by
  have hp := mul_bounds hv h₀ h₁
  refine scale_of_inRange hne (by omega) ?_ (inRange_tdiv hd hp.1 hp.2)
  simp only [least, inf] at hp
  omega

end Extent

end BoxLayout
