import Mathlib.Algebra.Order.BigOperators.Group.List
import Mathlib.Algebra.Order.Ring.Int
import BoxLayout.Align.Anchor
import BoxLayout.Stack.Sharing

/-!
# Lengths

Extents that are not negative. Among them the saturating sum is the exact sum cut off at `inf`
(`total_eq_min`), so that it grows with its parts, and a proportional part lies between zero and
the whole (`scale_eq_ediv`, `part_bounds`).
-/

namespace BoxLayout

namespace Extent

/-- `v` is an extent that is not negative. -/
def IsLength (v : Int) : Prop := 0 ≤ v ∧ v ≤ inf

instance (v : Int) : Decidable (IsLength v) := inferInstanceAs (Decidable (_ ∧ _))

theorem isLength_inf : IsLength inf := by simp [IsLength, inf]

theorem isLength_zero : IsLength 0 := by simp [IsLength, inf]

theorem IsLength.inRange {v : Int} (h : IsLength v) : InRange v := by
  simp only [IsLength, InRange, least, inf] at *; omega

/-- The number of some things is an extent if there are not too many of them. -/
theorem wrap_count {n : Nat} (h : n ≤ inf) : wrap n = n :=
  wrap_of_inRange (IsLength.inRange ⟨Int.natCast_nonneg n, h⟩)

theorem IsLength.checked_eq {v : Int} (h : IsLength v) : checked v = .ok v :=
  checked_of_inRange h.inRange

/-! ## Sums -/

theorem saturatingAdd_eq_min {a b : Int} (ha : 0 ≤ a) (hb : 0 ≤ b) :
    saturatingAdd a b = min (a + b) inf := by
  unfold saturatingAdd
  split
  · omega
  · simp only [saturate, least, inf] at *; omega

theorem isLength_saturatingAdd {a b : Int} (ha : 0 ≤ a) (hb : 0 ≤ b) :
    IsLength (saturatingAdd a b) := by
  rw [saturatingAdd_eq_min ha hb]
  simp only [IsLength, inf]; omega

theorem sum_filter_le {α : Type} {f : α → Int} {p q : α → Bool} {xs : List α}
    (h : ∀ x ∈ xs, p x = true → 0 ≤ f x) (hqp : ∀ x, q x = true → p x = true) :
    List.sum ((xs.filter q).map f) ≤ List.sum ((xs.filter p).map f) := by
  refine ((List.monotone_filter_right xs hqp).map f).sum_le_sum fun v hv => ?_
  obtain ⟨x, hx, rfl⟩ := List.mem_map.1 hv
  obtain ⟨hm, hp⟩ := List.mem_filter.1 hx
  exact h x hm hp

theorem sum_filter_add {α : Type} {p q : α → Bool} (hqp : ∀ x, q x = true → p x = true)
    (f g : α → Int) (xs : List α) :
    List.sum ((xs.filter p).map fun x => if q x then f x + g x else f x) =
      List.sum ((xs.filter p).map f) + List.sum ((xs.filter q).map g) := by
  induction xs with
  | nil => rfl
  | cons x xs ih =>
    rw [List.filter_cons, List.filter_cons]
    by_cases hq : q x = true
    · rw [if_pos (hqp x hq), if_pos hq]
      simp only [List.map_cons, List.sum_cons, if_pos hq, ih]
      omega
    · rw [if_neg hq]
      split
      · simp only [List.map_cons, List.sum_cons, if_neg hq, ih]
        omega
      · exact ih

theorem sum_map_add {α : Type} (f : α → Int) (c : Int) (xs : List α) :
    List.sum (xs.map (f · + c)) = List.sum (xs.map f) + xs.length * c := by
  rw [List.sum_map_add, List.map_const', List.sum_replicate, nsmul_eq_mul]

theorem foldl_add (vs : List Int) (a : Int) : vs.foldl (· + ·) a = a + vs.sum := by
  induction vs generalizing a with
  | nil => simp
  | cons v vs ih => rw [List.foldl_cons, ih, List.sum_cons, Int.add_assoc]

theorem sum_take_succ {vs : List Int} {k : Nat} {v : Int} (h : vs[k]? = some v) :
    (vs.take (k + 1)).sum = (vs.take k).sum + v := by
  rw [List.take_add_one, h, List.sum_append_int, Option.toList_some, List.sum_singleton]

theorem foldl_saturatingAdd {vs : List Int} (h : ∀ v ∈ vs, 0 ≤ v) {a : Int}
    (ha : IsLength a) : vs.foldl saturatingAdd a = min (a + vs.sum) inf := by
  induction vs generalizing a with
  | nil => simp only [IsLength, List.foldl_nil, List.sum_nil] at *; omega
  | cons v vs ih =>
    have hv := h v List.mem_cons_self
    have hvs : ∀ v ∈ vs, 0 ≤ v := fun v hm => h v (List.mem_cons_of_mem _ hm)
    have hs := List.sum_nonneg hvs
    rw [List.foldl_cons, ih hvs (isLength_saturatingAdd ha.1 hv), saturatingAdd_eq_min ha.1 hv,
      List.sum_cons]
    omega

theorem total_eq_min {vs : List Int} (h : ∀ v ∈ vs, 0 ≤ v) : total vs = min vs.sum inf := by
  rw [total, foldl_saturatingAdd h isLength_zero, Int.zero_add]

theorem isLength_total {vs : List Int} (h : ∀ v ∈ vs, 0 ≤ v) : IsLength (total vs) := by
  have hs := List.sum_nonneg h
  rw [total_eq_min h]
  simp only [IsLength, inf]; omega

theorem le_total {vs : List Int} (h : ∀ v ∈ vs, IsLength v) {v : Int} (hv : v ∈ vs) :
    v ≤ total vs := by
  have hnn : ∀ v ∈ vs, 0 ≤ v := fun v hv => (h v hv).1
  have hs := List.single_le_sum hnn v hv
  have := (h v hv).2
  rw [total_eq_min hnn]; omega

/-- A finite total is the exact sum. -/
theorem total_eq_sum {vs : List Int} (h : ∀ v ∈ vs, 0 ≤ v) (hf : total vs < inf) :
    total vs = vs.sum := by
  rw [total_eq_min h] at *
  omega

theorem total_eq_of_perm {vs ws : List Int} (h : vs.Perm ws) (hnn : ∀ v ∈ vs, 0 ≤ v) :
    total vs = total ws := by
  rw [total_eq_min hnn, total_eq_min fun v hv => hnn v (h.mem_iff.2 hv), h.sum_eq]

theorem isLength_saturatingMul {v n : Int} (h : 0 ≤ v) (hn : 0 ≤ n) :
    IsLength (saturatingMul v n) := by
  unfold saturatingMul
  split
  · exact isLength_inf
  · have hpos : 0 ≤ v * n := Int.mul_nonneg h hn
    simp only [saturate, least, inf, IsLength] at *
    omega

/-! ## Maxima -/

theorem le_foldl_max {vs : List Int} {a : Int} :
    a ≤ vs.foldl max a ∧ ∀ v ∈ vs, v ≤ vs.foldl max a := by
  induction vs generalizing a with
  | nil => simp
  | cons w vs ih =>
    obtain ⟨h₁, h₂⟩ := @ih (max a w)
    refine ⟨by rw [List.foldl_cons]; omega, fun v hv => ?_⟩
    rw [List.foldl_cons]
    rcases List.mem_cons.1 hv with rfl | hv
    · omega
    · exact h₂ v hv

theorem foldl_max_le {vs : List Int} {a bound : Int} (ha : a ≤ bound) (h : ∀ v ∈ vs, v ≤ bound) :
    vs.foldl max a ≤ bound := by
  induction vs generalizing a with
  | nil => exact ha
  | cons w vs ih =>
    have hw := h w List.mem_cons_self
    exact ih (by omega) fun v hv => h v (List.mem_cons_of_mem _ hv)

theorem isLength_foldl_max {vs : List Int} (h : ∀ v ∈ vs, IsLength v) :
    IsLength (vs.foldl max 0) :=
  ⟨le_foldl_max.1, foldl_max_le isLength_zero.2 fun v hv => (h v hv).2⟩

theorem largest_eq_foldl {vs : List Int} (h : ∀ v ∈ vs, 0 ≤ v) : largest vs = vs.foldl max 0 := by
  cases vs with
  | nil => rfl
  | cons v vs =>
    have hv := h v List.mem_cons_self
    rw [largest, List.max?_cons', Option.getD_some, List.foldl_cons, Int.max_eq_right hv]

theorem isLength_largest {vs : List Int} (h : ∀ v ∈ vs, IsLength v) : IsLength (largest vs) := by
  rw [largest_eq_foldl fun v hv => (h v hv).1]
  exact isLength_foldl_max h

theorem largest_eq_of_perm {vs ws : List Int} (h : vs.Perm ws) :
    largest vs = largest ws := by
  refine congrArg (Option.getD · 0) ?_
  cases hm : vs.max? with
  | none =>
    rw [List.max?_eq_none_iff.1 hm] at h
    rw [List.nil_perm.1 h]
    rfl
  | some v =>
    obtain ⟨hmem, hle⟩ := List.max?_eq_some_iff.1 hm
    exact (List.max?_eq_some_iff.2 ⟨h.mem_iff.1 hmem, fun w hw => hle w (h.mem_iff.2 hw)⟩).symm

/-! ## Parts -/

theorem part_bounds {value num den : Int} (hv : 0 ≤ value) (h₀ : 0 ≤ num) (h₁ : num ≤ den)
    (hd : 0 < den) : 0 ≤ value * num / den ∧ value * num / den ≤ value :=
  ⟨Int.ediv_nonneg (Int.mul_nonneg hv h₀) (Int.le_of_lt hd),
    Int.ediv_le_of_le_mul hd (Int.mul_le_mul_of_nonneg_left h₁ hv)⟩

/-- A proper part of a length, whatever it is a part of. -/
theorem scale_eq_ediv {value num den : Int} (hv : IsLength value) (hne : value ≠ inf)
    (h₀ : 0 ≤ num) (h₁ : num ≤ den) (hd : 0 < den) (hw : num ≤ 4294967296) :
    scale value num den = .ok (value * num / den) := by
  have hp := Int.mul_nonneg hv.1 h₀
  have hu : value * num ≤ inf * 4294967296 := Int.mul_le_mul hv.2 hw h₀ isLength_inf.1
  obtain ⟨lower, upper⟩ := part_bounds hv.1 h₀ h₁ hd
  rw [← Int.tdiv_eq_ediv_of_nonneg hp] at lower upper ⊢
  refine scale_of_inRange hne (by omega) ?_ ?_
  · simp only [inf] at hu; omega
  · simp only [IsLength, InRange, least, inf] at *; omega

/-- An equal part of a length, which may be unbounded. -/
theorem scale_one {value den : Int} (hv : IsLength value) (hd : 0 < den) :
    ∃ part, scale value 1 den = .ok part ∧ IsLength part := by
  rcases Classical.em (value = inf) with rfl | hne
  · exact ⟨inf, scale_inf _ _, isLength_inf⟩
  · have hb := part_bounds hv.1 (show (0 : Int) ≤ 1 by decide) hd hd
    exact ⟨_, scale_eq_ediv hv hne (by decide) hd hd (by decide), hb.1, Int.le_trans hb.2 hv.2⟩

end Extent

end BoxLayout
