import Mathlib
import BoxLayout.Proofs.Extents

/-!
# Signs

Where a tree holds nothing negative (`Node.HasLengths`), its least extents are lengths
(`Node.isLength_of_minExtent`). An alignment scales a least extent by a factor, which leaves the
whole numbers. The product of a length and a positive factor is no number below zero, since neither
of them has a sign, and so it leads back to a length (`Factor.isLength_apply`). Only the sign of a
product is followed here, not its rounding.
-/

namespace BoxLayout

/-! ## Floating point -/

section Sign

open Float.Model Float.Model.UnpackedFloat

/-- The number has no minus sign, or is none. -/
def IsUnsigned : UnpackedFloat → Prop
  | .notANumber => True
  | .infinity sign | .zero sign | .finite sign .. => sign = .positive

theorem unpackSign_pack {spec : Format} {x : UnpackedFloat} (h : IsUnsigned x) :
    unpackSign (UnpackedFloat.pack spec x) = 0#1 := by
  cases x with
  | notANumber => exact unpackSign_packComponents ..
  | infinity sign | zero sign =>
    cases h
    exact unpackSign_packComponents ..
  | finite sign mantissa exponent hm =>
    cases h
    unfold UnpackedFloat.pack
    dsimp only
    split
    · exact unpackSign_packComponents ..
    · split <;> exact unpackSign_packComponents ..

theorem isUnsigned_unpack {spec : Format} {bits : BitVec spec.numBits}
    (h : unpackSign bits = 0#1) : IsUnsigned (UnpackedFloat.unpack spec bits) := by
  have hs : Sign.ofBitVec (unpackSign bits) = .positive := by rw [h]; rfl
  unfold UnpackedFloat.unpack
  dsimp only
  split
  · split
    · exact hs
    · trivial
  · split
    · split <;> exact hs
    · exact hs

/-- Being stored does not change the sign. -/
theorem isUnsigned_pack {x : UnpackedFloat} (h : IsUnsigned x) :
    IsUnsigned (Float.Model.pack x).unpack := isUnsigned_unpack (unpackSign_pack h)

theorem isUnsigned_roundWithAccuracy (spec : Format) (mantissa : Nat) (exponent : Int)
    (accuracy : Accuracy) :
    IsUnsigned (roundWithAccuracy spec .positive mantissa exponent accuracy) := by
  unfold roundWithAccuracy
  dsimp only
  split <;> rfl

theorem isUnsigned_mul {spec : Format} {x y : UnpackedFloat} (hx : IsUnsigned x)
    (hy : IsUnsigned y) : IsUnsigned (UnpackedFloat.mul spec x y) := by
  cases x <;> cases y <;> cases hx <;> cases hy <;>
    first | rfl | trivial | exact isUnsigned_roundWithAccuracy ..

theorem isUnsigned_ofNat (spec : Format) (n : Nat) : IsUnsigned (UnpackedFloat.ofNat spec n) := by
  have hn : compare (n : Int) 0 ≠ .lt := by
    rw [Ne, Int.compare_eq_lt]
    omega
  unfold UnpackedFloat.ofNat UnpackedFloat.ofInt UnpackedFloat.normalize
  split
  · contradiction
  · rfl
  · exact isUnsigned_roundWithAccuracy ..

/-- A length is turned into the product of itself and one. -/
theorem isUnsigned_ofInt {v : Int} (h : Extent.IsLength v) :
    IsUnsigned (Float.ofInt v).toModel.unpack := by
  obtain ⟨n, rfl⟩ := Int.eq_ofNat_of_zero_le h.1
  have hn := h.2
  have hone : unpackSign (show BitVec Format.binary64.numBits from 0x3FF0000000000000#64) =
      0#1 := by decide
  show IsUnsigned (Float.ofScientific n false 0).toModel.unpack
  rw [Float.ofScientific, dif_pos (by simp only [Extent.inf] at hn; omega)]
  exact isUnsigned_pack (isUnsigned_mul (isUnsigned_pack (isUnsigned_ofNat ..))
    (isUnsigned_unpack hone))

theorem isUnsigned_of_pos {x : Float} (h : 0 < x) : IsUnsigned x.toModel.unpack := by
  have hlt : UnpackedFloat.lt (.zero .positive) x.toModel.unpack = true := of_decide_eq_true h
  generalize x.toModel.unpack = y at hlt ⊢
  cases y with
  | notANumber => trivial
  | zero sign => cases hlt
  | infinity sign | finite sign =>
    cases sign with
    | positive => rfl
    | negative => cases hlt

theorem not_lt_zero_of_isUnsigned {x : Float} (h : IsUnsigned x.toModel.unpack) : ¬ x < 0 := by
  intro hx
  have hlt : UnpackedFloat.lt x.toModel.unpack (.zero .positive) = true := of_decide_eq_true hx
  generalize x.toModel.unpack = y at hlt h
  cases y <;> cases h <;> cases hlt

end Sign

namespace Factor

/-- The factor is greater than zero. -/
def IsPositive : Factor → Prop
  | natural => True
  | times factor => 0 < factor

instance (factor : Factor) : Decidable factor.IsPositive :=
  match factor with
  | natural => isTrue trivial
  | times factor => inferInstanceAs (Decidable (0 < factor))

/-- A factor that is given by a number is positive. -/
theorem isPositive_ofFloat (x : Float) : (ofFloat x).IsPositive := by
  unfold ofFloat
  dsimp only
  split
  · assumption
  · trivial

theorem isLength_apply {factor : Factor} (h : factor.IsPositive) {v : Int}
    (hv : Extent.IsLength v) : Extent.IsLength (factor.apply v) := by
  cases factor with
  | natural => exact hv
  | times factor =>
    rw [apply]
    split
    · exact hv
    · have hproduct : IsUnsigned (Float.ofInt v * factor).toModel.unpack :=
        isUnsigned_pack (isUnsigned_mul (isUnsigned_ofInt hv) (isUnsigned_of_pos h))
      exact ⟨Extent.truncate_nonneg (not_lt_zero_of_isUnsigned hproduct),
        (Extent.inRange_truncate _).2⟩

end Factor

/-! ## Least extents -/

theorem Extent.isClosed_isLength : IsClosed IsLength where
  inf := isLength_inf
  total h := isLength_total fun v hv => (h v hv).1
  largest := isLength_largest
  part h hd hs := by
    obtain ⟨part, hpart, hl⟩ := scale_one h hd
    rw [hpart] at hs
    exact Except.ok.inj hs ▸ hl

namespace Leaf

/-- The extents that the leaf holds are lengths, and its characters can be counted. -/
def HasLengths (leaf : Leaf) : Prop :=
  match leaf with
  | spacer size | canvas size _ _ => size.IsProper
  | button .. | text .. | portrait => leaf.IsCountable

instance (leaf : Leaf) : Decidable leaf.HasLengths :=
  match leaf with
  | .spacer size | .canvas size _ _ => inferInstanceAs (Decidable size.IsProper)
  | .button label visibility bounds =>
    inferInstanceAs (Decidable (button label visibility bounds).IsCountable)
  | .text content visibility bounds =>
    inferInstanceAs (Decidable (text content visibility bounds).IsCountable)
  | .portrait => inferInstanceAs (Decidable portrait.IsCountable)

theorem isLength_of_minExtent {leaf : Leaf} (h : leaf.HasLengths) {axis : Axis}
    {other least : Int} (ho : Extent.IsLength other) (hm : leaf.minExtent axis other = .ok least) :
    Extent.IsLength least := by
  cases leaf with
  | spacer | canvas =>
    cases hm
    exact h axis
  | button label =>
    obtain ⟨size, hs, hm⟩ := bind_eq_ok_iff.1 hm
    cases hm
    exact isProper_of_buttonSize h hs axis
  | text content =>
    cases axis with
    | horizontal =>
      have hword := Text.longestWord_le content.toList
      rw [String.length_toList] at hword
      exact (Text.isLength_of_widthOf (Nat.lt_of_le_of_lt hword h) hm).2
    | vertical =>
      obtain ⟨size, hs, hm⟩ := bind_eq_ok_iff.1 hm
      cases hm
      exact (Text.measure_eq_ok h hs).1 .vertical
  | portrait =>
    cases axis with
    | horizontal =>
      cases hm
      unfold Extent.infOr
      split
      · exact Extent.isLength_inf
      · rw [Int.tdiv_eq_ediv_of_nonneg ho.1]
        simp only [Extent.IsLength, Extent.inf] at *
        omega
    | vertical =>
      cases hm
      decide

end Leaf

namespace Node

/-- Nothing that the node holds leads to a negative least extent: the extents of a leaf are lengths
and its characters can be counted, as the slices of a stack can, insets are not negative, and
factors are positive, as those that are given by a number are. -/
def HasLengths : Node → Prop
  | leaf _ content => content.HasLengths
  | padding _ insets _ => insets.IsNonneg
  | align _ alignment _ _ => ∀ axis, (alignment.factor axis).IsPositive
  | stack frame style totals items => (stack frame style totals items).HasCountableSlices
  | table .. => True

instance (node : Node) : Decidable node.HasLengths :=
  match node with
  | leaf _ content => inferInstanceAs (Decidable content.HasLengths)
  | padding _ insets _ => inferInstanceAs (Decidable insets.IsNonneg)
  | align _ alignment _ _ =>
    inferInstanceAs (Decidable (∀ axis, (alignment.factor axis).IsPositive))
  | stack frame style totals items =>
    inferInstanceAs (Decidable (stack frame style totals items).HasCountableSlices)
  | table .. => isTrue trivial

theorem HasLengths.keeps {node : Node} (h : node.HasLengths) : node.Keeps Extent.IsLength := by
  cases node with
  | leaf frame content => exact fun axis other least ho hm => Leaf.isLength_of_minExtent h ho hm
  | padding frame insets child =>
    have hnonneg {axis : Axis} {amount : Int} (ha : insets.total axis = .ok amount) : 0 ≤ amount :=
      Insets.eq_amount_of_total ha ▸ Insets.IsNonneg.amount_nonneg h axis
    refine fun axis v hv => ⟨fun rest hr => ?_,
      fun amount ha => Extent.isLength_saturatingAdd hv.1 (hnonneg ha)⟩
    obtain ⟨amount, ha, hr⟩ := bind_eq_ok_iff.1 hr
    obtain ⟨below, hb, hr⟩ := bind_eq_ok_iff.1 hr
    obtain ⟨-, rfl⟩ := Extent.sub_eq_ok_iff.1 hb
    cases hr
    have hamount := hnonneg ha
    unfold Extent.infOr
    split
    · exact Extent.isLength_inf
    · simp only [Extent.IsLength, Extent.inf] at *
      omega
  | align frame alignment measured child =>
    exact fun axis v hv => Factor.isLength_apply (h axis) hv
  | stack frame style totals items =>
    intro hs v hv
    rw [Extent.wrap_count (h hs)]
    exact Extent.isLength_saturatingMul hv.1 (Int.natCast_nonneg _)
  | table => trivial

theorem isLength_of_minExtent {root : Node} (h : root.AllReached HasLengths) {axis : Axis}
    {other least : Int} (ho : Extent.IsLength other) (hm : root.minExtent axis other = .ok least) :
    Extent.IsLength least :=
  of_minExtent Extent.isClosed_isLength (h.mono fun _ => HasLengths.keeps) ho hm

end Node

end BoxLayout
