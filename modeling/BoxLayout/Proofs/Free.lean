import BoxLayout.Proofs.Answers
import BoxLayout.Proofs.Faults

/-!
# Measuring without a bound

What becomes of the question when a node is asked freely along an axis: insets take nothing away
(`Limits.less_free`), an alignment and a stack pass the question on (`Sharing.IsRun.along_offer`),
and a stack finds no room to share (`Sharing.IsRun.extra_eq_zero`), so that the extents that its
children chose simply add up (`Sharing.IsRun.extent_eq_total`).
-/

namespace BoxLayout

namespace Limits

theorem nearest_free {v : Int} (h : Extent.IsLength v) : free.nearest v = v := by
  obtain ⟨h₀, h₁⟩ := h
  simp only [nearest, free, upTo]
  omega

theorem less_free {amount : Int} (h : Extent.IsLength amount) : free.less amount = free := by
  obtain ⟨h₀, h₁⟩ := h
  have hlo : Extent.infOr 0 (max (0 - amount) 0) = 0 := by
    rw [Extent.infOr_of_ne (by decide)]
    omega
  simp only [less, free, upTo, hlo, Extent.infOr_inf]
  decide

theorem loosen_free : free.loosen = free := rfl

end Limits

/-! ## Insets that are not negative -/

namespace Insets

variable {insets : Insets}

theorem eq_amount_of_total {axis : Axis} {amount : Int} (h : insets.total axis = .ok amount) :
    amount = insets.amount axis := by
  rw [total_eq_checked] at h
  exact (Extent.checked_eq_ok_iff.1 h).2

theorem IsNonneg.isProper (h : insets.IsNonneg)
    (ht : ∀ axis, ∃ amount, insets.total axis = .ok amount) : insets.IsProper := by
  refine ⟨h, fun axis => ?_⟩
  obtain ⟨amount, ha⟩ := ht axis
  rw [total_eq_checked] at ha
  exact (Extent.checked_eq_ok_iff.1 ha).1.2

theorem around_eq_ok_iff {size answer : Size} : insets.around size = .ok answer ↔
    ∀ axis, ∃ amount, insets.total axis = .ok amount ∧
      answer.along axis = Extent.saturatingAdd (size.along axis) amount := by
  unfold around
  simp only [bind_eq_ok_iff]
  constructor
  · rintro ⟨width, hw, height, hh, e⟩
    cases e
    intro axis
    cases axis with
    | horizontal => exact ⟨width, hw, rfl⟩
    | vertical => exact ⟨height, hh, rfl⟩
  · intro h
    obtain ⟨width, hw, hsw⟩ := h .horizontal
    obtain ⟨height, hh, hsh⟩ := h .vertical
    exact ⟨width, hw, height, hh, congrArg Except.ok (congrArg₂ Size.mk hsw.symm hsh.symm)⟩

theorem along_of_around {size answer : Size} (h : insets.around size = .ok answer) (axis : Axis) :
    answer.along axis = Extent.saturatingAdd (size.along axis) (insets.amount axis) := by
  obtain ⟨amount, ha, hs⟩ := around_eq_ok_iff.1 h axis
  rw [hs, eq_amount_of_total ha]

end Insets

/-- Without factors an alignment reports the size of its child. -/
theorem Alignment.scaled_eq {alignment : Alignment}
    (h : ∀ axis, alignment.factor axis = .natural) (size : Size) :
    alignment.scaled size = size := by
  have hw : alignment.width = .natural := h .horizontal
  have hh : alignment.height = .natural := h .vertical
  rw [scaled, hw, hh]
  rfl

namespace Node

/-- The insets of a padding are not negative. -/
def HasNonnegInsets : Node → Prop
  | padding _ insets _ => insets.IsNonneg
  | leaf .. | align .. | stack .. | table .. => True

instance (node : Node) : Decidable node.HasNonnegInsets :=
  match node with
  | padding _ insets _ => inferInstanceAs (Decidable insets.IsNonneg)
  | leaf .. | align .. | stack .. | table .. => isTrue trivial

variable {root : Node} {given : Constraints} {m : Measured}

/-- A padding of insets that are not negative asks its child about what is left, and answers with
the insets put back. -/
theorem measure_padding_of_nonneg {frame : Frame} {insets : Insets} {child : Node}
    (hi : insets.IsNonneg) (h : (padding frame insets child).measure given = .ok m) :
    insets.IsProper ∧ ∃ inner found, child.measure inner = .ok found ∧
      (∀ axis, inner.along axis = (given.along axis).less (insets.amount axis)) ∧
      (∀ axis, m.size.along axis =
        Extent.saturatingAdd (found.size.along axis) (insets.amount axis)) := by
  have hn := isNormalized_of_measure h
  obtain ⟨width, height, inner, found, hw, hh, hin, hf, ha, -⟩ := measure_padding h
  have hp : insets.IsProper := hi.isProper fun axis => by
    cases axis with
    | horizontal => exact ⟨_, hw⟩
    | vertical => exact ⟨_, hh⟩
  refine ⟨hp, inner, found, hf, fun axis => ?_, Insets.along_of_around ha⟩
  have hamount : (Size.mk width height).along axis = insets.amount axis := by
    rw [Insets.eq_amount_of_total hw, Insets.eq_amount_of_total hh]
    cases axis <;> rfl
  have hinner := Constraints.inset_eq_ok_iff.1 hin axis
  rw [hamount, Limits.inset_eq (Constraints.isNormalized_iff.1 hn axis)
    (hp.isLength_amount axis)] at hinner
  exact (Except.ok.inj hinner).symm

/-- Where no insets are negative, an answer consists of lengths. -/
theorem isProper_of_measure (h : root.AllReached HasNonnegInsets)
    (hm : root.measure given = .ok m) : m.size.IsProper := by
  induction root generalizing given m with
  | leaf frame content =>
    obtain ⟨size, hs⟩ := Leaf.exists_constrain_of_measure (measure_leaf hm).1
    exact Constraints.isProper_of_constrain (isNormalized_of_measure hm) hs
  | padding frame insets child ih =>
    obtain ⟨hi, hc⟩ := allReached_padding.1 h
    obtain ⟨hp, inner, found, hf, -, hs⟩ := measure_padding_of_nonneg hi hm
    intro axis
    rw [hs]
    exact Extent.isLength_saturatingAdd (ih hc hf axis).1 (hp.isLength_amount axis).1
  | align frame alignment measured child ih =>
    obtain ⟨found, -, ha, -⟩ := measure_align hm
    exact Constraints.isProper_of_constrain (isNormalized_of_measure hm) ha
  | stack frame style totals items ih =>
    rcases Classical.em (liveCount items = 0) with hl | hl
    · exact Constraints.isProper_of_constrain (isNormalized_of_measure hm)
        (measure_stack_empty hm hl).1
    · obtain ⟨run, -, ha, -⟩ := measure_stack hm hl
      exact Constraints.isProper_of_constrain (isNormalized_of_measure hm) ha
  | table frame grid cells ih =>
    obtain ⟨once, again, sized, -, -, -, ha, -⟩ := measure_table hm
    exact Constraints.isProper_of_constrain (isNormalized_of_measure hm) ha

/-- Held within no bound, an extent stays what it is. -/
theorem along_eq_of_constrain {size answer : Size} (h : given.constrain size = .ok answer)
    {axis : Axis} (hf : given.along axis = .free) (hl : Extent.IsLength (size.along axis)) :
    answer.along axis = size.along axis := by
  rw [Constraints.along_of_constrain h, hf, Limits.nearest_free hl]

end Node

/-! ## Stacks -/

theorem StackStyle.along_offer {style : StackStyle} {given offer : Constraints} {count : Nat}
    {breadth : Int} (h : style.offer given count breadth = .ok offer) :
    ∃ main, style.offerMain given count = .ok main ∧
      offer.along style.axis = main.along style.axis := by
  obtain ⟨main, hm, h⟩ := bind_eq_ok_iff.1 h
  refine ⟨main, hm, ?_⟩
  split at h
  · obtain ⟨limits, -, rfl⟩ := Constraints.tightenAlong_eq_ok_iff.1 h
    exact Constraints.along_setAlong_flip ..
  · cases h
    exact Constraints.along_setAlong_flip ..

namespace Sharing.IsRun

open Node

variable {run : Sharing} {stack : Node} {style : StackStyle} {items : List (Item Node)}
  {given : Constraints}

theorem offer_spec (h : run.IsRun stack style items given) (hn : given.isNormalized = true)
    (hl : liveCount items ≠ 0) : run.offer.isNormalized = true ∧
      run.offer.along style.axis.flip = style.across (given.along style.axis.flip) run.breadth := by
  obtain ⟨offer, ho, hon, -, hcross⟩ := style.offer_isOk hn (Nat.pos_of_ne_zero hl) run.breadth
  rw [Except.ok.inj (h.offer.symm.trans ho)]
  exact ⟨hon, hcross⟩

/-- A stack that is not cut into slices, or has no bound to cut, asks freely along its axis. -/
theorem along_offer (h : run.IsRun stack style items given)
    (hs : style.isHomogeneous = false ∨ given.along style.axis = .free) :
    run.offer.along style.axis = .free := by
  obtain ⟨main, hm, ho⟩ := StackStyle.along_offer h.offer
  have hno : ¬ (style.isHomogeneous = true ∧ (given.along style.axis).hi ≠ Extent.inf) := by
    rintro ⟨hh, hi⟩
    rcases hs with hs | hs
    · rw [hs] at hh
      cases hh
    · rw [hs] at hi
      exact hi rfl
  rw [StackStyle.offerMain, if_neg hno] at hm
  cases hm
  rw [ho]
  exact Constraints.along_setAlong ..

theorem extra_eq_zero (h : run.IsRun stack style items given)
    (hf : given.along style.axis = .free)
    (hnn : ∀ v ∈ run.onceAlong style.axis items, 0 ≤ v) : run.extra = 0 := by
  have htotal := Extent.isLength_total hnn
  have hextra := h.extra
  split at hextra
  · exact (Except.ok.inj hextra).symm
  · rw [hf, StackStyle.spare_eq Limits.isNormalized_free htotal] at hextra
    rw [← Except.ok.inj hextra, StackStyle.room, StackStyle.goal]
    have hlo : ¬ Extent.total (run.onceAlong style.axis items) < Limits.free.lo :=
      Int.not_lt.2 htotal.1
    rw [if_neg (fun hi => hi.1 rfl), if_neg hlo]
    have := htotal.1
    omega

theorem along_flip_enlarged (h : run.IsRun stack style items given) {item : Item Node}
    (hi : item ∈ items) (hq : run.shares item = true) :
    (run.enlarged item).along style.axis.flip = run.offer.along style.axis.flip := by
  obtain ⟨share, -, he⟩ := bind_eq_ok_iff.1 (h.enlarged item hi hq)
  obtain ⟨v, -, he⟩ := bind_eq_ok_iff.1 he
  obtain ⟨limits, -, he⟩ := Constraints.tightenAlong_eq_ok_iff.1 he
  rw [he]
  exact Constraints.along_flip_setAlong ..

end Sharing.IsRun

namespace Sharing

variable {run : Sharing}

theorem shares_eq_false (h : run.extra = 0) (item : Item Node) : run.shares item = false := by
  rw [shares, StackStyle.sharesIn, h]
  simp

theorem changes_eq_nil (h : run.extra = 0) {axis : Axis} {items : List (Item Node)} :
    run.changes axis items = [] := by
  have hnone : items.filter run.shares = [] :=
    List.filter_eq_nil_iff.2 fun item _ => by simp [shares_eq_false h]
  rw [changes, hnone]
  rfl

theorem IsRun.extent_eq_total {stack : Node} {style : StackStyle} {items : List (Item Node)}
    {given : Constraints} (h : run.IsRun stack style items given) (he : run.extra = 0) :
    run.extent = Extent.total (run.onceAlong style.axis items) := by
  have hextent := h.extent
  rw [changes_eq_nil he] at hextent
  exact (Except.ok.inj hextent).symm

end Sharing

end BoxLayout
