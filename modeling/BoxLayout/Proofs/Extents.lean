import BoxLayout.Proofs.Free
import BoxLayout.Proofs.Needs

/-!
# Answers are extents

Whatever a tree is asked, the answer is an extent. Containers see to that themselves, as their sums
stop at the ends of the range and their other results are checked. A least extent can also be that
of a leaf. So what is said of extents in general holds of least extents if it holds of what the
single nodes make of such extents (`Node.of_minExtent`): they are in range if the extents that
leaves hold are (`Node.HasExtents`).
-/

namespace BoxLayout

namespace Extent

theorem inRange_of_checked {v r : Int} (h : checked v = .ok r) : InRange r := by
  obtain ⟨hr, rfl⟩ := checked_eq_ok_iff.1 h
  exact hr

theorem inRange_of_scale {value num den part : Int} (h : scale value num den = .ok part) :
    InRange part := by
  unfold scale at h
  split at h
  · cases h; decide
  · split at h
    · cases h; decide
    · obtain ⟨product, -, h⟩ := bind_eq_ok_iff.1 h
      obtain ⟨quotient, -, h⟩ := bind_eq_ok_iff.1 h
      cases h
      exact inRange_wrap quotient

theorem inRange_total (vs : List Int) : InRange (total vs) :=
  List.foldlRecOn vs saturatingAdd (by decide) fun _ _ _ _ => inRange_saturatingAdd ..

theorem inRange_saturatingMul (v n : Int) : InRange (saturatingMul v n) := by
  unfold saturatingMul
  split
  · decide
  · exact inRange_saturate _

theorem inRange_largest {vs : List Int} (h : ∀ v ∈ vs, InRange v) : InRange (largest vs) := by
  unfold largest
  cases hm : vs.max? with
  | none => decide
  | some v => exact h v (List.max?_mem hm)

/-- The unbounded extent has `P`, and so have sums, maxima and equal parts of extents with `P`. -/
structure IsClosed (P : Int → Prop) : Prop where
  inf : P inf
  total {vs : List Int} : (∀ v ∈ vs, P v) → P (total vs)
  largest {vs : List Int} : (∀ v ∈ vs, P v) → P (largest vs)
  part {v den part : Int} : P v → 0 < den → scale v 1 den = .ok part → P part

theorem isClosed_inRange : IsClosed InRange where
  inf := by decide
  total _ := inRange_total _
  largest := inRange_largest
  part _ _ := inRange_of_scale

end Extent

/-! ## Least extents -/

namespace StackStyle

variable {P : Int → Prop} {style : StackStyle}

theorem of_minMain (hP : Extent.IsClosed P) {extents : List Int} (h : ∀ v ∈ extents, P v)
    (hs : style.isHomogeneous = true → ∀ v, P v →
      P (Extent.saturatingMul v (Extent.wrap extents.length))) : P (style.minMain extents) := by
  unfold minMain
  split
  · exact hs ‹_› _ (hP.largest h)
  · exact hP.total h

theorem of_slice (hP : Extent.IsClosed P) {main part : Int} {count : Nat} (h : P main)
    (hs : style.slice main count = .ok part) : P part := by
  unfold slice at hs
  split at hs
  · exact hP.part h (by omega) hs
  · cases hs
    exact hP.inf

end StackStyle

theorem Grid.of_minExtent {P : Int → Prop} (hP : Extent.IsClosed P) {grid : Grid} {axis : Axis}
    {extents : List (Option Int)} (h : ∀ v, some v ∈ extents → P v) :
    P (grid.minExtent axis extents) := by
  refine hP.total fun v hv => ?_
  rw [Array.toList_map, tracks_eq, List.map_map] at hv
  obtain ⟨k, -, rfl⟩ := List.mem_map.1 hv
  refine hP.largest fun v hv => ?_
  obtain ⟨i, hi, -⟩ := mem_track.1 hv
  exact h v (List.mem_of_getElem? hi)

namespace Node

/-- Given extents with `P`, the content of a leaf, the insets of a padding, the factors of an
alignment or the number of slices of a stack lead to extents with `P`. -/
def Keeps (P : Int → Prop) : Node → Prop
  | leaf _ content => ∀ axis other least, P other → content.minExtent axis other = .ok least →
      P least
  | padding _ insets _ => ∀ axis v, P v → (∀ rest, insets.inner axis v = .ok rest → P rest) ∧
      ∀ amount, insets.total axis = .ok amount → P (Extent.saturatingAdd v amount)
  | align _ alignment _ _ => ∀ axis v, P v → P ((alignment.factor axis).apply v)
  | stack _ style _ items => style.isHomogeneous = true → ∀ v, P v →
      P (Extent.saturatingMul v (Extent.wrap (liveCount items)))
  | table .. => True

theorem of_minExtent {P : Int → Prop} (hP : Extent.IsClosed P) {root : Node}
    (h : root.AllReached (Keeps P)) {axis : Axis} {other least : Int} (ho : P other)
    (hm : root.minExtent axis other = .ok least) : P least := by
  refine h.induct (motive := fun node => ∀ {other least : Int}, P other →
    node.minExtent axis other = .ok least → P least) (fun node keeps ih other least ho hm => ?_)
    ho hm
  rw [minExtent.eq_def] at hm
  cases node with
  | leaf frame content => exact keeps axis other least ho hm
  | padding frame insets child =>
    obtain ⟨inner, hinner, hm⟩ := bind_eq_ok_iff.1 hm
    obtain ⟨found, hfound, hm⟩ := bind_eq_ok_iff.1 hm
    obtain ⟨amount, ha, hm⟩ := bind_eq_ok_iff.1 hm
    cases hm
    have hrest : P inner := (keeps axis.flip other ho).1 inner hinner
    exact (keeps axis found (ih child (by simp [visited]) hrest hfound)).2 amount ha
  | align frame alignment measured child =>
    obtain ⟨found, hfound, hm⟩ := bind_eq_ok_iff.1 hm
    cases hm
    exact keeps axis found (ih child (by simp [visited]) ho hfound)
  | stack frame style totals items =>
    have hitems {main : Int} (hmain : P main) {extents : List Int}
        (he : itemExtents axis main items = .ok extents) : ∀ v ∈ extents, P v := by
      obtain ⟨hfound, rfl⟩ := itemExtents_eq_ok he
      exact forall_mem_map_filter.2 fun item hi hl =>
        ih item.node (mem_visited_stack.2 ⟨item, hi, hl, rfl⟩) hmain (hfound item hi hl)
    dsimp only at hm
    split at hm
    · obtain ⟨extents, he, hm⟩ := bind_eq_ok_iff.1 hm
      cases hm
      exact StackStyle.of_minMain hP (hitems ho he) (length_of_itemExtents he ▸ keeps)
    · obtain ⟨main, hmain, hm⟩ := bind_eq_ok_iff.1 hm
      obtain ⟨extents, he, hm⟩ := bind_eq_ok_iff.1 hm
      cases hm
      exact hP.largest (hitems (StackStyle.of_slice hP ho hmain) he)
  | table frame grid cells =>
    obtain ⟨share, hshare, hm⟩ := bind_eq_ok_iff.1 (ite_error_eq_ok_iff.1 hm).2
    obtain ⟨extents, he, hm⟩ := bind_eq_ok_iff.1 hm
    cases hm
    rw [cellExtents_pick] at he
    obtain ⟨found, hfound, rfl⟩ := pickM_eq_ok_iff.1 he
    refine Grid.of_minExtent hP fun v hv => ?_
    obtain ⟨cell, hc, hl, rfl⟩ := mem_pick.1 hv
    obtain ⟨-, hi, hlive⟩ := exists_of_isLiveCell hc hl
    exact ih _ (mem_visited_table.2 ⟨List.mem_of_getElem? hi, hlive⟩)
      (hP.part ho (by omega) hshare) (hfound cell hc hl)

end Node

/-! ## Range -/

namespace Leaf

/-- The extents that the leaf holds are in range. -/
def HasExtents : Leaf → Prop
  | spacer size | canvas size _ _ => ∀ axis, Extent.InRange (size.along axis)
  | button .. | text .. | portrait => True

instance (leaf : Leaf) : Decidable leaf.HasExtents :=
  match leaf with
  | .spacer size | .canvas size _ _ =>
    inferInstanceAs (Decidable (∀ axis, Extent.InRange (size.along axis)))
  | .button .. | .text .. | .portrait => isTrue trivial

theorem inRange_of_minExtent {leaf : Leaf} (h : leaf.HasExtents) {axis : Axis}
    {other least : Int} (ho : Extent.InRange other) (hm : leaf.minExtent axis other = .ok least) :
    Extent.InRange least := by
  cases leaf with
  | spacer | canvas =>
    cases hm
    exact h axis
  | button label =>
    obtain ⟨size, hs, hm⟩ := bind_eq_ok_iff.1 hm
    obtain ⟨width, -, hrange, rfl⟩ := exists_of_buttonSize hs
    cases hm
    cases axis with
    | horizontal => exact hrange
    | vertical => exact (by decide : Extent.InRange 24)
  | text content =>
    cases axis with
    | horizontal =>
      rw [minExtent, Text.minWidth, Text.widthOf] at hm
      exact Extent.inRange_of_checked hm
    | vertical =>
      obtain ⟨size, hs, hm⟩ := bind_eq_ok_iff.1 hm
      obtain ⟨width, -, hs⟩ := bind_eq_ok_iff.1 hs
      obtain ⟨height, hh, hs⟩ := bind_eq_ok_iff.1 hs
      cases hs
      cases hm
      rw [Text.heightOf] at hh
      exact Extent.inRange_of_checked hh
  | portrait =>
    cases axis with
    | horizontal =>
      rw [minExtent] at hm
      cases hm
      unfold Extent.infOr
      split
      · decide
      · refine Extent.inRange_tdiv (by decide) ?_ ?_ <;>
          simp only [Extent.InRange, Extent.least, Extent.inf] at * <;> omega
    | vertical =>
      cases hm
      decide

end Leaf

namespace Node

/-- The extents that a leaf holds are in range. -/
def HasExtents : Node → Prop
  | leaf _ content => content.HasExtents
  | padding .. | align .. | stack .. | table .. => True

instance (node : Node) : Decidable node.HasExtents :=
  match node with
  | leaf _ content => inferInstanceAs (Decidable content.HasExtents)
  | padding .. | align .. | stack .. | table .. => isTrue trivial

theorem HasExtents.keeps {node : Node} (h : node.HasExtents) : node.Keeps Extent.InRange := by
  cases node with
  | leaf frame content => exact fun axis other least ho hm => Leaf.inRange_of_minExtent h ho hm
  | padding frame insets child =>
    refine fun axis v hv => ⟨fun rest hr => ?_, fun amount _ => Extent.inRange_saturatingAdd ..⟩
    obtain ⟨amount, -, hr⟩ := bind_eq_ok_iff.1 hr
    obtain ⟨below, hb, hr⟩ := bind_eq_ok_iff.1 hr
    cases hr
    have hbelow := Extent.inRange_of_checked hb
    unfold Extent.infOr
    split
    · decide
    · simp only [Extent.InRange, Extent.least, Extent.inf] at *
      omega
  | align frame alignment measured child =>
    intro axis v hv
    cases alignment.factor axis with
    | natural => exact hv
    | times factor =>
      rw [Factor.apply]
      split
      · exact hv
      · exact Extent.inRange_truncate _
  | stack frame style totals items => exact fun _ v _ => Extent.inRange_saturatingMul v _
  | table => trivial

theorem inRange_of_minExtent {root : Node} (h : root.AllReached HasExtents) {axis : Axis}
    {other least : Int} (ho : Extent.InRange other) (hm : root.minExtent axis other = .ok least) :
    Extent.InRange least :=
  of_minExtent Extent.isClosed_inRange (h.mono fun _ => HasExtents.keeps) ho hm

/-! ## Sizes -/

theorem inRange_of_measure {node : Node} {given : Constraints} {m : Measured}
    (h : node.measure given = .ok m) (axis : Axis) : Extent.InRange (m.size.along axis) := by
  have hheld {size : Size} (hs : given.constrain size = .ok m.size) :
      Extent.InRange (m.size.along axis) :=
    (Constraints.isProper_of_constrain (isNormalized_of_measure h) hs axis).inRange
  cases node with
  | leaf frame content =>
    obtain ⟨size, hs⟩ := Leaf.exists_constrain_of_measure (measure_leaf h).1
    exact hheld hs
  | padding frame insets child =>
    obtain ⟨_, _, _, found, -, -, -, -, ha, -⟩ := measure_padding h
    rw [Insets.along_of_around ha]
    exact Extent.inRange_saturatingAdd ..
  | align frame alignment measured child =>
    obtain ⟨found, -, ha, -⟩ := measure_align h
    exact hheld ha
  | stack frame style totals items =>
    rcases Classical.em (liveCount items = 0) with hcount | hcount
    · exact hheld (measure_stack_empty h hcount).1
    · obtain ⟨run, -, ha, -⟩ := measure_stack h hcount
      exact hheld ha
  | table frame grid cells =>
    obtain ⟨_, _, _, -, -, -, ha, -⟩ := measure_table h
    exact hheld ha

end Node

end BoxLayout
