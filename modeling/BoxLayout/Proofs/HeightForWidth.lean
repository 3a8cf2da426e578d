import BoxLayout.Proofs.Natural
import BoxLayout.Proofs.Sharing
import BoxLayout.Proofs.Text.Width

/-!
# The height for a width

In a tree that is laid out like text (`Node.IsFlowing`) the height depends on the width. Asked for
any height, it answers the least height for the greatest width that it may have
(`measure_height_eq`).

A row asks for the least heights of its children at no width at all, and then measures some of them
at a width above the one that they chose. That both agree is `KeepsHeight`: from its natural width
on, the least height of a node does not change any more.
-/

namespace BoxLayout

namespace Leaf

/-- The leaf is a text whose characters can be counted, or has a height of its own. That of a
button does not depend on its label. -/
def IsFlowing (leaf : Leaf) : Prop :=
  match leaf with
  | text .. => leaf.IsCountable
  | spacer size | canvas size _ _ => Extent.IsLength size.height
  | button .. => True
  | portrait => False

theorem IsFlowing.exists_ideal {leaf : Leaf} (h : leaf.IsFlowing) :
    (∃ content visibility bounds, leaf = text content visibility bounds) ∨
      ∃ ideal, leaf.ideal = some ideal ∧ ∀ size, ideal = .ok size →
        Extent.IsLength size.height := by
  cases leaf with
  | text content visibility bounds => exact .inl ⟨_, _, _, rfl⟩
  | spacer | canvas => exact .inr ⟨_, rfl, fun _ hs => Except.ok.inj hs ▸ h⟩
  | button label visibility bounds =>
    refine .inr ⟨_, rfl, fun size hs => ?_⟩
    obtain ⟨width, -, -, rfl⟩ := exists_of_buttonSize hs
    exact (by decide : Extent.IsLength 24)
  | portrait => exact h.elim

end Leaf

namespace Node

/-- The node is of a kind that gives its height for a width: a text or a leaf with a height of its
own, insets that are not negative, an alignment that reports the size of its child, or a stack that
neither cuts itself into slices nor stretches its children. -/
def IsFlowing : Node → Prop
  | leaf _ content => content.IsFlowing
  | padding _ insets _ => insets.IsNonneg
  | align _ alignment _ _ => ∀ axis, alignment.factor axis = .natural
  | stack _ style _ _ => style.isHomogeneous = false ∧ style.align ≠ .stretch
  | table .. => False

theorem IsFlowing.hasNonnegInsets {node : Node} (h : node.IsFlowing) : node.HasNonnegInsets := by
  cases node with
  | padding => exact h
  | leaf | align | stack | table => trivial

/-- Insets take from a width what they take from the upper end of limits on it. -/
theorem inner_eq_of_less {insets : Insets} (hi : insets.IsProper) {axis : Axis} {limits : Limits}
    (hn : limits.isNormalized = true) :
    insets.inner axis limits.hi = .ok (limits.less (insets.amount axis)).hi := by
  have ha := hi.isLength_amount axis
  have hl := Limits.isNormalized_iff.1 hn
  rw [hi.inner_eq axis (Limits.isLength_hi hn)]
  refine congrArg Except.ok ?_
  simp only [Limits.less, Extent.infOr, Extent.IsLength, Extent.inf] at *
  omega

/-! ## Widths above the natural one -/

/-- From the width that the node answers without a bound on, its least height stays the same. -/
def KeepsHeight (node : Node) : Prop := ∀ (given : Constraints) (m : Measured),
  node.measure given = .ok m → given.along .horizontal = .free →
    ∀ width, Extent.IsLength width → m.size.along .horizontal ≤ width →
    node.minExtent .vertical width = node.minExtent .vertical Extent.inf

section KeepsHeight

variable {frame : Frame}

theorem KeepsHeight.leaf {content : Leaf} (h : content.IsFlowing) :
    (leaf frame content).KeepsHeight := by
  intro given m hm hf width hw hle
  rw [minExtent, minExtent]
  rcases h.exists_ideal with ⟨text, visibility, bounds, rfl⟩ | ⟨ideal, hi, -⟩
  · obtain ⟨size, hs, ha⟩ := bind_eq_ok_iff.1 (measure_leaf hm).1
    rw [show given.width = .free from hf] at hs
    rw [along_eq_of_constrain ha hf ((Text.measure_eq_ok h hs).1 .horizontal)] at hle
    rw [Leaf.minExtent, Leaf.minExtent, Text.measure_of_width_le h hs hw hle]
  · rw [Leaf.minExtent_of_ideal hi, Leaf.minExtent_of_ideal hi]

theorem KeepsHeight.padding {insets : Insets} {child : Node} (hi : insets.IsNonneg)
    (hc : child.AllReached HasNonnegInsets) (h : child.KeepsHeight) :
    (padding frame insets child).KeepsHeight := by
  intro given m hm hf width hw hle
  obtain ⟨hp, inner, found, hfound, hinner, hsize⟩ := measure_padding_of_nonneg hi hm
  have ha := hp.isLength_amount .horizontal
  have hfree : inner.along .horizontal = .free := by
    rw [hinner, hf, Limits.less_free ha]
  have hrest (v : Int) (hv : Extent.IsLength v) : insets.inner .horizontal v =
      .ok ((Limits.upTo v).less (insets.amount .horizontal)).hi :=
    inner_eq_of_less hp (Limits.isNormalized_upTo hv)
  have hchild : child.minExtent .vertical
      ((Limits.upTo width).less (insets.amount .horizontal)).hi =
        child.minExtent .vertical Extent.inf := by
    have hfl := isProper_of_measure hc hfound .horizontal
    have hless := Limits.isLength_hi (Limits.isNormalized_less (Limits.isNormalized_upTo hw) ha)
    refine h inner found hfound hfree _ hless ?_
    have hs := hsize .horizontal
    rw [Extent.saturatingAdd_eq_min hfl.1 ha.1] at hs
    simp only [Limits.less, Limits.upTo, Extent.infOr, Extent.IsLength, Extent.inf] at *
    omega
  have hinf := hrest Extent.inf Extent.isLength_inf
  rw [show Limits.upTo Extent.inf = .free from rfl, Limits.less_free ha] at hinf
  rw [minExtent, minExtent]
  show (insets.inner .horizontal width >>= _) = (insets.inner .horizontal Extent.inf >>= _)
  rw [hrest width hw, hinf]
  show (child.minExtent .vertical _ >>= _) = (child.minExtent .vertical Extent.inf >>= _)
  rw [hchild]

theorem KeepsHeight.align {alignment : Alignment} {measured : Size} {child : Node}
    (hn : ∀ axis, alignment.factor axis = .natural) (hc : child.AllReached HasNonnegInsets)
    (h : child.KeepsHeight) : (align frame alignment measured child).KeepsHeight := by
  intro given m hm hf width hw hle
  obtain ⟨found, hfound, ha, -⟩ := measure_align hm
  have hloose : given.loosen.along .horizontal = .free := by
    rw [Constraints.along_loosen, hf, Limits.loosen_free]
  rw [Alignment.scaled_eq hn] at ha
  rw [along_eq_of_constrain ha hf (isProper_of_measure hc hfound .horizontal)] at hle
  rw [minExtent, minExtent, h _ found hfound hloose width hw hle]

section Stack

variable {style : StackStyle} {totals : StackTotals} {items : List (Item Node)}
  {run : Sharing} {given : Constraints}

/-- A stack that does not stretch its children is as broad as the broadest of them. -/
theorem isLength_breadthOf {stack : Node} (hr : run.IsRun stack style items given)
    (hs : style.align ≠ .stretch)
    (hc : ∀ item ∈ items, item.node.isLive = true → item.node.AllReached HasNonnegInsets) :
    Extent.IsLength (run.breadthOf style items) := by
  rw [Sharing.breadthOf, if_neg hs]
  refine Extent.isLength_foldl_max fun v hv => ?_
  rcases List.mem_append.1 hv with hv | hv
  · obtain ⟨item, hm, rfl⟩ := List.mem_map.1 hv
    obtain ⟨hi, hl⟩ := List.mem_filter.1 hm
    exact isProper_of_measure (hc item hi hl) (hr.once item hi hl) _
  · obtain ⟨item, hm, rfl⟩ := List.mem_map.1 hv
    obtain ⟨hi, hq⟩ := List.mem_filter.1 hm
    have hl := Sharing.isLive_of_shares item hq
    exact isProper_of_measure (hc item hi hl) (hr.again item hi hq) _

theorem once_le_breadthOf (run : Sharing) (hs : style.align ≠ .stretch) {item : Item Node}
    (hi : item ∈ items) (hl : item.node.isLive = true) :
    (run.once item).size.along style.axis.flip ≤ run.breadthOf style items := by
  rw [Sharing.breadthOf, if_neg hs]
  exact Extent.le_foldl_max.2 _ (List.mem_append_left _
    (List.mem_map_of_mem (List.mem_filter.2 ⟨hi, hl⟩)))

theorem KeepsHeight.stack (hs : style.isHomogeneous = false ∧ style.align ≠ .stretch)
    (hc : ∀ item ∈ items, item.node.isLive = true → item.node.AllReached HasNonnegInsets)
    (h : ∀ item ∈ items, item.node.isLive = true → item.node.KeepsHeight) :
    (stack frame style totals items).KeepsHeight := by
  intro given m hm hf width hw hle
  rw [minExtent, minExtent]
  cases hx : style.axis with
  | horizontal =>
    rw [if_neg (by decide), if_neg (by decide), StackStyle.slice, StackStyle.slice,
      if_neg (by simp [hs.1]), if_neg (by simp [hs.1])]
  | vertical =>
    rw [if_pos rfl, if_pos rfl]
    have hflip : style.axis.flip = .horizontal := by rw [hx]; rfl
    rw [itemExtents_congr fun item hi hl => ?_]
    have hcount : liveCount items ≠ 0 := Nat.ne_of_gt (List.countP_pos_iff.2 ⟨item, hi, hl⟩)
    obtain ⟨run, hr, ha, -⟩ := measure_stack hm hcount
    obtain ⟨-, hcross⟩ := hr.offer_spec (isNormalized_of_measure hm) hcount
    rw [StackStyle.across, if_neg hs.2, hflip, hf] at hcross
    have hsize : m.size.along .horizontal = run.breadthOf style items := by
      rw [← hflip] at hf ⊢
      rw [along_eq_of_constrain ha hf, Size.along_flip_ofAxis]
      rw [Size.along_flip_ofAxis]
      exact isLength_breadthOf hr hs.2 hc
    rw [hsize] at hle
    have hwide := once_le_breadthOf run hs.2 hi hl
    rw [hflip] at hwide
    exact h item hi hl _ _ (hr.once item hi hl) hcross width hw (Int.le_trans hwide hle)

end Stack

end KeepsHeight

/-! ## Heights -/

/-- Asked for any height the node answers its least height for the greatest width. -/
def GivesHeight (node : Node) : Prop := ∀ (given : Constraints) (m : Measured),
  node.measure given = .ok m → given.along .vertical = .free →
    node.minExtent .vertical (given.along .horizontal).hi = .ok (m.size.along .vertical)

section GivesHeight

variable {frame : Frame}

theorem GivesHeight.leaf {content : Leaf} (h : content.IsFlowing) :
    (leaf frame content).GivesHeight := by
  intro given m hm hf
  have ha := (measure_leaf hm).1
  rw [minExtent]
  rcases h.exists_ideal with ⟨text, visibility, bounds, rfl⟩ | ⟨ideal, hi, hp⟩
  · obtain ⟨size, hs, ha⟩ := bind_eq_ok_iff.1 ha
    rw [along_eq_of_constrain ha hf ((Text.measure_eq_ok h hs).1 .vertical)]
    exact bind_eq_ok_iff.2 ⟨size, hs, rfl⟩
  · rw [Leaf.measure_of_ideal hi] at ha
    obtain ⟨size, rfl, ha⟩ := bind_eq_ok_iff.1 ha
    rw [Leaf.minExtent_of_ideal hi, along_eq_of_constrain ha hf (hp size rfl)]
    rfl

theorem GivesHeight.padding {insets : Insets} {child : Node} (hi : insets.IsNonneg)
    (h : child.GivesHeight) : (padding frame insets child).GivesHeight := by
  intro given m hm hf
  obtain ⟨hp, inner, found, hfound, hinner, hsize⟩ := measure_padding_of_nonneg hi hm
  have hfree : inner.along .vertical = .free := by
    rw [hinner, hf, Limits.less_free (hp.isLength_amount _)]
  have hn := Constraints.isNormalized_iff.1 (isNormalized_of_measure hm) .horizontal
  have hwidth : insets.inner .horizontal (given.along .horizontal).hi =
      .ok (inner.along .horizontal).hi := hinner .horizontal ▸ inner_eq_of_less hp hn
  rw [minExtent, hsize]
  exact bind_eq_ok_iff.2 ⟨_, hwidth, bind_eq_ok_iff.2
    ⟨_, h inner found hfound hfree, bind_eq_ok_iff.2 ⟨_, hp.total_eq _, rfl⟩⟩⟩

theorem GivesHeight.align {alignment : Alignment} {measured : Size} {child : Node}
    (hn : ∀ axis, alignment.factor axis = .natural) (hc : child.AllReached HasNonnegInsets)
    (h : child.GivesHeight) : (align frame alignment measured child).GivesHeight := by
  intro given m hm hf
  obtain ⟨found, hfound, ha, -⟩ := measure_align hm
  have hloose : given.loosen.along .vertical = .free := by
    rw [Constraints.along_loosen, hf, Limits.loosen_free]
  have hchild := h _ found hfound hloose
  rw [Constraints.along_loosen] at hchild
  rw [Alignment.scaled_eq hn] at ha
  rw [minExtent, hn, along_eq_of_constrain ha hf (isProper_of_measure hc hfound .vertical)]
  exact bind_eq_ok_iff.2 ⟨_, hchild, rfl⟩

section Stack

variable {style : StackStyle} {totals : StackTotals} {items : List (Item Node)}

theorem GivesHeight.stack_empty (hl : liveCount items = 0) :
    (stack frame style totals items).GivesHeight := by
  intro given m hm hf
  have hn := Constraints.isNormalized_iff.1 (isNormalized_of_measure hm) .horizontal
  have hempty : Heeds True (Node.stack frame style totals items) := .stack_empty hl
  obtain ⟨hs, hw⟩ := hempty given m hm
  rw [hs.minExtent_eq _ _ (Limits.isLength_hi hn), (hw .vertical hf).eq trivial]

variable {run : Sharing} {given : Constraints}

/-- A column that may be as high as it likes adds up the heights of its children. -/
theorem height_of_column (hr : run.IsRun (stack frame style totals items) style items given)
    (hn : given.isNormalized = true) (hcount : liveCount items ≠ 0)
    (hs : style.isHomogeneous = false ∧ style.align ≠ .stretch) (hx : style.axis = .vertical)
    (hf : given.along style.axis = .free)
    (hc : ∀ item ∈ items, item.node.isLive = true → item.node.AllReached HasNonnegInsets)
    (h : ∀ item ∈ items, item.node.isLive = true → item.node.GivesHeight) :
    itemExtents .vertical (given.along .horizontal).hi items = .ok (run.onceAlong .vertical items) ∧
      run.extent = Extent.total (run.onceAlong .vertical items) := by
  obtain ⟨-, hcross⟩ := hr.offer_spec hn hcount
  have hmain := hr.along_offer (.inl hs.1)
  have hnn : ∀ v ∈ run.onceAlong style.axis items, 0 ≤ v :=
    forall_mem_map_filter.2 fun item hi hl =>
      (isProper_of_measure (hc item hi hl) (hr.once item hi hl) _).1
  have hextent := hr.extent_eq_total (hr.extra_eq_zero hf hnn)
  rw [StackStyle.across, if_neg hs.2] at hcross
  rw [hx] at hcross hmain hextent
  refine ⟨itemExtents_of_forall fun item hi hl => ?_, hextent⟩
  have hitem := h item hi hl _ _ (hr.once item hi hl) hmain
  rwa [show run.offer.along .horizontal = .upTo (given.along .horizontal).hi from hcross] at hitem

/-- A row that may be as high as it likes is as high as the highest of its children at no particular
width: the children that get a share of the room have as much width as they chose, and more. -/
theorem height_of_row (hr : run.IsRun (stack frame style totals items) style items given)
    (hn : given.isNormalized = true) (hcount : liveCount items ≠ 0)
    (hs : style.isHomogeneous = false ∧ style.align ≠ .stretch) (hx : style.axis = .horizontal)
    (hf : given.along style.axis.flip = .free)
    (hc : ∀ item ∈ items, item.node.isLive = true → item.node.AllReached HasNonnegInsets)
    (hk : ∀ item ∈ items, item.node.isLive = true → item.node.KeepsHeight)
    (h : ∀ item ∈ items, item.node.isLive = true → item.node.GivesHeight) :
    itemExtents .vertical Extent.inf items = .ok (run.onceAlong .vertical items) ∧
      run.breadthOf style items = Extent.largest (run.onceAlong .vertical items) := by
  have hmain := hr.along_offer (.inl hs.1)
  have hcross := (hr.offer_spec hn hcount).2
  rw [StackStyle.across, if_neg hs.2, hf] at hcross
  have hproper (item : Item Node) (hi : item ∈ items) (hl : item.node.isLive = true) :=
    isProper_of_measure (hc item hi hl) (hr.once item hi hl)
  have honce : ∀ item ∈ items, item.node.isLive = true →
      item.node.minExtent .vertical Extent.inf = .ok ((run.once item).size.along .vertical) := by
    intro item hi hl
    rw [hx] at hmain hcross
    have hitem := h item hi hl _ _ (hr.once item hi hl) hcross
    rwa [hmain] at hitem
  have hagain : ∀ item ∈ items, run.shares item = true →
      (run.again item).size.along .vertical = (run.once item).size.along .vertical := by
    intro item hi hq
    have hl := Sharing.isLive_of_shares item hq
    obtain ⟨hv, he⟩ := hr.along_enlarged hs.1 hi hq (hproper item hi hl _).1
    have hgain := (hr.gain_bounds hs.1 hi hl).1
    have hfree := (hr.along_flip_enlarged hi hq).trans hcross
    rw [hx] at he hv hmain hfree
    have hitem := h item hi hl _ _ (hr.again item hi hq) hfree
    rw [he] at hitem
    have hkept := hk item hi hl _ _ (hr.once item hi hl) hmain _ hv (by omega)
    exact Except.ok.inj (hitem.symm.trans (hkept.trans (honce item hi hl)))
  refine ⟨itemExtents_of_forall honce, ?_⟩
  have hnn : ∀ v ∈ run.onceAlong .vertical items, 0 ≤ v :=
    forall_mem_map_filter.2 fun item hi hl => (hproper item hi hl _).1
  rw [Sharing.breadthOf, if_neg hs.2, hx, Extent.largest_eq_foldl hnn]
  have hsame : Extent.Within True
      ((run.onceAlong .vertical items ++ run.againAlong .vertical items).foldl max 0)
      ((run.onceAlong .vertical items).foldl max 0) := by
    refine .foldl_max (fun v hv => ?_) fun _ v hv =>
      ⟨v, List.mem_append_left _ hv, Int.le_refl v⟩
    rcases List.mem_append.1 hv with hv | hv
    · exact ⟨v, hv, Int.le_refl v⟩
    · obtain ⟨item, hm, rfl⟩ := List.mem_map.1 hv
      obtain ⟨hi, hq⟩ := List.mem_filter.1 hm
      exact ⟨_, List.mem_map_of_mem (List.mem_filter.2 ⟨hi, Sharing.isLive_of_shares item hq⟩),
        Int.le_of_eq (hagain item hi hq)⟩
  exact hsame.eq trivial

theorem GivesHeight.stack (hs : style.isHomogeneous = false ∧ style.align ≠ .stretch)
    (hc : ∀ item ∈ items, item.node.isLive = true → item.node.AllReached HasNonnegInsets)
    (hk : ∀ item ∈ items, item.node.isLive = true → item.node.KeepsHeight)
    (h : ∀ item ∈ items, item.node.isLive = true → item.node.GivesHeight) :
    (stack frame style totals items).GivesHeight := by
  rcases Classical.em (liveCount items = 0) with hcount | hcount
  · exact .stack_empty hcount
  intro given m hm hf
  have hn := isNormalized_of_measure hm
  obtain ⟨run, hr, ha, -⟩ := measure_stack hm hcount
  have hnn : ∀ v ∈ run.onceAlong .vertical items, Extent.IsLength v :=
    forall_mem_map_filter.2 fun item hi hl =>
      isProper_of_measure (hc item hi hl) (hr.once item hi hl) _
  rw [minExtent]
  cases hx : style.axis with
  | vertical =>
    rw [if_pos rfl]
    obtain ⟨hitems, hextent⟩ := height_of_column hr hn hcount hs hx (hx ▸ hf) hc h
    have hsize : (Size.ofAxis style.axis run.extent (run.breadthOf style items)).along .vertical =
        Extent.total (run.onceAlong .vertical items) := by rw [hx, hextent]; rfl
    rw [hitems, along_eq_of_constrain ha hf, hsize]
    · exact congrArg Except.ok (if_neg (by simp [hs.1]))
    · rw [hsize]
      exact Extent.isLength_total fun v hv => (hnn v hv).1
  | horizontal =>
    rw [if_neg (by decide), StackStyle.slice, if_neg (by simp [hs.1])]
    obtain ⟨hitems, hbreadth⟩ := height_of_row hr hn hcount hs hx (by rw [hx]; exact hf) hc hk h
    have hsize : (Size.ofAxis style.axis run.extent (run.breadthOf style items)).along .vertical =
        Extent.largest (run.onceAlong .vertical items) := by rw [hx, hbreadth]; rfl
    rw [along_eq_of_constrain ha hf, hsize]
    · exact bind_eq_ok_iff.2 ⟨_, rfl, bind_eq_ok_iff.2 ⟨_, hitems, rfl⟩⟩
    · rw [hsize]
      exact Extent.isLength_largest hnn

end Stack

end GivesHeight

/-- What makes the height of a node a matter of its width. -/
structure Flows (node : Node) : Prop where
  insets : node.AllReached HasNonnegInsets
  keepsHeight : node.KeepsHeight
  givesHeight : node.GivesHeight

theorem flows_of_isFlowing {root : Node} (h : root.AllReached IsFlowing) : root.Flows := by
  refine h.induct fun node hk ih => ⟨?_, ?_, ?_⟩
  · exact (allReached_iff node).2 ⟨hk.hasNonnegInsets, fun child hc => (ih child hc).insets⟩
  · cases node with
    | leaf frame content => exact .leaf hk
    | padding frame insets child =>
      have hc := ih child (by simp [visited])
      exact .padding hk hc.insets hc.keepsHeight
    | align frame alignment measured child =>
      have hc := ih child (by simp [visited])
      exact .align hk hc.insets hc.keepsHeight
    | stack frame style totals items =>
      have hc (item : Item Node) (hi : item ∈ items) (hl : item.node.isLive = true) :=
        ih item.node (mem_visited_stack.2 ⟨item, hi, hl, rfl⟩)
      exact .stack hk (fun item hi hl => (hc item hi hl).insets)
        fun item hi hl => (hc item hi hl).keepsHeight
    | table => exact hk.elim
  · cases node with
    | leaf frame content => exact .leaf hk
    | padding frame insets child => exact .padding hk (ih child (by simp [visited])).givesHeight
    | align frame alignment measured child =>
      have hc := ih child (by simp [visited])
      exact .align hk hc.insets hc.givesHeight
    | stack frame style totals items =>
      have hc (item : Item Node) (hi : item ∈ items) (hl : item.node.isLive = true) :=
        ih item.node (mem_visited_stack.2 ⟨item, hi, hl, rfl⟩)
      exact .stack hk (fun item hi hl => (hc item hi hl).insets)
        (fun item hi hl => (hc item hi hl).keepsHeight)
        fun item hi hl => (hc item hi hl).givesHeight
    | table => exact hk.elim

/-- Measured for a width within limits and for any height, a tree answers the least height that it
needs for the upper limit. -/
theorem measure_height_eq {root : Node} (h : root.AllReached IsFlowing) {least width : Int}
    {m : Measured} (hm : root.measure ⟨⟨least, width⟩, .free⟩ = .ok m) :
    root.minExtent .vertical width = .ok m.size.height :=
  (flows_of_isFlowing h).givesHeight _ m hm rfl

/-- A column of 120 pixels that holds a text, which takes two lines there, and a row with room to
share: its text takes one line at its natural width and at the greater one that it gets. -/
theorem measure_height_of_column :
    let column := stackOf { axis := .vertical }
      [(ofLeaf (.text "a longer text to wrap" .visible default), 0),
        (pad (.all 2) (stackOf { axis := .horizontal }
          [(ofLeaf (.text "one line" .visible default), 1),
            (ofLeaf (.button "Ok" .visible default), 0)]), 0)]
    ∃ m, column.measure ⟨⟨20, 120⟩, .free⟩ = .ok m ∧ m.size.height = 60 ∧
      column.minExtent .vertical 120 = .ok m.size.height := by
  intro column
  have hkind : column.AllReached IsFlowing := by
    simp only [column, stackOf, pad, ofLeaf, allReached_stack, List.map, List.forall_mem_cons,
      allReached_leaf, allReached_padding]
    exact ⟨⟨rfl, by decide⟩,
      fun _ => (by decide : (Leaf.text "a longer text to wrap" .visible default).IsCountable),
      fun _ => ⟨(by decide : (Insets.all 2).IsNonneg), ⟨rfl, by decide⟩,
        fun _ => (by decide : (Leaf.text "one line" .visible default).IsCountable),
        fun _ => trivial, by simp⟩, by simp⟩
  obtain ⟨m, hm, hs⟩ : ∃ m, column.measure ⟨⟨20, 120⟩, .free⟩ = .ok m ∧ m.size.height = 60 :=
    map_eq_ok_iff.1 (by decide +kernel : (·.size.height) <$> column.measure ⟨⟨20, 120⟩, .free⟩ =
      .ok 60)
  exact ⟨m, hm, hs, measure_height_eq hkind hm⟩

/-- A text of so many line feeds that the height of its lines comes out below zero answers no
height. -/
theorem measure_height_of_lineFeeds :
    let text := ofLeaf (.text (String.replicate 4294967290 '\n') .visible default)
    ∃ m, text.measure ⟨⟨0, 100⟩, .free⟩ = .ok m ∧ m.size.height = 0 ∧
      text.minExtent .vertical 100 = .ok (-80) := by
  have hsize := Text.measure_lineFeeds 100
  generalize String.replicate 4294967290 '\n' = content at hsize
  intro text
  simp only [text, ofLeaf, measure, minExtent, Leaf.measure, Leaf.minExtent, hsize]
  exact ⟨_, rfl, rfl, rfl⟩

end Node

end BoxLayout
