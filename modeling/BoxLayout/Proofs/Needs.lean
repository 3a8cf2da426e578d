import BoxLayout.Proofs.Children
import BoxLayout.Proofs.Conditions
import BoxLayout.Proofs.Text.Width
import BoxLayout.Proofs.Tracks

/-!
# What a tree needs

The least extents of a tree that has unbounded room the other way (`Node.need`). In a firm tree
(`Node.IsFirm`), where leaves have a size of their own and every container gives each child room of
its own, the needs of a container are made of those of the children it visits: `HasNeed.padding`,
`HasNeed.align`, `HasNeed.stack`, `HasNeed.table`.
-/

namespace BoxLayout

namespace Leaf

/-- The size that a leaf has by itself, if it has one. -/
def ideal : Leaf → Option (Except Fault Size)
  | spacer size => some (.ok size)
  | canvas ideal _ _ => some (.ok ideal)
  | button label _ _ => some (buttonSize label)
  | text .. | portrait => none

theorem minExtent_of_ideal {leaf : Leaf} {ideal : Except Fault Size} (h : leaf.ideal = some ideal)
    (axis : Axis) (other : Int) : leaf.minExtent axis other = (·.along axis) <$> ideal := by
  cases leaf with
  | spacer | canvas => cases h; rfl
  | button label =>
    rw [minExtent, ← Option.some.inj h]
    cases buttonSize label <;> rfl
  | text | portrait => cases h

theorem measure_of_ideal {leaf : Leaf} {ideal : Except Fault Size} (h : leaf.ideal = some ideal)
    (given : Constraints) : leaf.measure given = ideal >>= given.constrain := by
  cases leaf with
  | spacer | canvas => cases h; rfl
  | button label => rw [measure, ← Option.some.inj h]
  | text | portrait => cases h

end Leaf

/-- No extent is negative. -/
def Size.IsNonneg (size : Size) : Prop := ∀ axis, 0 ≤ size.along axis

instance (size : Size) : Decidable size.IsNonneg :=
  inferInstanceAs (Decidable (∀ axis, 0 ≤ size.along axis))

namespace Leaf

/-- The leaf has a size of its own, which is not negative. -/
def IsNatural (leaf : Leaf) : Prop :=
  ∃ ideal, leaf.ideal = some ideal ∧ ∀ size, ideal = .ok size → size.IsNonneg

theorem isNatural_spacer {size : Size} (h : size.IsNonneg) : (spacer size).IsNatural :=
  ⟨_, rfl, fun _ hs => Except.ok.inj hs ▸ h⟩

end Leaf

namespace Node

/-- The node is of a kind that keeps what it needs: a leaf with a size of its own, insets that are
not negative, an alignment that reports the size of its child, a stack that shares out room by
weights that can be counted, or a table whose cells are numbered and whose tracks memory can
hold. -/
def IsFirm : Node → Prop
  | leaf _ content => content.IsNatural
  | padding _ insets _ => insets.IsNonneg
  | align _ alignment _ _ => ∀ axis, alignment.factor axis = .natural
  | stack _ style _ items => style.isHomogeneous = false ∧
    sumFlex ((items.filter (·.node.isLive)).map (·.flex)) ≤ maxFlex
  | table frame grid cells =>
    (table frame grid cells).IsNumbered ∧ grid.hasTooManyTracks = false

/-- The least extents of a node with unbounded room the other way. -/
def need (node : Node) : Size :=
  ⟨value (node.minExtent .horizontal Extent.inf), value (node.minExtent .vertical Extent.inf)⟩

/-- Both least extents are found. -/
def HasNeed (node : Node) : Prop :=
  ∀ axis, node.minExtent axis Extent.inf = .ok (node.need.along axis)

theorem along_need (node : Node) (axis : Axis) :
    node.need.along axis = value (node.minExtent axis Extent.inf) := by cases axis <;> rfl

theorem hasNeed_iff {node : Node} :
    node.HasNeed ↔ ∀ axis, ∃ least, node.minExtent axis Extent.inf = .ok least := by
  refine forall_congr' fun axis => ⟨fun h => ⟨_, h⟩, fun ⟨least, h⟩ => ?_⟩
  rw [along_need, h, value_ok]

variable {frame : Frame}

theorem HasNeed.leaf {content : Leaf} {ideal : Except Fault Size} (hi : content.ideal = some ideal)
    (h : (leaf frame content).HasNeed) : ideal = .ok (Node.leaf frame content).need := by
  have hfound (axis : Axis) := h axis
  simp only [minExtent, Leaf.minExtent_of_ideal hi, map_eq_ok_iff] at hfound
  obtain ⟨size, rfl, -⟩ := hfound .horizontal
  refine congrArg Except.ok (Size.eq_of_along fun axis => ?_)
  obtain ⟨_, he, hs⟩ := hfound axis
  exact Except.ok.inj he ▸ hs

theorem HasNeed.padding {insets : Insets} {child : Node}
    (h : (padding frame insets child).HasNeed) : child.HasNeed ∧ ∀ axis,
      insets.total axis = .ok (insets.amount axis) ∧
      (Node.padding frame insets child).need.along axis =
        Extent.saturatingAdd (child.need.along axis) (insets.amount axis) := by
  have hfound (axis : Axis) : child.minExtent axis Extent.inf = .ok (child.need.along axis) ∧
      insets.total axis = .ok (insets.amount axis) ∧
      (Node.padding frame insets child).need.along axis =
        Extent.saturatingAdd (child.need.along axis) (insets.amount axis) := by
    have ha := h axis
    rw [minExtent] at ha
    obtain ⟨inner, hi, hrest⟩ := bind_eq_ok_iff.1 ha
    obtain ⟨least, hl, hrest⟩ := bind_eq_ok_iff.1 hrest
    obtain ⟨amount, ht, hneed⟩ := bind_eq_ok_iff.1 hrest
    obtain ⟨taken, -, hi⟩ := bind_eq_ok_iff.1 hi
    obtain ⟨rest, -, hi⟩ := bind_eq_ok_iff.1 hi
    rw [← Except.ok.inj hi, Extent.infOr_inf] at hl
    have hamount : amount = insets.amount axis := by
      rw [Insets.total_eq_checked] at ht
      exact (Extent.checked_eq_ok_iff.1 ht).2
    rw [along_need child, hl, value_ok, ht, hamount, ← Except.ok.inj hneed, hamount]
    exact ⟨rfl, rfl, rfl⟩
  exact ⟨fun axis => (hfound axis).1, fun axis => (hfound axis).2⟩

theorem HasNeed.align {alignment : Alignment} {measured : Size} {child : Node}
    (hf : ∀ axis, alignment.factor axis = .natural)
    (h : (align frame alignment measured child).HasNeed) : child.HasNeed ∧ ∀ axis,
      (Node.align frame alignment measured child).need.along axis = child.need.along axis := by
  have hfound (axis : Axis) : child.minExtent axis Extent.inf =
      .ok ((Node.align frame alignment measured child).need.along axis) := by
    have ha := h axis
    rw [minExtent, hf] at ha
    obtain ⟨least, hl, ha⟩ := bind_eq_ok_iff.1 ha
    exact hl.trans ha
  have hneed (axis : Axis) : (Node.align frame alignment measured child).need.along axis =
      child.need.along axis := by rw [along_need child, hfound axis, value_ok]
  exact ⟨fun axis => hneed axis ▸ hfound axis, hneed⟩

theorem itemExtents_eq_ok {axis : Axis} {other : Int} {items : List (Item Node)}
    {extents : List Int} (h : itemExtents axis other items = .ok extents) :
    (∀ item ∈ items, item.node.isLive = true →
      item.node.minExtent axis other = .ok (value (item.node.minExtent axis other))) ∧
    extents = (items.filter (·.node.isLive)).map fun item =>
      value (item.node.minExtent axis other) := by
  rw [itemExtents_eq] at h
  obtain ⟨hfound, he⟩ := mapM_eq_ok_iff.1 h
  exact ⟨fun item hi hl => hfound item (List.mem_filter.2 ⟨hi, hl⟩), he⟩

theorem length_of_itemExtents {axis : Axis} {other : Int} {items : List (Item Node)}
    {extents : List Int} (h : itemExtents axis other items = .ok extents) :
    extents.length = liveCount items := by
  rw [(itemExtents_eq_ok h).2, List.length_map, liveCount, List.countP_eq_length_filter]

theorem HasNeed.stack {style : StackStyle} {totals : StackTotals} {items : List (Item Node)}
    (hs : style.isHomogeneous = false) (h : (stack frame style totals items).HasNeed) :
    (∀ item ∈ items, item.node.isLive = true → item.node.HasNeed) ∧
    (Node.stack frame style totals items).need.along style.axis = Extent.total
      ((items.filter (·.node.isLive)).map fun item => item.node.need.along style.axis) ∧
    (Node.stack frame style totals items).need.along style.axis.flip = Extent.largest
      ((items.filter (·.node.isLive)).map fun item => item.node.need.along style.axis.flip) := by
  have hmain := h style.axis
  have hcross := h style.axis.flip
  rw [minExtent, if_pos rfl] at hmain
  rw [minExtent, if_neg style.axis.flip_ne, StackStyle.slice, if_neg (by simp [hs])] at hcross
  obtain ⟨extents, he, hmain⟩ := bind_eq_ok_iff.1 hmain
  obtain ⟨inner, hi, hcross⟩ := bind_eq_ok_iff.1 hcross
  obtain ⟨extents', he', hcross⟩ := bind_eq_ok_iff.1 hcross
  rw [← Except.ok.inj hi] at he'
  obtain ⟨hfound, hextents⟩ := itemExtents_eq_ok he
  obtain ⟨hfound', hextents'⟩ := itemExtents_eq_ok he'
  refine ⟨fun item hi hl => ?_, ?_, ?_⟩
  · refine (Axis.forall_iff style.axis).2 ⟨?_, ?_⟩
    · rw [along_need]; exact hfound item hi hl
    · rw [along_need]; exact hfound' item hi hl
  · rw [← Except.ok.inj hmain, StackStyle.minMain, if_neg (by simp [hs]), hextents]
    simp only [along_need]
  · rw [← Except.ok.inj hcross, hextents']
    simp only [along_need]

theorem HasNeed.table {grid : Grid} {cells : List (Option Node)}
    (h : (table frame grid cells).HasNeed) : grid.isOversized = false ∧
      (∀ child, some child ∈ cells → child.isLive = true → child.HasNeed) ∧
      ∀ axis, (Node.table frame grid cells).need.along axis = grid.minExtent axis
        (pick isLiveCell (fun cell => (content cell).need.along axis) cells.zipIdx) := by
  have hg : grid.isOversized = false := by
    have ha := h .horizontal
    rw [minExtent] at ha
    split at ha
    · cases ha
    · rename_i hg
      simpa using hg
  have hfound (axis : Axis) : (∀ cell ∈ cells.zipIdx, isLiveCell cell = true →
        (content cell).minExtent axis Extent.inf = .ok ((content cell).need.along axis)) ∧
      (Node.table frame grid cells).need.along axis = grid.minExtent axis
        (pick isLiveCell (fun cell => (content cell).need.along axis) cells.zipIdx) := by
    have ha := h axis
    rw [minExtent, if_neg (by simp [hg]), Grid.share, Extent.scale_inf] at ha
    obtain ⟨share, hs, hrest⟩ := bind_eq_ok_iff.1 ha
    obtain ⟨extents, he, hneed⟩ := bind_eq_ok_iff.1 hrest
    rw [← Except.ok.inj hs, cellExtents_pick] at he
    obtain ⟨least, hl, rfl⟩ := pickM_eq_ok_iff.1 he
    have hleast : ∀ cell ∈ cells.zipIdx, isLiveCell cell = true →
        least cell = (content cell).need.along axis := fun cell hm hlive => by
      rw [along_need, hl cell hm hlive, value_ok]
    exact ⟨fun cell hm hlive => hleast cell hm hlive ▸ hl cell hm hlive,
      (Except.ok.inj hneed).symm.trans (congrArg _ (pick_congr hleast))⟩
  refine ⟨hg, fun child hm hl axis => ?_, fun axis => (hfound axis).2⟩
  obtain ⟨i, hi⟩ := List.mem_iff_getElem?.1 hm
  exact (hfound axis).1 (some child, i) (List.mem_zipIdx_iff_getElem?.2 hi) hl

/-! ## Needs grow from child to parent -/

/-- A table needs the tracks that cover its cells at what they need. -/
theorem HasNeed.table_eq_total {grid : Grid} {cells : List (Option Node)}
    (h : (Node.table frame grid cells).HasNeed)
    (hc : ∀ child, some child ∈ cells → child.isLive = true → child.need.IsNonneg) (axis : Axis) :
    (Node.table frame grid cells).need.along axis = Extent.total (grid.cover axis
      (pick isLiveCell (fun cell => (content cell).need) cells.zipIdx)).toList := by
  rw [h.table.2.2 axis, ← Grid.minExtent_eq_total_cover, map_pick]
  · rfl
  · intro size hs
    obtain ⟨cell, hm, hl, rfl⟩ := mem_pick.1 hs
    obtain ⟨-, hi, hlive⟩ := exists_of_isLiveCell hm hl
    exact hc _ (List.mem_of_getElem? hi) hlive axis

theorem isNonneg_need {root : Node} (h : root.AllReached IsFirm) (hn : root.HasNeed) :
    root.need.IsNonneg := by
  refine h.induct (motive := fun node => node.HasNeed → node.need.IsNonneg)
    (fun node firm ih hn => ?_) hn
  cases node with
  | leaf frame content =>
    obtain ⟨ideal, hi, hsize⟩ := firm
    exact hsize _ (hn.leaf hi)
  | padding frame insets child =>
    obtain ⟨hc, hneed⟩ := hn.padding
    intro axis
    obtain ⟨ht, he⟩ := hneed axis
    rw [he]
    exact (Extent.isLength_saturatingAdd (ih child (by simp [visited]) hc axis)
      (Insets.IsNonneg.amount_nonneg firm axis)).1
  | align frame alignment measured child =>
    obtain ⟨hc, hneed⟩ := hn.align firm
    intro axis
    rw [hneed]
    exact ih child (by simp [visited]) hc axis
  | stack frame style totals items =>
    obtain ⟨hc, hmain, hcross⟩ := hn.stack firm.1
    have hnn (axis : Axis) : ∀ v ∈ (items.filter (·.node.isLive)).map fun item =>
        item.node.need.along axis, 0 ≤ v :=
      forall_mem_map_filter.2 fun item hm hl =>
        ih _ (mem_visited_stack.2 ⟨item, hm, hl, rfl⟩) (hc item hm hl) axis
    refine (Axis.forall_iff style.axis).2 ⟨?_, ?_⟩
    · rw [hmain]; exact (Extent.isLength_total (hnn _)).1
    · rw [hcross, Extent.largest_eq_foldl (hnn _)]; exact Extent.le_foldl_max.1
  | table frame grid cells =>
    obtain ⟨-, hc, -⟩ := hn.table
    intro axis
    rw [hn.table_eq_total fun child hm hl =>
      ih child (mem_visited_table.2 ⟨hm, hl⟩) (hc child hm hl)]
    exact (Extent.isLength_total Grid.nonneg_of_mem_cover).1

/-- The least extents are found and are finite. -/
def HasFiniteNeed (node : Node) : Prop :=
  node.HasNeed ∧ ∀ axis, node.need.along axis < Extent.inf

/-- A visited child needs no more than its parent. -/
theorem HasFiniteNeed.of_visited {node child : Node} (firm : node.AllReached IsFirm)
    (h : node.HasFiniteNeed) (hc : child ∈ node.visited) : child.HasNeed ∧
      ∀ axis, child.need.along axis ≤ node.need.along axis := by
  obtain ⟨hn, hf⟩ := h
  obtain ⟨hfirm, hbelow⟩ := (allReached_iff _).1 firm
  cases node with
  | leaf frame content => cases hc
  | padding frame insets below =>
    obtain rfl := List.mem_singleton.1 hc
    obtain ⟨hchild, hneed⟩ := hn.padding
    refine ⟨hchild, fun axis => ?_⟩
    have hnn := isNonneg_need (hbelow _ hc) hchild axis
    have hamount := Insets.IsNonneg.amount_nonneg hfirm axis
    have hlt := hf axis
    rw [(hneed axis).2, Extent.saturatingAdd_eq_min hnn hamount] at *
    omega
  | align frame alignment measured below =>
    obtain rfl := List.mem_singleton.1 hc
    obtain ⟨hchild, hneed⟩ := hn.align hfirm
    exact ⟨hchild, fun axis => Int.le_of_eq (hneed axis).symm⟩
  | stack frame style totals items =>
    obtain ⟨item, hi, hl, rfl⟩ := mem_visited_stack.1 hc
    obtain ⟨hchild, hmain, hcross⟩ := hn.stack hfirm.1
    have hnn (axis : Axis) : ∀ v ∈ (items.filter (·.node.isLive)).map fun item =>
        item.node.need.along axis, 0 ≤ v :=
      forall_mem_map_filter.2 fun item hm hl => isNonneg_need
        (hbelow _ (mem_visited_stack.2 ⟨item, hm, hl, rfl⟩)) (hchild item hm hl) axis
    have hmem : item ∈ items.filter (·.node.isLive) := List.mem_filter.2 ⟨hi, hl⟩
    refine ⟨hchild item hi hl, (Axis.forall_iff style.axis).2 ⟨?_, ?_⟩⟩
    · have hlt := hf style.axis
      rw [hmain] at hlt ⊢
      rw [Extent.total_eq_sum (hnn _) hlt]
      exact List.single_le_sum (hnn _) _ (List.mem_map_of_mem hmem)
    · rw [hcross, Extent.largest_eq_foldl (hnn _)]
      exact Extent.le_foldl_max.2 _ (List.mem_map_of_mem hmem)
  | table frame grid cells =>
    obtain ⟨hm, hl⟩ := mem_visited_table.1 hc
    obtain ⟨-, hchild, -⟩ := hn.table
    refine ⟨hchild child hm hl, fun axis => ?_⟩
    have hlt := hf axis
    obtain ⟨i, hi⟩ := List.mem_iff_getElem?.1 hm
    have hsize : i < grid.size :=
      Nat.lt_of_lt_of_le (List.getElem?_eq_some_iff.1 hi).1 hfirm.1.length_le
    have hcell : (pick isLiveCell (fun cell => (content cell).need) cells.zipIdx)[i]? =
        some (some child.need) := getElem?_pick_cell hi hl
    rw [hn.table_eq_total fun child hm hl =>
      isNonneg_need (hbelow _ (mem_visited_table.2 ⟨hm, hl⟩)) (hchild child hm hl)] at hlt ⊢
    rw [Extent.total_eq_sum Grid.nonneg_of_mem_cover hlt]
    obtain ⟨hslot, hsum⟩ := Grid.along_slotSize_bounds axis hsize hcell
    exact Int.le_trans hslot hsum

end Node

end BoxLayout
