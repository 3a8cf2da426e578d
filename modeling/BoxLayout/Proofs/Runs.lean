import BoxLayout.Proofs.Children
import BoxLayout.Proofs.Reach

/-!
# What a successful measuring did

One lemma for each kind of node says what a measuring that gave a result must have done: the
constraints it derived, what its children answered, how answer and tree came about, and which calls
were made (`run_padding`, `run_align`, `run_stack`, `run_table`). For a stack that has children the
steps are kept in a record of their own, a `Sharing`. Most of what follows looks at answer and tree
alone and uses the shorter form without the calls (`measure_padding` and the others). Conversely,
the steps of a padding, of a stack and the answers of a table's cells make up a measuring
(`measure_padding_of_total`, `measure_of_isRun`, `measure_table_of_answers`).
-/

namespace BoxLayout

/-- What a stack computes while it is measured: the total of the weights, the extent that stretched
children fill, the offer and what each child answered to it, the room to share, and for each child
that shares in it the enlarged offer and the second answer. -/
structure Sharing where
  flex : Nat
  breadth : Int
  offer : Constraints
  once : Item Node → Measured
  extra : Int
  enlarged : Item Node → Constraints
  again : Item Node → Measured
  extent : Int

namespace Sharing

/-- The child is measured again. -/
def shares (run : Sharing) (item : Item Node) : Bool :=
  item.node.isLive && StackStyle.sharesIn run.extra item.flex

theorem isLive_of_shares {run : Sharing} (item : Item Node) (h : run.shares item = true) :
    item.node.isLive = true := (Bool.and_eq_true_iff.1 h).1

theorem extra_pos_of_shares {run : Sharing} {item : Item Node} (h : run.shares item = true) :
    0 < run.extra := (StackStyle.sharesIn_iff.1 (Bool.and_eq_true_iff.1 h).2).1

/-- What measuring the child found out in the end. -/
def last (run : Sharing) (item : Item Node) : Measured :=
  if run.shares item then run.again item else run.once item

/-- The extents of children along and across the axis, at the first and at the second measuring. -/
def onceAlong (run : Sharing) (axis : Axis) (items : List (Item Node)) : List Int :=
  (items.filter (·.node.isLive)).map fun item => (run.once item).size.along axis

def againAlong (run : Sharing) (axis : Axis) (items : List (Item Node)) : List Int :=
  (items.filter run.shares).map fun item => (run.again item).size.along axis

/-- The changes that the second measuring makes along the axis. -/
def changes (run : Sharing) (axis : Axis) (items : List (Item Node)) : List (Int × Int) :=
  (items.filter run.shares).map fun item =>
    ((run.once item).size.along axis, (run.again item).size.along axis)

/-- The extent across the axis. -/
def breadthOf (run : Sharing) (style : StackStyle) (items : List (Item Node)) : Int :=
  if style.align = .stretch then (run.offer.along style.axis.flip).hi
  else (run.onceAlong style.axis.flip items ++ run.againAlong style.axis.flip items).foldl max 0

/-- A child after it was measured. -/
def settled (run : Sharing) (item : Item Node) : Item Node :=
  if item.node.isLive then ⟨(run.last item).node, item.flex, (run.last item).size⟩ else item

theorem settled_of_isLive (run : Sharing) {item : Item Node} (h : item.node.isLive = true) :
    run.settled item = ⟨(run.last item).node, item.flex, (run.last item).size⟩ := if_pos h

/-- The steps are those of measuring `stack`, which has the given style and children. -/
structure IsRun (run : Sharing) (stack : Node) (style : StackStyle) (items : List (Item Node))
    (given : Constraints) : Prop where
  flex : style.totalFlex ((items.filter (·.node.isLive)).map (·.flex)) = .ok run.flex
  breadth : stack.breadth style given = .ok run.breadth
  offer : style.offer given (Node.liveCount items) run.breadth = .ok run.offer
  once : ∀ item ∈ items, item.node.isLive = true →
    item.node.measure run.offer = .ok (run.once item)
  extra : (if run.flex = 0 then .ok 0 else StackStyle.spare (given.along style.axis)
    (Extent.total (run.onceAlong style.axis items))) = .ok run.extra
  enlarged : ∀ item ∈ items, run.shares item = true →
    style.enlarge run.offer run.extra run.flex item.flex
      ((run.once item).size.along style.axis) = .ok (run.enlarged item)
  again : ∀ item ∈ items, run.shares item = true →
    item.node.measure (run.enlarged item) = .ok (run.again item)
  extent : (run.changes style.axis items).foldlM StackStyle.replaceIn
    (Extent.total (run.onceAlong style.axis items)) = .ok run.extent

end Sharing

namespace Node

variable {frame : Frame} {given : Constraints} {m : Measured}

theorem ite_error_eq_ok_iff {α : Type} {c : Prop} [Decidable c] {fault : Fault}
    {result : Except Fault α} {a : α} :
    (if c then .error fault else result) = .ok a ↔ ¬ c ∧ result = .ok a := by
  split <;> simp_all

/-- A node that answers has been asked under normalized constraints. -/
theorem isNormalized_of_measure {node : Node} (h : node.measure given = .ok m) :
    given.isNormalized = true := by
  rw [measure.eq_def] at h
  simpa using (ite_error_eq_ok_iff.1 h).1

theorem visit_of_measure {node : Node} (h : node.measure given = .ok m) :
    m.visit = .mk node.name ⟨given, m.size⟩ m.visit.calls := by
  rw [measure.eq_def] at h
  obtain ⟨finding, -, rfl⟩ := map_eq_ok_iff.1 (ite_error_eq_ok_iff.1 h).2
  rfl

/-- The call itself is the first event of the visit. -/
theorem event_of_measure {node : Node} (h : node.measure given = .ok m) :
    m.visit.event = ⟨given, m.size⟩ := by
  rw [visit_of_measure h]
  rfl

theorem run_leaf {content : Leaf} (h : (leaf frame content).measure given = .ok m) :
    content.measure given = .ok m.size ∧ m.node = leaf frame content ∧ m.visit.calls = [] := by
  rw [measure] at h
  obtain ⟨finding, hm, rfl⟩ := map_eq_ok_iff.1 (ite_error_eq_ok_iff.1 h).2
  obtain ⟨answer, ha, hm⟩ := bind_eq_ok_iff.1 hm
  cases hm
  exact ⟨ha, rfl, rfl⟩

theorem measure_leaf {content : Leaf} (h : (leaf frame content).measure given = .ok m) :
    content.measure given = .ok m.size ∧ m.node = leaf frame content := by
  obtain ⟨ha, hnode, -⟩ := run_leaf h
  exact ⟨ha, hnode⟩

theorem run_padding {insets : Insets} {child : Node}
    (h : (padding frame insets child).measure given = .ok m) :
    ∃ width height inner found, insets.total .horizontal = .ok width ∧
      insets.total .vertical = .ok height ∧ given.inset width height = .ok inner ∧
      child.measure inner = .ok found ∧ insets.around found.size = .ok m.size ∧
      m.node = padding frame insets found.node ∧ m.visit.calls = [(0, found.visit)] := by
  rw [measure] at h
  obtain ⟨finding, hm, rfl⟩ := map_eq_ok_iff.1 (ite_error_eq_ok_iff.1 h).2
  obtain ⟨width, hw, hm⟩ := bind_eq_ok_iff.1 hm
  obtain ⟨height, hh, hm⟩ := bind_eq_ok_iff.1 hm
  obtain ⟨inner, hi, hm⟩ := bind_eq_ok_iff.1 hm
  obtain ⟨found, hf, hm⟩ := bind_eq_ok_iff.1 hm
  obtain ⟨answer, ha, hm⟩ := bind_eq_ok_iff.1 hm
  cases hm
  exact ⟨width, height, inner, found, hw, hh, hi, hf, ha, rfl, rfl⟩

theorem measure_padding {insets : Insets} {child : Node}
    (h : (padding frame insets child).measure given = .ok m) :
    ∃ width height inner found, insets.total .horizontal = .ok width ∧
      insets.total .vertical = .ok height ∧ given.inset width height = .ok inner ∧
      child.measure inner = .ok found ∧ insets.around found.size = .ok m.size ∧
      m.node = padding frame insets found.node := by
  obtain ⟨width, height, inner, found, hw, hh, hi, hf, ha, hnode, -⟩ := run_padding h
  exact ⟨width, height, inner, found, hw, hh, hi, hf, ha, hnode⟩

/-- Once the totals of its insets are known, a padding takes them away from its constraints, asks
its child about what is left, and adds them to the answer. -/
theorem measure_padding_of_total {insets : Insets} {amount : Size}
    (hn : given.isNormalized = true) (ht : ∀ axis, insets.total axis = .ok (amount.along axis))
    (frame : Frame) (child : Node) :
    (padding frame insets child).measure given =
      given.inset amount.width amount.height >>= fun inner =>
        (fun found => ⟨padding frame insets found.node, .mk "Padding"
          ⟨given, found.size.saturatingAdd amount⟩ [(0, found.visit)]⟩) <$>
        child.measure inner := by
  have hwidth : insets.total .horizontal = .ok amount.width := ht .horizontal
  have hheight : insets.total .vertical = .ok amount.height := ht .vertical
  rw [measure, if_neg (by simp [hn]), hwidth, hheight]
  show _ <$> (given.inset _ _ >>= _) = _
  cases given.inset amount.width amount.height with
  | error fault => rfl
  | ok inner =>
    show _ <$> (child.measure inner >>= _) = _ <$> child.measure inner
    cases child.measure inner with
    | error fault => rfl
    | ok found =>
      show _ <$> (insets.around found.size >>= _) = _
      rw [Insets.around, hwidth, hheight]
      rfl

theorem run_align {alignment : Alignment} {measured : Size} {child : Node}
    (h : (align frame alignment measured child).measure given = .ok m) :
    ∃ found, child.measure given.loosen = .ok found ∧
      given.constrain (alignment.scaled found.size) = .ok m.size ∧
      m.node = align frame alignment found.size found.node ∧
      m.visit.calls = [(0, found.visit)] := by
  rw [measure] at h
  obtain ⟨finding, hm, rfl⟩ := map_eq_ok_iff.1 (ite_error_eq_ok_iff.1 h).2
  obtain ⟨found, hf, hm⟩ := bind_eq_ok_iff.1 hm
  obtain ⟨answer, ha, hm⟩ := bind_eq_ok_iff.1 hm
  cases hm
  exact ⟨found, hf, ha, rfl, rfl⟩

theorem measure_align {alignment : Alignment} {measured : Size} {child : Node}
    (h : (align frame alignment measured child).measure given = .ok m) :
    ∃ found, child.measure given.loosen = .ok found ∧
      given.constrain (alignment.scaled found.size) = .ok m.size ∧
      m.node = align frame alignment found.size found.node := by
  obtain ⟨found, hf, ha, hnode, -⟩ := run_align h
  exact ⟨found, hf, ha, hnode⟩

theorem run_stack {style : StackStyle} {totals : StackTotals} {items : List (Item Node)}
    (h : (stack frame style totals items).measure given = .ok m) (hl : liveCount items ≠ 0) :
    ∃ run : Sharing, run.IsRun (stack frame style totals items) style items given ∧
      given.constrain (.ofAxis style.axis run.extent (run.breadthOf style items)) = .ok m.size ∧
      m.node = stack frame style ⟨run.flex, run.extent⟩ (items.map run.settled) ∧
      m.visit.calls = Measured.calls (pick (·.node.isLive) run.once items) ++
        Measured.calls (pick run.shares run.again items) := by
  rw [measure] at h
  obtain ⟨finding, hm, rfl⟩ := map_eq_ok_iff.1 (ite_error_eq_ok_iff.1 h).2
  dsimp only at hm
  rw [if_neg hl] at hm
  obtain ⟨flex, hflex, hm⟩ := bind_eq_ok_iff.1 hm
  obtain ⟨breadth, hbreadth, hm⟩ := bind_eq_ok_iff.1 hm
  obtain ⟨offer, hoffer, hm⟩ := bind_eq_ok_iff.1 hm
  obtain ⟨first, hfirst, hm⟩ := bind_eq_ok_iff.1 hm
  rw [offerAll_eq_pick, measureItems_pick] at hfirst
  obtain ⟨once, honce, rfl⟩ := pickM_eq_ok_iff.1 hfirst
  rw [Measured.sizes_pick] at hm
  obtain ⟨extra, hextra, hm⟩ := bind_eq_ok_iff.1 hm
  obtain ⟨offers, hoffers, hm⟩ := bind_eq_ok_iff.1 hm
  rw [StackStyle.secondOffers_pick] at hoffers
  obtain ⟨enlarged, henlarged, rfl⟩ := pickM_eq_ok_iff.1 hoffers
  obtain ⟨second, hsecond, hm⟩ := bind_eq_ok_iff.1 hm
  rw [measureItems_pick] at hsecond
  obtain ⟨again, hagain, rfl⟩ := pickM_eq_ok_iff.1 hsecond
  obtain ⟨extent, hextent, hm⟩ := bind_eq_ok_iff.1 hm
  have hsub (item : Item Node) (h : (item.node.isLive && StackStyle.sharesIn extra item.flex) =
      true) : item.node.isLive = true := (Bool.and_eq_true_iff.1 h).1
  rw [Measured.sizes_pick, StackStyle.extentOf_pick style hsub] at hextent
  rw [Measured.sizes_pick, StackStyle.breadthOf_pick, zipWith_orElse_pick hsub,
    zipWith_settle_pick] at hm
  obtain ⟨answer, hanswer, hm⟩ := bind_eq_ok_iff.1 hm
  cases hm
  rw [StackStyle.extra, StackStyle.extentsAlong_pick] at hextra
  exact ⟨⟨flex, breadth, offer, once, extra, enlarged, again, extent⟩,
    ⟨hflex, hbreadth, hoffer, honce, hextra, henlarged, hagain, hextent⟩, hanswer, rfl, rfl⟩

theorem measure_stack {style : StackStyle} {totals : StackTotals} {items : List (Item Node)}
    (h : (stack frame style totals items).measure given = .ok m) (hl : liveCount items ≠ 0) :
    ∃ run : Sharing, run.IsRun (stack frame style totals items) style items given ∧
      given.constrain (.ofAxis style.axis run.extent (run.breadthOf style items)) = .ok m.size ∧
      m.node = stack frame style ⟨run.flex, run.extent⟩ (items.map run.settled) := by
  obtain ⟨run, hr, ha, hnode, -⟩ := run_stack h hl
  exact ⟨run, hr, ha, hnode⟩

/-- Such steps make up a measuring. -/
theorem measure_of_isRun {style : StackStyle} {totals : StackTotals} {items : List (Item Node)}
    {run : Sharing} {answer : Size} (hn : given.isNormalized = true) (hl : liveCount items ≠ 0)
    (hr : run.IsRun (stack frame style totals items) style items given)
    (ha : given.constrain (.ofAxis style.axis run.extent (run.breadthOf style items)) =
      .ok answer) :
    (stack frame style totals items).measure given =
      .ok (Finding.measured ⟨stack frame style ⟨run.flex, run.extent⟩ (items.map run.settled),
        answer, Measured.calls (pick (·.node.isLive) run.once items) ++
          Measured.calls (pick run.shares run.again items)⟩
        (stack frame style totals items).name given) := by
  have hsub : ∀ item, run.shares item = true → item.node.isLive = true :=
    Sharing.isLive_of_shares
  have hfirst : measureItems items (offerAll run.offer items) =
      .ok (pick (·.node.isLive) run.once items) := by
    rw [offerAll_eq_pick, measureItems_pick]
    exact pickM_eq_ok_iff.2 ⟨_, hr.once, rfl⟩
  have hoffers : style.secondOffers run.offer run.extra run.flex ((items.map (·.flex)).zip
      (pick (·.node.isLive) (fun item => (run.once item).size) items)) =
        .ok (pick run.shares run.enlarged items) := by
    rw [StackStyle.secondOffers_pick]
    exact pickM_eq_ok_iff.2 ⟨_, hr.enlarged, rfl⟩
  have hsecond : measureItems items (pick run.shares run.enlarged items) =
      .ok (pick run.shares run.again items) := by
    rw [measureItems_pick]
    exact pickM_eq_ok_iff.2 ⟨_, hr.again, rfl⟩
  have hextra : style.extra given run.flex
      (pick (·.node.isLive) (fun item => (run.once item).size) items) = .ok run.extra := by
    rw [StackStyle.extra, StackStyle.extentsAlong_pick]
    exact hr.extra
  have hextent : style.extentOf (pick (·.node.isLive) (fun item => (run.once item).size) items)
      (pick run.shares (fun item => (run.again item).size) items) = .ok run.extent := by
    rw [StackStyle.extentOf_pick style hsub]
    exact hr.extent
  rw [measure, if_neg (by simp [hn])]
  dsimp only
  rw [if_neg hl]
  refine map_eq_ok_iff.2 ⟨_, bind_eq_ok_iff.2 ⟨_, hr.flex, bind_eq_ok_iff.2 ⟨_, hr.breadth,
    bind_eq_ok_iff.2 ⟨_, hr.offer, bind_eq_ok_iff.2 ⟨_, hfirst, ?_⟩⟩⟩⟩, rfl⟩
  rw [Measured.sizes_pick]
  refine bind_eq_ok_iff.2 ⟨_, hextra, bind_eq_ok_iff.2 ⟨_, hoffers, bind_eq_ok_iff.2
    ⟨_, hsecond, ?_⟩⟩⟩
  rw [Measured.sizes_pick, StackStyle.breadthOf_pick, zipWith_orElse_pick hsub,
    zipWith_settle_pick]
  exact bind_eq_ok_iff.2 ⟨_, hextent, bind_eq_ok_iff.2 ⟨_, ha, rfl⟩⟩

theorem run_stack_empty {style : StackStyle} {totals : StackTotals} {items : List (Item Node)}
    (h : (stack frame style totals items).measure given = .ok m) (hl : liveCount items = 0) :
    given.constrain .zero = .ok m.size ∧ m.node = stack frame style .zero items ∧
      m.visit.calls = [] := by
  rw [measure] at h
  obtain ⟨finding, hm, rfl⟩ := map_eq_ok_iff.1 (ite_error_eq_ok_iff.1 h).2
  dsimp only at hm
  rw [if_pos hl] at hm
  obtain ⟨answer, ha, hm⟩ := bind_eq_ok_iff.1 hm
  cases hm
  exact ⟨ha, rfl, rfl⟩

/-- A stack none of whose children takes part asks for no room. -/
theorem measure_of_empty {style : StackStyle} {totals : StackTotals} {items : List (Item Node)}
    {answer : Size} (hn : given.isNormalized = true) (hl : liveCount items = 0)
    (ha : given.constrain .zero = .ok answer) : (stack frame style totals items).measure given =
      .ok (Finding.measured ⟨stack frame style .zero items, answer, []⟩
        (stack frame style totals items).name given) := by
  rw [measure, if_neg (by simp [hn])]
  dsimp only
  rw [if_pos hl]
  exact map_eq_ok_iff.2 ⟨_, bind_eq_ok_iff.2 ⟨_, ha, rfl⟩, rfl⟩

theorem measure_stack_empty {style : StackStyle} {totals : StackTotals} {items : List (Item Node)}
    (h : (stack frame style totals items).measure given = .ok m) (hl : liveCount items = 0) :
    given.constrain .zero = .ok m.size ∧ m.node = stack frame style .zero items := by
  obtain ⟨ha, hnode, -⟩ := run_stack_empty h hl
  exact ⟨ha, hnode⟩

theorem run_table {grid : Grid} {cells : List (Option Node)}
    (h : (table frame grid cells).measure given = .ok m) :
    grid.hasTooManyTracks = false ∧ ∃ (once again : Option Node × Nat → Measured) (sized : Grid),
      sized = grid.measured (pick isLiveCell (fun cell => (once cell).size) cells.zipIdx) ∧
      (∀ cell ∈ cells.zipIdx, isLiveCell cell = true →
        (content cell).measure .free = .ok (once cell)) ∧
      (∀ cell ∈ cells.zipIdx, isLiveCell cell = true →
        (content cell).measure (.exactly (sized.slotSize cell.2)) = .ok (again cell)) ∧
      given.constrain sized.contentSize = .ok m.size ∧
      m.node = table frame sized (cells.zipIdx.map fun cell =>
        if isLiveCell cell then some (again cell).node else cell.1) ∧
      m.visit.calls = Measured.calls (pick isLiveCell once cells.zipIdx) ++
        Measured.calls (pick isLiveCell again cells.zipIdx) := by
  rw [measure] at h
  obtain ⟨finding, hm, rfl⟩ := map_eq_ok_iff.1 (ite_error_eq_ok_iff.1 h).2
  obtain ⟨htracks, hm⟩ := ite_error_eq_ok_iff.1 hm
  refine ⟨by simpa using htracks, ?_⟩
  obtain ⟨first, hfirst, hm⟩ := bind_eq_ok_iff.1 hm
  rw [measureCells_pick] at hfirst
  obtain ⟨once, honce, rfl⟩ := pickM_eq_ok_iff.1 hfirst
  rw [Measured.sizes_pick] at hm
  obtain ⟨second, hsecond, hm⟩ := bind_eq_ok_iff.1 hm
  rw [measureCells_pick] at hsecond
  obtain ⟨again, hagain, rfl⟩ := pickM_eq_ok_iff.1 hsecond
  obtain ⟨answer, ha, hm⟩ := bind_eq_ok_iff.1 hm
  rw [zipWith_settleCell_pick] at hm
  cases hm
  exact ⟨once, again, _, rfl, honce, hagain, ha, rfl, rfl⟩

/-- What the cells of a table answer makes up a measuring of the table. -/
theorem measure_table_of_answers {grid : Grid} {cells : List (Option Node)}
    {once again : Option Node × Nat → Measured} {sized : Grid} {answer : Size}
    (hn : given.isNormalized = true) (hg : grid.hasTooManyTracks = false)
    (honce : ∀ cell ∈ cells.zipIdx, isLiveCell cell = true →
      (content cell).measure .free = .ok (once cell))
    (hsized : sized = grid.measured (pick isLiveCell (fun cell => (once cell).size) cells.zipIdx))
    (hagain : ∀ cell ∈ cells.zipIdx, isLiveCell cell = true →
      (content cell).measure (.exactly (sized.slotSize cell.2)) = .ok (again cell))
    (ha : given.constrain sized.contentSize = .ok answer) :
    (table frame grid cells).measure given =
      .ok (Finding.measured ⟨table frame sized (cells.zipIdx.map fun cell =>
          if isLiveCell cell then some (again cell).node else cell.1),
        answer, Measured.calls (pick isLiveCell once cells.zipIdx) ++
          Measured.calls (pick isLiveCell again cells.zipIdx)⟩
        (table frame grid cells).name given) := by
  subst hsized
  have hfirst : measureCells (fun _ => .free) 0 [] cells =
      .ok (pick isLiveCell once cells.zipIdx) := by
    rw [measureCells_pick]
    exact pickM_eq_ok_iff.2 ⟨_, honce, rfl⟩
  rw [measure, if_neg (by simp [hn])]
  dsimp only
  rw [if_neg (by simp [hg])]
  refine map_eq_ok_iff.2 ⟨_, bind_eq_ok_iff.2 ⟨_, hfirst, ?_⟩, rfl⟩
  rw [Measured.sizes_pick]
  refine bind_eq_ok_iff.2 ⟨pick isLiveCell again cells.zipIdx, ?_, ?_⟩
  · rw [measureCells_pick]
    exact pickM_eq_ok_iff.2 ⟨_, hagain, rfl⟩
  · rw [zipWith_settleCell_pick]
    exact bind_eq_ok_iff.2 ⟨_, ha, rfl⟩

theorem measure_table {grid : Grid} {cells : List (Option Node)}
    (h : (table frame grid cells).measure given = .ok m) :
    ∃ (once again : Option Node × Nat → Measured) (sized : Grid),
      sized = grid.measured (pick isLiveCell (fun cell => (once cell).size) cells.zipIdx) ∧
      (∀ cell ∈ cells.zipIdx, isLiveCell cell = true →
        (content cell).measure .free = .ok (once cell)) ∧
      (∀ cell ∈ cells.zipIdx, isLiveCell cell = true →
        (content cell).measure (.exactly (sized.slotSize cell.2)) = .ok (again cell)) ∧
      given.constrain sized.contentSize = .ok m.size ∧
      m.node = table frame sized (cells.zipIdx.map fun cell =>
        if isLiveCell cell then some (again cell).node else cell.1) := by
  obtain ⟨-, once, again, sized, hsized, honce, hagain, ha, hnode, -⟩ := run_table h
  exact ⟨once, again, sized, hsized, honce, hagain, ha, hnode⟩

/-- Measuring changes neither what a node is nor whether it takes part. -/
theorem isLive_of_measure {node : Node} (h : node.measure given = .ok m) :
    m.node.isLive = node.isLive := by
  cases node with
  | leaf frame content => rw [(measure_leaf h).2]
  | padding frame insets child =>
    obtain ⟨_, _, _, _, -, -, -, -, -, hnode⟩ := measure_padding h
    rw [hnode, isLive_padding, isLive_padding]
  | align frame alignment measured child =>
    obtain ⟨_, -, -, hnode⟩ := measure_align h
    rw [hnode, isLive_align, isLive_align]
  | stack frame style totals items =>
    rcases Classical.em (liveCount items = 0) with hl | hl
    · rw [(measure_stack_empty h hl).2, isLive_stack, isLive_stack]
    · obtain ⟨_, -, -, hnode⟩ := measure_stack h hl
      rw [hnode, isLive_stack, isLive_stack]
  | table frame grid cells =>
    obtain ⟨_, _, _, -, -, -, -, hnode⟩ := measure_table h
    rw [hnode, isLive_table, isLive_table]

end Node

namespace Sharing.IsRun

open Node

variable {run : Sharing} {stack : Node} {style : StackStyle} {items : List (Item Node)}
  {given : Constraints}

/-- What was found out about a child in the end was found out by measuring it. -/
theorem exists_measure_last (h : run.IsRun stack style items given) {item : Item Node}
    (hi : item ∈ items) (hl : item.node.isLive = true) :
    ∃ given, item.node.measure given = .ok (run.last item) := by
  unfold Sharing.last
  split
  · rename_i hq
    exact ⟨_, h.again item hi hq⟩
  · exact ⟨_, h.once item hi hl⟩

theorem isLive_settled (h : run.IsRun stack style items given) {item : Item Node}
    (hi : item ∈ items) : (run.settled item).node.isLive = item.node.isLive := by
  by_cases hl : item.node.isLive = true
  · obtain ⟨given, hlast⟩ := h.exists_measure_last hi hl
    rw [run.settled_of_isLive hl]
    exact isLive_of_measure hlast
  · rw [Sharing.settled, if_neg hl]

/-- The children that take part afterwards are those that took part before. -/
theorem map_filter_settled (h : run.IsRun stack style items given) {α : Type}
    (f : Item Node → α) : ((items.map run.settled).filter (·.node.isLive)).map f =
      (items.filter (·.node.isLive)).map fun item =>
        f ⟨(run.last item).node, item.flex, (run.last item).size⟩ := by
  have hsame : items.filter ((·.node.isLive) ∘ run.settled) = items.filter (·.node.isLive) :=
    List.filter_congr fun item hi => h.isLive_settled hi
  rw [List.filter_map, hsame, List.map_map]
  exact List.map_congr_left fun item hm =>
    congrArg f (run.settled_of_isLive (List.mem_filter.1 hm).2)

end Sharing.IsRun

namespace Node

/-- What a measured node visits are the nodes that it visited before, as measuring them left
them. -/
theorem exists_of_mem_visited {node : Node} {given : Constraints} {m : Measured}
    (h : node.measure given = .ok m) {below : Node} (hb : below ∈ m.node.visited) :
    ∃ child ∈ node.visited, ∃ given found, child.measure given = .ok found ∧
      found.node = below := by
  cases node with
  | leaf frame content =>
    rw [(measure_leaf h).2] at hb
    cases hb
  | padding frame insets child =>
    obtain ⟨_, _, inner, found, -, -, -, hf, -, hnode⟩ := measure_padding h
    rw [hnode] at hb
    exact ⟨child, by simp [visited], inner, found, hf, (List.mem_singleton.1 hb).symm⟩
  | align frame alignment measured child =>
    obtain ⟨found, hf, -, hnode⟩ := measure_align h
    rw [hnode] at hb
    exact ⟨child, by simp [visited], _, found, hf, (List.mem_singleton.1 hb).symm⟩
  | stack frame style totals items =>
    rcases Classical.em (liveCount items = 0) with hcount | hcount
    · rw [(measure_stack_empty h hcount).2] at hb
      obtain ⟨item, hi, hl, -⟩ := mem_visited_stack.1 hb
      exact absurd hl (List.countP_eq_zero.1 hcount item hi)
    · obtain ⟨run, hr, -, hnode⟩ := measure_stack h hcount
      rw [hnode] at hb
      obtain ⟨settled, hs, hl, rfl⟩ := mem_visited_stack.1 hb
      obtain ⟨item, hi, rfl⟩ := List.mem_map.1 hs
      rw [hr.isLive_settled hi] at hl
      obtain ⟨given', hlast⟩ := hr.exists_measure_last hi hl
      refine ⟨item.node, mem_visited_stack.2 ⟨item, hi, hl, rfl⟩, given', _, hlast, ?_⟩
      rw [run.settled_of_isLive hl]
  | table frame grid cells =>
    obtain ⟨_, again, sized, -, -, hagain, -, hnode⟩ := measure_table h
    rw [hnode] at hb
    obtain ⟨hmem, hl⟩ := mem_visited_table.1 hb
    obtain ⟨cell, hc, hcell⟩ := List.mem_map.1 hmem
    by_cases hlive : isLiveCell cell = true
    · rw [if_pos hlive] at hcell
      obtain ⟨-, hi, hchild⟩ := exists_of_isLiveCell hc hlive
      exact ⟨_, mem_visited_table.2 ⟨List.mem_of_getElem? hi, hchild⟩, _, _, hagain cell hc hlive,
        Option.some.inj hcell⟩
    · rw [if_neg hlive] at hcell
      rw [isLiveCell, hcell] at hlive
      exact absurd hl hlive

/-- What measuring establishes of each node of a kind, it establishes throughout a tree of nodes of
that kind. -/
theorem AllReached.of_measure {P Q : Node → Prop}
    (step : ∀ node given m, P node → node.measure given = .ok m → Q m.node) {root : Node}
    (h : root.AllReached P) {given : Constraints} {m : Measured}
    (hm : root.measure given = .ok m) : m.node.AllReached Q := by
  refine h.induct (motive := fun node => ∀ given m, node.measure given = .ok m →
    m.node.AllReached Q) (fun node hp ih given m hm => ?_) given m hm
  refine (allReached_iff _).2 ⟨step node given m hp hm, fun below hb => ?_⟩
  obtain ⟨child, hc, given', found, hf, rfl⟩ := exists_of_mem_visited hm hb
  exact ih child hc given' found hf

end Node

end BoxLayout
