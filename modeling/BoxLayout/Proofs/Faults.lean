import BoxLayout.Proofs.Offers
import BoxLayout.Proofs.Queries
import BoxLayout.Proofs.Runs
import BoxLayout.Proofs.Tracks

/-!
# When measuring fails

In a tame tree, measuring under normalized constraints fails for two reasons only: the weights in
some stack add up to more than can be counted, or memory cannot hold the tracks of some table
(`measure_eq_error_iff`). The second reason needs no overweight stack and not even a cell
(`faults_of_wide_and_half_made_tables`). Every container passes normalized constraints on to its
children and every child answers with lengths, so one lemma for each kind of container carries this
through the tree (`Answers.padding`, `Answers.align`, `Answers.stack`, `Answers.table`).
-/

namespace BoxLayout

theorem le_sumFlex {flexes : List Nat} {flex : Nat} (h : flex ∈ flexes) :
    flex ≤ sumFlex flexes := by
  induction flexes with
  | nil => cases h
  | cons first rest ih =>
    rw [sumFlex]
    rcases List.mem_cons.1 h with rfl | h
    · omega
    · have := ih h; omega

namespace Node

/-- Some node that is reached cannot be measured and fails with `fault`. -/
def ReachesUnfit (root : Node) (fault : Fault) : Prop :=
  ∃ node, root.Reaches node ∧ node.IsUnfit fault

theorem ReachesUnfit.of_visited {node child : Node} {fault : Fault} (hc : child ∈ node.visited)
    (h : child.ReachesUnfit fault) : node.ReachesUnfit fault := by
  obtain ⟨below, hr, hw⟩ := h
  exact ⟨below, .step hc hr, hw⟩

/-- Under normalized constraints the node answers a proper size, or fails by `cause`. -/
def Answers (cause : Fault → Prop) (node : Node) : Prop :=
  ∀ given : Constraints, given.isNormalized = true →
    Outcome cause (fun m => m.size.IsProper) (node.measure given)

variable {cause : Fault → Prop} {frame : Frame}

theorem Outcome.measured {name : String} {given : Constraints} {result : Except Fault Finding}
    (h : Outcome cause (fun finding => finding.answer.IsProper) result) :
    Outcome cause (fun m => m.size.IsProper) ((·.measured name given) <$> result) :=
  h.map fun _ hf => hf

theorem Answers.leaf {content : Leaf} (h : content.IsSafe) :
    Answers cause (leaf frame content) := by
  intro given hn
  obtain ⟨size, hs⟩ := h.measure given
  obtain ⟨answer, ha, hp⟩ := Constraints.constrain_isProper hn size
  rw [measure, if_neg (by simp [hn]), hs, ha]
  exact .ok hp

theorem Answers.padding {insets : Insets} {child : Node} (hi : insets.IsProper)
    (h : Answers cause child) : Answers cause (padding frame insets child) := by
  intro given hn
  have hw := hi.isLength_amount .horizontal
  have hh := hi.isLength_amount .vertical
  rw [measure, if_neg (by simp [hn])]
  refine Outcome.measured ?_
  refine .bind_ok (hi.total_eq _) (.bind_ok (hi.total_eq _) ?_)
  refine .bind_ok (Constraints.inset_eq hn hw hh) ?_
  refine (h _ (Constraints.isNormalized_less hn hw hh)).bind fun found hf => ?_
  rw [Insets.around, hi.total_eq, hi.total_eq]
  refine .ok fun axis => ?_
  cases axis with
  | horizontal => exact Extent.isLength_saturatingAdd (hf .horizontal).1 hw.1
  | vertical => exact Extent.isLength_saturatingAdd (hf .vertical).1 hh.1

theorem Answers.align {alignment : Alignment} {measured : Size} {child : Node}
    (h : Answers cause child) : Answers cause (align frame alignment measured child) := by
  intro given hn
  rw [measure, if_neg (by simp [hn])]
  refine Outcome.measured ?_
  refine (h _ (Constraints.isNormalized_loosen hn)).bind fun found _ => ?_
  obtain ⟨answer, ha, hp⟩ := Constraints.constrain_isProper hn (alignment.scaled found.size)
  rw [ha]
  exact .ok hp

theorem totalFlex_outcome (style : StackStyle) (weights : List Nat)
    (hc : style.isHomogeneous = false → maxFlex < sumFlex weights → cause .overflow) :
    Outcome cause (fun flex => flex ≠ 0 → flex = sumFlex weights ∧ flex ≤ maxFlex)
      (style.totalFlex weights) := by
  unfold StackStyle.totalFlex
  split
  · exact .ok fun h => absurd rfl h
  · rename_i hs
    split
    · rename_i hle
      exact .ok fun _ => ⟨rfl, hle⟩
    · rename_i hle
      exact .fault (hc (by simpa using hs) (Nat.lt_of_not_le hle))

theorem breadth_isOk {node : Node} (style : StackStyle) (given : Constraints)
    (h : ∃ breadth, node.minExtent style.axis.flip Extent.inf = .ok breadth) :
    ∃ breadth, node.breadth style given = .ok breadth := by
  unfold Node.breadth
  split
  · exact h
  · exact ⟨_, rfl⟩

theorem Answers.stack {style : StackStyle} {totals : StackTotals} {items : List (Item Node)}
    (hb : ∃ breadth, (stack frame style totals items).minExtent style.axis.flip Extent.inf =
      .ok breadth)
    (hc : (stack frame style totals items).IsOverweight → cause .overflow)
    (h : ∀ item ∈ items, item.node.isLive = true → Answers cause item.node) :
    Answers cause (stack frame style totals items) := by
  intro given hn
  have hmain := Constraints.isNormalized_iff.1 hn style.axis
  rw [measure, if_neg (by simp [hn])]
  refine Outcome.measured ?_
  dsimp only
  split
  · obtain ⟨answer, ha, hp⟩ := Constraints.constrain_isProper hn .zero
    rw [ha]
    exact .ok hp
  rename_i hl
  refine (totalFlex_outcome style _ fun hs hw => hc ?_).bind fun flex hflex => ?_
  · simpa [IsOverweight, weights, hs] using hw
  obtain ⟨breadth, hbreadth⟩ := breadth_isOk style given hb
  refine .bind_ok hbreadth ?_
  obtain ⟨offer, hoffer, hon, -⟩ :=
    style.offer_isOk hn (Nat.pos_of_ne_zero hl) breadth
  refine .bind_ok hoffer ?_
  rw [offerAll_eq_pick, measureItems_pick]
  refine (Outcome.pickM fun item hi hli => h item hi hli offer hon).bind ?_
  rintro _ ⟨once, honce, rfl⟩
  have holds : ∀ v ∈ (items.filter (·.node.isLive)).map fun item =>
      (once item).size.along style.axis, Extent.IsLength v :=
    forall_mem_map_filter.2 fun item hi hli => honce item hi hli style.axis
  rw [Measured.sizes_pick]
  have htotal := StackStyle.extentsAlong_pick style.axis (·.node.isLive)
    (fun item => (once item).size) items
  obtain ⟨extra, hextra, hel, hroom⟩ :=
    StackStyle.extra_isOk hn flex (htotal ▸ Extent.isLength_total fun v hv => (holds v hv).1)
  refine .bind_ok hextra ?_
  -- with room to share the total of the children is finite, and no child exceeds it
  have hadd : 0 < extra → ∀ item ∈ items, item.node.isLive = true →
      0 ≤ (once item).size.along style.axis ∧
        (once item).size.along style.axis + extra ≤ Extent.inf ∧ item.flex ≤ flex := by
    intro hpos item hi hli
    obtain ⟨hne, hle⟩ := hroom hpos
    have hmem : item ∈ items.filter (·.node.isLive) := List.mem_filter.2 ⟨hi, hli⟩
    have hv := Extent.le_total holds (List.mem_map_of_mem hmem)
    rw [htotal] at hle
    have hf := le_sumFlex (List.mem_map_of_mem (f := Item.flex) hmem)
    rw [← (hflex hne).1] at hf
    exact ⟨(honce item hi hli style.axis).1, by omega, hf⟩
  refine .bind_ok (StackStyle.secondOffers_eq hon hel (fun hpos => (hflex (hroom hpos).1).2)
    hadd) ?_
  rw [measureItems_pick]
  refine (Outcome.pickM fun item hi hq => h item hi (Bool.and_eq_true_iff.1 hq).1 _
    (StackStyle.isNormalized_enlarged hon _)).bind ?_
  rintro _ ⟨again, hagain, rfl⟩
  rw [Measured.sizes_pick]
  obtain ⟨extent, hextent⟩ := style.extentOf_isOk
    (fun item hq => (Bool.and_eq_true_iff.1 hq).1) honce hagain fun item hi hq => by
      have hpos : 0 < extra :=
        (StackStyle.sharesIn_iff.1 (Bool.and_eq_true_iff.1 hq).2).1
      have := (hroom hpos).2
      omega
  refine .bind_ok hextent ?_
  obtain ⟨answer, ha, hp⟩ := Constraints.constrain_isProper hn _
  exact .bind_ok ha (.ok hp)

theorem Answers.table {grid : Grid} {cells : List (Option Node)}
    (hg : (table frame grid cells).HasTooManyTracks → cause .capacity)
    (h : ∀ child, some child ∈ cells → child.isLive = true → Answers cause child) :
    Answers cause (table frame grid cells) := by
  intro given hn
  have hc : ∀ cell ∈ cells.zipIdx, isLiveCell cell = true → Answers cause (content cell) := by
    intro cell hm hl
    obtain ⟨-, hi, hl⟩ := exists_of_isLiveCell hm hl
    exact h _ (List.mem_of_getElem? hi) hl
  rw [measure, if_neg (by simp [hn])]
  refine Outcome.measured ?_
  dsimp only
  split
  · exact .fault (hg ‹_›)
  rw [measureCells_pick]
  refine (Outcome.pickM fun cell hm hl => hc cell hm hl _ Constraints.isNormalized_free).bind ?_
  rintro _ ⟨once, honce, rfl⟩
  rw [Measured.sizes_pick, measureCells_pick]
  refine (Outcome.pickM fun cell hm hl => hc cell hm hl _
    (Constraints.isNormalized_exactly ?_)).bind fun second _ => ?_
  · refine Grid.isProper_slotSize (fun size hs => ?_) _
    obtain ⟨cell, hm, hl, rfl⟩ := mem_pick.1 hs
    exact honce cell hm hl
  · obtain ⟨answer, ha, hp⟩ := Constraints.constrain_isProper hn _
    exact .bind_ok ha (.ok hp)

/-- A safe tree answers every normalized question, unless it reaches a node that cannot be
measured. -/
theorem answers_of_isSafe {root : Node} (h : root.AllReached IsSafe) :
    Answers root.ReachesUnfit root := by
  induction root using visited_induct with
  | step node ih =>
    obtain ⟨safe, hc⟩ := (allReached_iff _).1 h
    have hchild : ∀ child ∈ node.visited, Answers node.ReachesUnfit child :=
      fun child hm given hn => (ih child hm (hc child hm) given hn).mono
        (fun _ => .of_visited hm) fun _ hp => hp
    cases node with
    | leaf frame content => exact .leaf safe
    | padding frame insets child => exact .padding safe (hchild child (by simp [visited]))
    | align frame alignment measured child => exact .align (hchild child (by simp [visited]))
    | stack frame style totals items =>
      exact .stack (minExtent_isOk h _ _ Extent.isLength_inf)
        (fun hw => ⟨_, .refl _, .inl ⟨rfl, hw⟩⟩)
        fun item hi hl => hchild _ (mem_visited_stack.2 ⟨item, hi, hl, rfl⟩)
    | table frame grid cells =>
      exact .table (fun ht => ⟨_, .refl _, .inr ⟨rfl, ht⟩⟩)
        fun child hm hl => hchild _ (mem_visited_table.2 ⟨hm, hl⟩)

theorem measure_of_isFit {root : Node} (h : root.AllReached IsFit) {given : Constraints}
    (hn : given.isNormalized = true) : ∃ m, root.measure given = .ok m ∧ m.size.IsProper :=
  (answers_of_isSafe (h.mono fun _ fit => fit.1) given hn).eq_ok fun fault ⟨node, hr, hunfit⟩ =>
    (h node hr).2 fault hunfit

end Node

end BoxLayout
