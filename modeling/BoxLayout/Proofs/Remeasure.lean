import BoxLayout.Proofs.Agree
import BoxLayout.Proofs.Caches
import BoxLayout.Proofs.Runs

/-!
# Measuring does not read caches

Measured with its caches and without them, a tree makes the same calls and gives the same answers,
and all that measuring finds out is the same afterwards (`Node.agree_measure`). Measuring changes
nothing else (`Node.retain_of_measure`).
-/

namespace BoxLayout

/-- The same calls, and the same findings where the calls came to, and the same places too if
`places`. -/
structure Measured.IsLike (places : Bool) (unreached : Keep) (a b : Measured) : Prop where
  retain : a.node.retain ⟨places, true⟩ unreached = b.node.retain ⟨places, true⟩ unreached
  visit : a.visit = b.visit

namespace Measured.IsLike

variable {places : Bool} {unreached : Keep} {a b : Measured}

theorem size (h : IsLike places unreached a b) : a.size = b.size :=
  congrArg (fun visit => visit.event.answer) h.visit

theorem isLive (h : IsLike places unreached a b) : a.node.isLive = b.node.isLive :=
  Node.isLive_eq_of_retain_eq h.retain

/-- Where nothing is left out of the comparison, the results are the same. -/
theorem eq {a b : Measured} (h : IsLike true .everything a b) : a = b := by
  have hnode : a.node = b.node := by
    have hall : a.node.retain .everything .everything = b.node.retain .everything .everything :=
      h.retain
    rwa [Node.retain_everything, Node.retain_everything] at hall
  calc
    a = ⟨a.node, a.visit⟩ := rfl
    _ = ⟨b.node, b.visit⟩ := by rw [hnode, h.visit]

end Measured.IsLike

section Pick

variable {α : Type} {p : α → Bool} {a b : α → Measured} {xs : List α} {places : Bool}
  {unreached : Keep}

theorem Measured.sizes_pick_congr
    (h : ∀ x ∈ xs, p x = true → Measured.IsLike places unreached (a x) (b x)) :
    Measured.sizes (pick p a xs) = Measured.sizes (pick p b xs) := by
  rw [sizes_pick, sizes_pick]
  exact pick_congr fun x hx hp => (h x hx hp).size

theorem Measured.calls_pick_congr
    (h : ∀ x ∈ xs, p x = true → Measured.IsLike places unreached (a x) (b x)) :
    Measured.calls (pick p a xs) = Measured.calls (pick p b xs) := by
  rw [calls, calls, map_pick, map_pick]
  exact congrArg Visit.ofChildren (pick_congr fun x hx hp => (h x hx hp).visit)

end Pick

namespace Node

/-- The same about what measuring one node found out. -/
structure Finding.IsLike (places : Bool) (unreached : Keep) (a b : Finding) : Prop where
  retain : a.node.retain ⟨places, true⟩ unreached = b.node.retain ⟨places, true⟩ unreached
  answer : a.answer = b.answer
  calls : a.calls = b.calls

variable {places : Bool} {unreached : Keep} {frame : Frame} {given : Constraints}

theorem agree_measured {name name' : String} {first second : Except Fault Finding}
    (hname : name = name') (h : Agree (Finding.IsLike places unreached) first second) :
    Agree (Measured.IsLike places unreached) ((·.measured name given) <$> first)
      ((·.measured name' given) <$> second) :=
  h.map fun a b hab => ⟨hab.retain, by
    rw [Finding.measured, Finding.measured, hname, hab.answer, hab.calls]⟩

/-- The node measures the same without its caches, of which places may be left. -/
def Remeasures (places : Bool) (unreached : Keep) (node : Node) : Prop := ∀ given : Constraints,
  Agree (Measured.IsLike places unreached) (node.measure given)
    ((node.retain ⟨places, false⟩ unreached).measure given)

theorem Remeasures.leaf {content : Leaf} : (leaf frame content).Remeasures places unreached := by
  intro given
  rw [retain, measure, measure]
  split
  · exact .error _
  · refine agree_measured (Keep.apply_leaf Leaf.name Leaf.name_place ..).symm ?_
    rw [Keep.apply_leaf (·.measure given) fun _ _ => Leaf.measure_place ..]
    refine .bind_left fun answer _ => .ok ⟨?_, rfl, rfl⟩
    rw [retain, retain, Keep.frame_twice, Keep.leaf_twice]

theorem Remeasures.padding {insets : Insets} {child : Node}
    (h : child.Remeasures places unreached) :
    (padding frame insets child).Remeasures places unreached := by
  intro given
  rw [retain, measure, measure]
  split
  · exact .error _
  · refine agree_measured rfl ?_
    refine .bind_left fun width _ => .bind_left fun height _ => .bind_left fun inner _ => ?_
    refine (h inner).bind fun a b hab => ?_
    rw [hab.size]
    refine .bind_left fun answer _ => .ok ⟨?_, rfl, ?_⟩
    · rw [retain, retain, hab.retain, Keep.frame_twice]
    · rw [hab.visit]

theorem Remeasures.align {alignment : Alignment} {measured : Size} {child : Node}
    (h : child.Remeasures places unreached) :
    (align frame alignment measured child).Remeasures places unreached := by
  intro given
  rw [retain, measure, measure]
  split
  · exact .error _
  · refine agree_measured rfl ?_
    refine (h given.loosen).bind fun a b hab => ?_
    rw [hab.size]
    refine .bind_left fun answer _ => .ok ⟨?_, rfl, ?_⟩
    · rw [retain, retain, hab.retain, Keep.frame_twice]
    · rw [hab.visit]

/-- A child that was measured without its caches is like one that was measured with them. -/
theorem retainItem_settle {item : Item Node} {found found' : Measured} {given : Constraints}
    (hm : item.node.measure given = .ok found) (hl : item.node.isLive = true)
    (h : Measured.IsLike places unreached found found') :
    retainItem ⟨places, true⟩ unreached (Measured.settle item (some found)) =
      retainItem ⟨places, true⟩ unreached
        (Measured.settle (retainItem ⟨places, false⟩ unreached item) (some found')) := by
  have hlive : found.node.isLive = true := (isLive_of_measure hm).trans hl
  have hlive' : found'.node.isLive = true := h.isLive.symm.trans hlive
  rw [@retainItem_of_live _ _ (Measured.settle item (some found)) hlive,
    @retainItem_of_live _ _ (Measured.settle _ (some found')) hlive']
  simp only [Measured.settle, h.retain, h.size]
  rfl

theorem offerAll_map_retainItem (keep : Keep) (offer : Constraints) (items : List (Item Node)) :
    offerAll offer (items.map (retainItem keep unreached)) =
      pick (·.node.isLive) (fun _ => offer) items := by
  rw [offerAll, List.map_map]
  exact List.map_congr_left fun item _ => by simp only [Function.comp, isLive_retainItem]

/-- How broad a stack stretches its children does not depend on caches. -/
theorem breadth_retain (style : StackStyle) (totals : StackTotals) (items : List (Item Node)) :
    (Node.stack ((Keep.mk places false).frame frame) style ((Keep.mk places false).totals totals)
      (items.map (retainItem ⟨places, false⟩ unreached))).breadth style given =
        (Node.stack frame style totals items).breadth style given := by
  have hsame := @minExtent_retain unreached (Node.stack frame style totals items) ⟨places, false⟩
    style.axis.flip Extent.inf
  rw [retain, retainItems_eq] at hsame
  rw [breadth, breadth, hsame]

/-- Children that were measured once or twice, without their caches and with them. -/
theorem map_retainItem_settle {q : Item Node → Bool} {a b c d : Item Node → Measured}
    {items : List (Item Node)} (hab : ∀ item ∈ items, item.node.isLive = true →
      retainItem ⟨places, true⟩ unreached (Measured.settle item (some (a item))) =
        retainItem ⟨places, true⟩ unreached
          (Measured.settle (retainItem ⟨places, false⟩ unreached item) (some (b item))))
    (hcd : ∀ item ∈ items, q item = true →
      retainItem ⟨places, true⟩ unreached (Measured.settle item (some (c item))) =
        retainItem ⟨places, true⟩ unreached
          (Measured.settle (retainItem ⟨places, false⟩ unreached item) (some (d item)))) :
    (List.zipWith Measured.settle items
        (pick (·.node.isLive) (fun item => if q item then c item else a item) items)).map
          (retainItem ⟨places, true⟩ unreached) =
      (List.zipWith Measured.settle (items.map (retainItem ⟨places, false⟩ unreached))
        (pick (·.node.isLive) (fun item => if q item then d item else b item) items)).map
          (retainItem ⟨places, true⟩ unreached) := by
  rw [pick, pick, List.zipWith_map_right, List.zipWith_self, List.zipWith_map, List.zipWith_self,
    List.map_map, List.map_map]
  refine List.map_congr_left fun item hi => ?_
  by_cases hl : item.node.isLive = true
  · simp only [Function.comp, if_pos hl]
    split
    · rename_i hs
      exact hcd item hi hs
    · exact hab item hi hl
  · simp only [Function.comp, if_neg hl]
    exact (retainItem_twice_of_not_live hl).symm

theorem Remeasures.stack {style : StackStyle} {totals : StackTotals} {items : List (Item Node)}
    (h : ∀ item ∈ items, item.node.Remeasures places unreached) :
    (stack frame style totals items).Remeasures places unreached := by
  intro given
  have hitem {item : Item Node} (hi : item ∈ items) (hl : item.node.isLive = true)
      (given : Constraints) : Agree (Measured.IsLike places unreached) (item.node.measure given)
        ((retainItem ⟨places, false⟩ unreached item).node.measure given) := by
    rw [retainItem, if_pos hl]
    exact h item hi given
  have hframe : (Keep.mk places true).frame ((Keep.mk places false).frame frame) =
      (Keep.mk places true).frame frame := Keep.frame_twice ..
  have hweights :
      ((items.map (retainItem ⟨places, false⟩ unreached)).filter (·.node.isLive)).map (·.flex) =
        (items.filter (·.node.isLive)).map (·.flex) := map_filter_retainItem ..
  rw [retain, retainItems_eq, measure, measure]
  split
  · exact .error _
  · refine agree_measured rfl ?_
    dsimp only
    rw [liveCount_map_retainItem]
    split
    · rename_i hcount
      refine .bind_left fun answer _ => .ok ⟨?_, rfl, rfl⟩
      rw [retain, retain, hframe, retainItems_eq, retainItems_eq, List.map_map]
      refine congrArg _ (List.map_congr_left fun item hi => ?_)
      exact (retainItem_twice_of_not_live (List.countP_eq_zero.1 hcount item hi)).symm
    · rw [hweights, breadth_retain]
      refine .bind_left fun flex _ => .bind_left fun breadth _ => .bind_left fun offer _ => ?_
      rw [offerAll_eq_pick, offerAll_map_retainItem, measureItems_pick, measureItems_map_pick]
      refine (Agree.pickM fun item hi hl => hitem hi hl offer).bind ?_
      rintro _ _ ⟨a, b, rfl, rfl, hab⟩
      rw [Measured.sizes_pick_congr fun item hi hl => (hab item hi hl).2, List.map_map]
      refine .bind_left fun extra _ => .bind_left fun offers hoffers => ?_
      rw [Measured.sizes_pick, StackStyle.secondOffers_pick] at hoffers
      obtain ⟨enlarged, -, rfl⟩ := pickM_eq_ok_iff.1 hoffers
      rw [measureItems_pick, measureItems_map_pick]
      have hsub (item : Item Node) (h : (item.node.isLive && StackStyle.sharesIn extra item.flex) =
          true) : item.node.isLive = true := (Bool.and_eq_true_iff.1 h).1
      refine (Agree.pickM fun item hi hs => hitem hi (hsub item hs) (enlarged item)).bind ?_
      rintro _ _ ⟨c, d, rfl, rfl, hcd⟩
      rw [Measured.sizes_pick_congr fun item hi hs => (hcd item hi hs).2,
        Measured.calls_pick_congr fun item hi hl => (hab item hi hl).2,
        Measured.calls_pick_congr fun item hi hs => (hcd item hi hs).2,
        zipWith_orElse_pick hsub, zipWith_orElse_pick hsub]
      refine .bind_left fun extent _ => .bind_left fun answer _ => .ok ⟨?_, rfl, rfl⟩
      rw [retain, retain, hframe, retainItems_eq, retainItems_eq]
      exact congrArg _ (map_retainItem_settle
        (fun item hi hl => retainItem_settle (hab item hi hl).1 hl (hab item hi hl).2)
        fun item hi hs =>
          retainItem_settle (hcd item hi hs).1 (hsub item hs) (hcd item hi hs).2)

theorem Remeasures.table {grid : Grid} {cells : List (Option Node)}
    (h : ∀ child, some child ∈ cells → child.Remeasures places unreached) :
    (table frame grid cells).Remeasures places unreached := by
  intro given
  have hframe : (Keep.mk places true).frame ((Keep.mk places false).frame frame) =
      (Keep.mk places true).frame frame := Keep.frame_twice ..
  have hcell {cell : Option Node × Nat} (hm : cell ∈ cells.zipIdx) (hl : isLiveCell cell = true)
      (given : Constraints) :
      Agree (Measured.IsLike places unreached) ((content cell).measure given)
        ((retainChild ⟨places, false⟩ unreached (content cell)).measure given) := by
    obtain ⟨-, hi, hlive⟩ := exists_of_isLiveCell hm hl
    rw [retainChild, if_pos hlive]
    exact h _ (List.mem_of_getElem? hi) given
  have hlive (child : Node) : (retainChild ⟨places, false⟩ unreached child).isLive = child.isLive :=
    isLive_retain ..
  rw [retain, retainCells_eq, measure, measure]
  split
  · exact .error _
  · refine agree_measured rfl ?_
    dsimp only
    rw [show ((Keep.mk places false).grid grid).hasTooManyTracks = grid.hasTooManyTracks from rfl]
    split
    · exact .error _
    · rw [measureCells_pick, measureCells_map_pick _ hlive]
      refine (Agree.pickM fun cell hm hl => hcell hm hl _).bind ?_
      rintro _ _ ⟨a, b, rfl, rfl, hab⟩
      rw [Measured.sizes_pick_congr fun cell hm hl => (hab cell hm hl).2,
        Measured.calls_pick_congr fun cell hm hl => (hab cell hm hl).2]
      generalize Measured.sizes (pick isLiveCell b cells.zipIdx) = sizes
      rw [show ((Keep.mk places false).grid grid).measured sizes = grid.measured sizes from rfl,
        measureCells_pick, measureCells_map_pick _ hlive]
      refine (Agree.pickM fun cell hm hl => hcell hm hl _).bind ?_
      rintro _ _ ⟨c, d, rfl, rfl, hcd⟩
      rw [Measured.calls_pick_congr fun cell hm hl => (hcd cell hm hl).2]
      refine .bind_left fun answer _ => .ok ⟨?_, rfl, rfl⟩
      rw [retain, retain, hframe, retainCells_eq, retainCells_eq]
      refine congrArg _ (map_retainChild_zipWith (fun _ => rfl) (fun _ _ => rfl)
        fun cell hm hl => ?_)
      obtain ⟨hfound, hlike⟩ := hcd cell hm hl
      exact ⟨(isLive_of_measure hfound).trans (exists_of_isLiveCell hm hl).2.2, hlike.retain⟩

/-- Measured with its caches and without them a tree makes the same calls and finds out the same. -/
theorem agree_measure (node : Node) : node.Remeasures places unreached := by
  induction node with
  | leaf frame content => exact .leaf
  | padding frame insets child ih => exact .padding ih
  | align frame alignment measured child ih => exact .align ih
  | stack frame style totals items ih => exact .stack ih
  | table frame grid cells ih => exact .table ih

/-- Measuring changes nothing but what it finds out. -/
theorem retain_of_measure {places : Bool} {node : Node} {m : Measured}
    (hm : node.measure given = .ok m) :
    m.node.retain ⟨places, false⟩ unreached = node.retain ⟨places, false⟩ unreached := by
  induction node generalizing given m with
  | leaf frame content => rw [(measure_leaf hm).2]
  | padding frame insets child ih =>
    obtain ⟨_, _, _, found, -, -, -, hf, -, hnode⟩ := measure_padding hm
    rw [hnode, retain, retain, ih hf]
  | align frame alignment measured child ih =>
    obtain ⟨found, hf, -, hnode⟩ := measure_align hm
    rw [hnode, retain, retain, ih hf]
    rfl
  | stack frame style totals items ih =>
    rcases Classical.em (liveCount items = 0) with hl | hl
    · rw [(measure_stack_empty hm hl).2, retain, retain]
      rfl
    · obtain ⟨run, hrun, -, hnode⟩ := measure_stack hm hl
      rw [hnode, retain, retain, retainItems_eq, retainItems_eq, List.map_map]
      refine congrArg _ (List.map_congr_left fun item hi => ?_)
      by_cases hl : item.node.isLive = true
      · have hs := hrun.isLive_settled hi
        rw [Function.comp, retainItem_of_live (hs.trans hl), retainItem_of_live hl,
          run.settled_of_isLive hl]
        obtain ⟨given, hlast⟩ := hrun.exists_measure_last hi hl
        rw [ih item hi hlast]
        rfl
      · rw [Function.comp, Sharing.settled, if_neg hl]
  | table frame grid cells ih =>
    obtain ⟨_, again, sized, rfl, -, hagain, -, hnode⟩ := measure_table hm
    rw [hnode, retain, retain, retainCells_eq, retainCells_eq]
    refine congrArg _ (map_retainChild_settled fun cell hc hl => ?_)
    obtain ⟨-, hi, hlive⟩ := exists_of_isLiveCell hc hl
    have hfound := hagain cell hc hl
    exact ⟨(isLive_of_measure hfound).trans hlive, ih _ (List.mem_of_getElem? hi) hfound⟩

end Node

end BoxLayout
