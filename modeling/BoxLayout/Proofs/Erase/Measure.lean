import BoxLayout.Proofs.Agree
import BoxLayout.Proofs.Erase.Basic
import BoxLayout.Proofs.Runs

/-!
# Measuring without the collapsed children

A tree and the same tree after `Node.erase` answer the same and are asked the same, and what
measuring makes of the second tree is what is left of the first one (`Node.agree_measure_erase`).

The sums and maxima of a stack go over its live children alone, so it makes no difference to them
that the others are not listed (`StackStyle.extra_filter` and the lemmas beside it).
-/

namespace BoxLayout

theorem filterMap_id_pick {α β : Type} (p : α → Bool) (f : α → β) (xs : List α) :
    (pick p f xs).filterMap id = (xs.filter p).map f := by
  have h := filterMap_pick p f id xs
  rwa [Option.map_id] at h

namespace StackStyle

variable {α : Type} {p l : α → Bool} (hpl : ∀ x, p x = true → l x = true) (f : α → Size)
  (xs : List α)
include hpl

theorem extentsAlong_filter (axis : Axis) :
    extentsAlong axis (pick p f (xs.filter l)) = extentsAlong axis (pick p f xs) := by
  rw [extentsAlong_pick, extentsAlong_pick, filter_filter_of_imp hpl]

theorem extra_filter (style : StackStyle) (given : Constraints) (totalFlex : Nat) :
    style.extra given totalFlex (pick p f (xs.filter l)) =
      style.extra given totalFlex (pick p f xs) := by
  rw [extra, extra, extentsAlong_filter hpl]

theorem extentOf_filter (style : StackStyle) {q : α → Bool}
    (hqp : ∀ x, q x = true → p x = true) (g : α → Size) :
    style.extentOf (pick p f (xs.filter l)) (pick q g (xs.filter l)) =
      style.extentOf (pick p f xs) (pick q g xs) := by
  rw [extentOf_pick style hqp, extentOf_pick style hqp, filter_filter_of_imp hpl,
    filter_filter_of_imp fun x hq => hpl x (hqp x hq)]

theorem breadthOf_filter (style : StackStyle) (offer : Constraints) {q : α → Bool}
    (hqp : ∀ x, q x = true → p x = true) (g : α → Size) :
    style.breadthOf offer (pick p f (xs.filter l)) (pick q g (xs.filter l)) =
      style.breadthOf offer (pick p f xs) (pick q g xs) := by
  rw [breadthOf_pick, breadthOf_pick, filter_filter_of_imp hpl,
    filter_filter_of_imp fun x hq => hpl x (hqp x hq)]

end StackStyle

/-- The second tree is what is left of the first one, and the calls differ in indices only. -/
structure Measured.IsErased (a b : Measured) : Prop where
  node : b.node = a.node.erase
  visit : b.visit.bare = a.visit.bare

namespace Measured

theorem size_eq_of_bare_eq {a b : Measured} (h : a.visit.bare = b.visit.bare) :
    a.size = b.size := by
  have hevent := congrArg Visit.event h
  rw [Visit.event_bare, Visit.event_bare] at hevent
  rw [size, hevent, size]

theorem IsErased.size {a b : Measured} (h : IsErased a b) : b.size = a.size :=
  size_eq_of_bare_eq h.visit

theorem bareAll_calls_pick {α : Type} (p : α → Bool) (f : α → Measured) (xs : List α) :
    Visit.bareAll (calls (pick p f xs)) = (xs.filter p).map fun x => (0, (f x).visit.bare) := by
  rw [calls, map_pick, Visit.bareAll_ofChildren, filterMap_id_pick, List.map_map]
  rfl

section Pick

variable {α : Type} {p l : α → Bool} {a b : α → Measured} {xs : List α}

theorem sizes_pick_erased (h : ∀ x ∈ xs, p x = true → IsErased (a x) (b x)) :
    sizes (pick p b xs) = sizes (pick p a xs) := by
  rw [sizes_pick, sizes_pick]
  exact pick_congr fun x hx hp => (h x hx hp).size

theorem calls_pick_erased (h : ∀ x ∈ xs, p x = true → IsErased (a x) (b x)) :
    Visit.bareAll (calls (pick p b xs)) = Visit.bareAll (calls (pick p a xs)) := by
  rw [bareAll_calls_pick, bareAll_calls_pick]
  refine List.map_congr_left fun x hx => ?_
  obtain ⟨hx, hp⟩ := List.mem_filter.1 hx
  rw [(h x hx hp).visit]

theorem calls_pick_filter (hpl : ∀ x, p x = true → l x = true) :
    Visit.bareAll (calls (pick p a (xs.filter l))) = Visit.bareAll (calls (pick p a xs)) := by
  rw [bareAll_calls_pick, bareAll_calls_pick, filter_filter_of_imp hpl]

end Pick

end Measured

namespace Node

/-- The same about what measuring one node found out. -/
structure Finding.IsErased (a b : Finding) : Prop where
  node : b.node = a.node.erase
  answer : b.answer = a.answer
  calls : Visit.bareAll b.calls = Visit.bareAll a.calls

variable {frame : Frame} {given : Constraints}

theorem agree_measured_erased {name name' : String} {first second : Except Fault Finding}
    (hname : name' = name) (h : Agree Finding.IsErased first second) :
    Agree Measured.IsErased ((·.measured name given) <$> first)
      ((·.measured name' given) <$> second) :=
  h.map fun a b hab => ⟨hab.node, by
    rw [Finding.measured, Finding.measured, Visit.bare, Visit.bare, hname, hab.answer, hab.calls]⟩

/-- Measuring does the same to what is left of the node. -/
def MeasuresErased (node : Node) : Prop := ∀ given : Constraints,
  Agree Measured.IsErased (node.measure given) (node.erase.measure given)

theorem MeasuresErased.leaf {content : Leaf} : (leaf frame content).MeasuresErased := by
  intro given
  rw [erase, measure, measure]
  split
  · exact .error _
  · refine agree_measured_erased (Leaf.name_shown ..) ?_
    rw [Leaf.measure_shown]
    exact .bind_left fun answer _ => .ok ⟨rfl, rfl, rfl⟩

theorem MeasuresErased.padding {insets : Insets} {child : Node} (h : child.MeasuresErased) :
    (padding frame insets child).MeasuresErased := by
  intro given
  rw [erase, measure, measure]
  split
  · exact .error _
  · refine agree_measured_erased rfl ?_
    refine .bind_left fun width _ => .bind_left fun height _ => .bind_left fun inner _ => ?_
    refine (h inner).bind fun a b hab => ?_
    rw [hab.size]
    refine .bind_left fun answer _ => .ok ⟨?_, rfl, ?_⟩
    · rw [hab.node, erase]
    · simp only [Visit.bareAll, hab.visit]

theorem MeasuresErased.align {alignment : Alignment} {measured : Size} {child : Node}
    (h : child.MeasuresErased) : (align frame alignment measured child).MeasuresErased := by
  intro given
  rw [erase, measure, measure]
  split
  · exact .error _
  · refine agree_measured_erased rfl ?_
    refine (h given.loosen).bind fun a b hab => ?_
    rw [hab.size]
    refine .bind_left fun answer _ => .ok ⟨?_, rfl, ?_⟩
    · rw [hab.node, erase]
    · simp only [Visit.bareAll, hab.visit]

/-! ## Stacks -/

theorem offerAll_map_eraseItem (offer : Constraints) (items : List (Item Node)) :
    offerAll offer (items.map eraseItem) = pick (·.node.isLive) (fun _ => offer) items := by
  rw [offerAll, List.map_map]
  refine List.map_congr_left fun item _ => ?_
  simp only [Function.comp, eraseItem, isLive_erase]

theorem breadth_erase (style : StackStyle) (totals : StackTotals) (items : List (Item Node)) :
    (stack frame.shown style totals (eraseItems items)).breadth style given =
      (stack frame style totals items).breadth style given := by
  have hsame := minExtent_erase (stack frame style totals items) style.axis.flip Extent.inf
  rw [erase] at hsame
  rw [breadth, breadth, hsame]

/-- What is left of a child is measured like the child. -/
theorem eraseItem_settle {item : Item Node} {a b : Measured} (h : Measured.IsErased a b) :
    eraseItem (Measured.settle item (some a)) = Measured.settle (eraseItem item) (some b) := by
  simp only [eraseItem, Measured.settle, h.node, h.size]

theorem eraseItems_settle {items : List (Item Node)} {a b : Item Node → Measured}
    (h : ∀ item ∈ items, item.node.isLive = true →
      (a item).node.isLive = true ∧ Measured.IsErased (a item) (b item)) :
    List.zipWith Measured.settle (eraseItems items)
        (pick (·.node.isLive) b (items.filter (·.node.isLive))) =
      eraseItems (List.zipWith Measured.settle items (pick (·.node.isLive) a items)) := by
  induction items with
  | nil => rfl
  | cons item rest ih =>
    obtain ⟨hitem, hrest⟩ := List.forall_mem_cons.1 h
    rw [pick_cons, List.zipWith_cons_cons]
    by_cases hl : item.node.isLive = true
    · obtain ⟨hlive, herased⟩ := hitem hl
      rw [eraseItems_cons_of_live hl, List.filter_cons, if_pos hl, pick_cons, if_pos hl, if_pos hl,
        List.zipWith_cons_cons, ih hrest, ← eraseItem_settle herased,
        @eraseItems_cons_of_live (Measured.settle item (some (a item))) hlive]
    · rw [eraseItems_cons_of_not_live hl, List.filter_cons, if_neg hl, if_neg hl, ih hrest,
        @eraseItems_cons_of_not_live (Measured.settle item none) hl]

theorem MeasuresErased.stack {style : StackStyle} {totals : StackTotals} {items : List (Item Node)}
    (h : ∀ item ∈ items, item.node.MeasuresErased) :
    (stack frame style totals items).MeasuresErased := by
  intro given
  rw [erase, measure, measure]
  split
  · exact .error _
  · refine agree_measured_erased rfl ?_
    dsimp only
    rw [liveCount_eraseItems]
    split
    · exact .bind_left fun answer _ => .ok ⟨rfl, rfl, rfl⟩
    · rw [map_filter_eraseItems, breadth_erase]
      refine .bind_left fun flex _ => .bind_left fun breadth _ => .bind_left fun offer _ => ?_
      rw [eraseItems_eq, offerAll_eq_pick, offerAll_map_eraseItem, measureItems_pick,
        measureItems_map_pick]
      refine (Agree.pickM_filter (fun _ hl => hl) fun item hi hl => h item hi offer).bind ?_
      -- `a` and `b` are what the first measurings of the two lists of children gave
      rintro _ _ ⟨a, b, rfl, rfl, hab⟩
      rw [Measured.sizes_pick_erased (a := a) fun item hi hl =>
          (hab item (List.mem_filter.1 hi).1 hl).2, Measured.sizes_pick, Measured.sizes_pick,
        StackStyle.extra_filter fun _ hl => hl, List.map_map]
      refine .bind_left fun extra _ => ?_
      rw [StackStyle.secondOffers_pick, StackStyle.secondOffers_pick]
      have hsub (item : Item Node) (h : (item.node.isLive && StackStyle.sharesIn extra item.flex) =
          true) : item.node.isLive = true := (Bool.and_eq_true_iff.1 h).1
      refine (Agree.pickM_filter (R := fun _ => Eq) hsub fun item _ _ => .refl _).bind ?_
      rintro _ _ ⟨enlarged, enlarged', rfl, rfl, heq⟩
      rw [measureItems_pick, measureItems_map_pick]
      refine (Agree.pickM_filter (R := fun _ => Measured.IsErased) hsub
        fun item hi hs => ?_).bind ?_
      · rw [← (heq item hi hs).2]
        exact h item hi _
      -- and `c` and `d` the second ones, of the children that share the extra room
      rintro _ _ ⟨c, d, rfl, rfl, hcd⟩
      rw [Measured.sizes_pick_erased (a := c) fun item hi hs =>
          (hcd item (List.mem_filter.1 hi).1 hs).2, Measured.sizes_pick, Measured.sizes_pick,
        StackStyle.extentOf_filter (fun _ hl => hl) _ _ _ hsub,
        StackStyle.breadthOf_filter (fun _ hl => hl) _ _ _ _ hsub, zipWith_orElse_pick hsub,
        zipWith_orElse_pick hsub]
      refine .bind_left fun extent _ => .bind_left fun answer _ => .ok ⟨?_, rfl, ?_⟩
      · rw [erase, ← eraseItems_eq]
        refine congrArg _ (eraseItems_settle fun item hi hl => ?_)
        split
        · rename_i hs
          obtain ⟨hm, herased⟩ := hcd item hi hs
          exact ⟨(isLive_of_measure hm).trans hl, herased⟩
        · obtain ⟨hm, herased⟩ := hab item hi hl
          exact ⟨(isLive_of_measure hm).trans hl, herased⟩
      · rw [Visit.bareAll_append, Visit.bareAll_append,
          Measured.calls_pick_filter fun _ hl => hl, Measured.calls_pick_filter hsub,
          Measured.calls_pick_erased fun item hi hl => (hab item hi hl).2,
          Measured.calls_pick_erased fun item hi hs => (hcd item hi hs).2]

/-! ## Tables -/

theorem measureCells_eraseCells (offer : Nat → Constraints) (cells : List (Option Node)) :
    measureCells offer 0 [] (eraseCells cells) =
      pickM isLiveCell (fun cell => (content cell).erase.measure (offer cell.2)) cells.zipIdx := by
  rw [measureCells_eq, eraseCells_eq, List.zipIdx_map, List.mapM_map, pickM]
  refine congrArg (List.mapM · cells.zipIdx) (funext fun cell => ?_)
  obtain ⟨found, i⟩ := cell
  cases found with
  | none => rfl
  | some child =>
    simp only [Function.comp, Prod.map, id]
    by_cases hl : isLiveCell (some child, i) = true
    · have hlive := (isLive_erase child).trans hl
      rw [if_pos hl, eraseCell_of_live hl, measureCell, if_pos hlive]
      rfl
    · rw [if_neg hl, eraseCell_of_not_live hl, measureCell]

/-- What is left of the cells of a table, where live ones were replaced. -/
theorem eraseCells_settle {β : Type} {settle : Option Node → Option β → Option Node}
    {node : β → Node} (hnone : ∀ cell, settle cell none = cell)
    (hsome : ∀ cell b, settle cell (some b) = some (node b)) {f g : Option Node × Nat → β}
    {cells : List (Option Node)}
    (h : ∀ cell ∈ cells.zipIdx, isLiveCell cell = true →
      (node (f cell)).isLive = true ∧ node (g cell) = (node (f cell)).erase) :
    List.zipWith settle (eraseCells cells) (pick isLiveCell g cells.zipIdx) =
      eraseCells (List.zipWith settle cells (pick isLiveCell f cells.zipIdx)) := by
  rw [eraseCells_eq, eraseCells_eq, List.zipWith_map_left, zipWith_pick_zipIdx,
    zipWith_pick_zipIdx, List.map_map]
  refine List.map_congr_left fun cell hc => ?_
  by_cases hl : isLiveCell cell = true
  · obtain ⟨hlive, herased⟩ := h cell hc hl
    simp only [Function.comp, if_pos hl, hsome]
    rw [eraseCell_of_live hlive, herased]
  · simp only [Function.comp, if_neg hl, hnone]

theorem MeasuresErased.table {grid : Grid} {cells : List (Option Node)}
    (h : ∀ child, some child ∈ cells → child.MeasuresErased) :
    (table frame grid cells).MeasuresErased := by
  intro given
  have hcell {cell : Option Node × Nat} (hm : cell ∈ cells.zipIdx) (hl : isLiveCell cell = true)
      (given : Constraints) :
      Agree Measured.IsErased ((content cell).measure given) ((content cell).erase.measure given) :=
    h _ (List.mem_of_getElem? (exists_of_isLiveCell hm hl).2.1) given
  rw [erase, measure, measure]
  split
  · exact .error _
  · refine agree_measured_erased rfl ?_
    dsimp only
    split
    · exact .error _
    · rw [measureCells_pick, measureCells_eraseCells]
      refine (Agree.pickM fun cell hm hl => hcell hm hl _).bind ?_
      rintro _ _ ⟨a, b, rfl, rfl, hab⟩
      rw [Measured.sizes_pick_erased fun cell hm hl => (hab cell hm hl).2, measureCells_pick,
        measureCells_eraseCells]
      refine (Agree.pickM fun cell hm hl => hcell hm hl _).bind ?_
      rintro _ _ ⟨c, d, rfl, rfl, hcd⟩
      refine .bind_left fun answer _ => .ok ⟨?_, rfl, ?_⟩
      · rw [erase]
        refine congrArg _ (eraseCells_settle (fun _ => rfl) (fun _ _ => rfl) fun cell hm hl => ?_)
        obtain ⟨hfound, herased⟩ := hcd cell hm hl
        exact ⟨(isLive_of_measure hfound).trans (exists_of_isLiveCell hm hl).2.2, herased.node⟩
      · rw [Visit.bareAll_append, Visit.bareAll_append,
          Measured.calls_pick_erased fun cell hm hl => (hab cell hm hl).2,
          Measured.calls_pick_erased fun cell hm hl => (hcd cell hm hl).2]

/-- A tree and what is left of it are measured alike. -/
theorem agree_measure_erase (node : Node) : node.MeasuresErased := by
  induction node with
  | leaf frame content => exact .leaf
  | padding frame insets child ih => exact .padding ih
  | align frame alignment measured child ih => exact .align ih
  | stack frame style totals items ih => exact .stack ih
  | table frame grid cells ih => exact .table ih

end Node

end BoxLayout
