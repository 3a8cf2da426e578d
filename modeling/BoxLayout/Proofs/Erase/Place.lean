import BoxLayout.Proofs.Erase.Measure
import BoxLayout.Proofs.Replace

/-!
# Placing without the collapsed children

A tree and the same tree after `Node.erase` place the nodes that both have alike
(`Node.agree_place_erase`), and so a full layout looks the same from outside
(`Node.erase_is_invisible`).

A stack hands out slots along the list of its children. The two lists are walked together: a
collapsed child is passed over in the first one only (`agree_placeItems_skip`), a live one gets the
same slot in both (`agree_placeItems_put`).
-/

namespace BoxLayout

/-- The second tree is what is left of the first one, and the calls differ in indices only. -/
structure Placed.IsErased (a b : Placed) : Prop where
  node : b.node = a.node.erase
  visit : b.visit.bare = a.visit.bare

theorem Placed.bareAll_calls (placed : List (Option Placed)) :
    Visit.bareAll (Placed.calls placed) = (placed.filterMap id).map fun p => (0, p.visit.bare) := by
  rw [Placed.calls, Visit.bareAll_ofChildren, List.filterMap_map]
  induction placed with
  | nil => rfl
  | cons p rest ih =>
    cases p with
    | none => exact ih
    | some p => exact congrArg ((0, p.visit.bare) :: ·) ih

namespace Node

variable {frame : Frame}

/-- Placing does the same to what is left of the node. -/
def PlacesErased (node : Node) : Prop := ∀ bounds : Rect,
  Agree Placed.IsErased (node.place bounds) (node.erase.place bounds)

theorem agree_placed_erased {name name' : String} {bounds : Rect}
    {observer observer' : Option String}
    {first second : Except Fault (Node × List (Nat × Visit Placing))} (hname : name' = name)
    (hobserver : observer' = observer)
    (h : Agree (fun a b => b.1 = a.1.erase ∧ Visit.bareAll b.2 = Visit.bareAll a.2) first second) :
    Agree Placed.IsErased
      ((fun (placed, calls) => ⟨placed, .mk name ⟨bounds, observer⟩ calls⟩) <$> first)
      ((fun (placed, calls) => ⟨placed, .mk name' ⟨bounds, observer'⟩ calls⟩) <$> second) := by
  subst hname hobserver
  exact h.map fun a b ⟨hnode, hcalls⟩ => ⟨hnode, congrArg (Visit.mk _ _) hcalls⟩

theorem PlacesErased.leaf {content : Leaf} : (leaf frame content).PlacesErased := by
  intro bounds
  rw [erase, place, place]
  refine agree_placed_erased (Leaf.name_shown ..) (Leaf.observer?_shown ..) (.ok ⟨?_, rfl⟩)
  rw [Leaf.place_shown]
  rfl

theorem PlacesErased.padding {insets : Insets} {child : Node} (h : child.PlacesErased) :
    (padding frame insets child).PlacesErased := by
  intro bounds
  rw [erase, place, place]
  refine agree_placed_erased rfl rfl
    (.bind_left fun inner _ => (h inner).bind fun a b hab => .ok ⟨?_, ?_⟩)
  · rw [hab.node]
    rfl
  · simp only [Visit.bareAll, hab.visit]

theorem PlacesErased.align {alignment : Alignment} {measured : Size} {child : Node}
    (h : child.PlacesErased) : (align frame alignment measured child).PlacesErased := by
  intro bounds
  rw [erase, place, place]
  refine agree_placed_erased rfl rfl
    (.bind_left fun slot _ => (h slot).bind fun a b hab => .ok ⟨?_, ?_⟩)
  · rw [hab.node]
    rfl
  · simp only [Visit.bareAll, hab.visit]

/-! ## Stacks -/

/-- The children that are left were placed like all children of the stack. -/
structure SettleErased (items : List (Item Node)) (placed placed' : List (Option Placed)) :
    Prop where
  calls : Visit.bareAll (Placed.calls placed') = Visit.bareAll (Placed.calls placed)
  settle : List.zipWith Placed.settle (eraseItems items) placed' =
    eraseItems (List.zipWith Placed.settle items placed)

theorem agree_placeItems_skip {item : Item Node} {rest : List (Item Node)} {slots slots' : Slots}
    (hl : item.node.isLive ≠ true)
    (h : Agree (SettleErased rest) (placeItems rest slots) (placeItems (eraseItems rest) slots')) :
    Agree (SettleErased (item :: rest)) (placeItems (item :: rest) (.next none slots))
      (placeItems (eraseItems (item :: rest)) slots') := by
  rw [placeItems, eraseItems_cons_of_not_live hl]
  refine h.map_left fun placed placed' h => ⟨?_, ?_⟩
  · rw [h.calls, Placed.bareAll_calls, Placed.bareAll_calls, List.filterMap_cons]
    rfl
  · rw [eraseItems_cons_of_not_live hl, h.settle, List.zipWith_cons_cons,
      @eraseItems_cons_of_not_live (Placed.settle item none) hl]

theorem agree_placeItems_put {item : Item Node} {rest : List (Item Node)} {slot : Rect}
    {slots slots' : Slots} (hl : item.node.isLive = true) (hitem : item.node.PlacesErased)
    (h : Agree (SettleErased rest) (placeItems rest slots) (placeItems (eraseItems rest) slots')) :
    Agree (SettleErased (item :: rest)) (placeItems (item :: rest) (.next (some slot) slots))
      (placeItems (eraseItems (item :: rest)) (.next (some slot) slots')) := by
  rw [placeItems, eraseItems_cons_of_live hl, eraseItem, placeItems]
  refine ((hitem slot).and_of_ok fun a ha => (isLive_of_place ha).trans hl).bind
    fun a b hab => h.bind fun placed placed' h => .ok ⟨?_, ?_⟩
  · have hcalls := h.calls
    rw [Placed.bareAll_calls, Placed.bareAll_calls] at hcalls ⊢
    exact congrArg₂ (fun visit calls => (0, visit) :: calls) hab.2.visit hcalls
  · rw [eraseItems_cons_of_live hl, List.zipWith_cons_cons, List.zipWith_cons_cons, h.settle,
      @eraseItems_cons_of_live (Placed.settle item (some a)) hab.1]
    simp only [Placed.settle, eraseItem, hab.2.node]

theorem placeItems_fault (items : List (Item Node)) (fault : Fault) :
    placeItems items (.fault fault) = .error fault := by
  cases items <;> rfl

/-- Both stacks stop if a slot cannot be computed. -/
theorem agree_placeItems_after {α : Type} {items : List (Item Node)} {result : Except Fault α}
    {next next' : α → Slots}
    (h : ∀ a, Agree (SettleErased items) (placeItems items (next a))
      (placeItems (eraseItems items) (next' a))) :
    Agree (SettleErased items) (placeItems items (.after result next))
      (placeItems (eraseItems items) (.after result next')) := by
  cases result with
  | ok a => exact h a
  | error fault =>
    rw [Slots.after_error, Slots.after_error, placeItems_fault, placeItems_fault]
    exact .error fault

theorem measuredSizes_erase_of_live {item : Item Node} (hl : item.node.isLive = true)
    (rest : List (Item Node)) : measuredSizes (eraseItems (item :: rest)) =
      some item.measured :: measuredSizes (eraseItems rest) := by
  rw [eraseItems_cons_of_live hl, measuredSizes_cons, eraseItem, isLive_erase, if_pos hl]

section Slots

variable {style : StackStyle} {bounds : Rect} {items : List (Item Node)}

theorem agree_pack (gap pos : Int) (h : ∀ item ∈ items, item.node.PlacesErased) :
    Agree (SettleErased items) (placeItems items (style.pack bounds gap pos (measuredSizes items)))
      (placeItems (eraseItems items)
        (style.pack bounds gap pos (measuredSizes (eraseItems items)))) := by
  induction items generalizing pos with
  | nil => exact .ok ⟨rfl, rfl⟩
  | cons item rest ih =>
    obtain ⟨hitem, hrest⟩ := List.forall_mem_cons.1 h
    rw [measuredSizes_cons]
    by_cases hl : item.node.isLive = true
    · rw [if_pos hl, measuredSizes_erase_of_live hl]
      exact agree_placeItems_after fun slot => agree_placeItems_put hl hitem
        (agree_placeItems_after fun pos => ih pos hrest)
    · rw [if_neg hl, eraseItems_cons_of_not_live hl]
      have hskip := agree_placeItems_skip hl (ih pos hrest)
      rwa [eraseItems_cons_of_not_live hl] at hskip

theorem agree_cut (count index : Nat) (h : ∀ item ∈ items, item.node.PlacesErased) :
    Agree (SettleErased items)
      (placeItems items (style.cut bounds count index (measuredSizes items)))
      (placeItems (eraseItems items)
        (style.cut bounds count index (measuredSizes (eraseItems items)))) := by
  induction items generalizing index with
  | nil => exact .ok ⟨rfl, rfl⟩
  | cons item rest ih =>
    obtain ⟨hitem, hrest⟩ := List.forall_mem_cons.1 h
    rw [measuredSizes_cons]
    by_cases hl : item.node.isLive = true
    · rw [if_pos hl, measuredSizes_erase_of_live hl]
      exact agree_placeItems_after fun slot => agree_placeItems_put hl hitem (ih _ hrest)
    · rw [if_neg hl, eraseItems_cons_of_not_live hl]
      have hskip := agree_placeItems_skip hl (ih index hrest)
      rwa [eraseItems_cons_of_not_live hl] at hskip

theorem agree_slots (totals : StackTotals) (h : ∀ item ∈ items, item.node.PlacesErased) :
    Agree (SettleErased items)
      (placeItems items (style.slots bounds totals (measuredSizes items)))
      (placeItems (eraseItems items)
        (style.slots bounds totals (measuredSizes (eraseItems items)))) := by
  unfold StackStyle.slots
  dsimp only
  -- slices and spacing depend on the number of live children, which is the same
  rw [countP_measuredSizes, countP_measuredSizes, liveCount_eraseItems]
  split
  · rename_i hnone
    have hleft : eraseItems items = [] := by
      rw [eraseItems_eq, List.map_eq_nil_iff, ← List.length_eq_zero_iff,
        ← List.countP_eq_length_filter]
      exact hnone
    rw [hleft, placeItems_done, placeItems_done]
    refine .ok ⟨?_, ?_⟩
    · simp [Placed.bareAll_calls]
    · rw [zipWith_settle_none, hleft]
      rfl
  · split
    · exact agree_cut _ _ h
    · exact agree_placeItems_after fun spacing => agree_placeItems_after fun pos =>
        agree_pack _ _ h

end Slots

theorem PlacesErased.stack {style : StackStyle} {totals : StackTotals} {items : List (Item Node)}
    (h : ∀ item ∈ items, item.node.PlacesErased) :
    (stack frame style totals items).PlacesErased := by
  intro bounds
  rw [erase, place, place]
  refine agree_placed_erased rfl rfl ?_
  refine (agree_slots totals h).bind fun placed placed' hab => .ok ⟨?_, hab.calls⟩
  rw [hab.settle]
  rfl

/-! ## Tables -/

theorem placeCells_eraseCells (slot : Nat → Except Fault Rect) (cells : List (Option Node)) :
    placeCells slot 0 [] (eraseCells cells) =
      pickM isLiveCell (fun cell => slot cell.2 >>= (content cell).erase.place) cells.zipIdx := by
  rw [placeCells_eq, eraseCells_eq, List.zipIdx_map, List.mapM_map, pickM]
  refine congrArg (List.mapM · cells.zipIdx) (funext fun cell => ?_)
  obtain ⟨found, i⟩ := cell
  cases found with
  | none => rfl
  | some child =>
    simp only [Function.comp, Prod.map, id]
    by_cases hl : isLiveCell (some child, i) = true
    · have hlive := (isLive_erase child).trans hl
      rw [if_pos hl, eraseCell_of_live hl, placeCell, if_pos hlive]
      cases slot i <;> rfl
    · rw [if_neg hl, eraseCell_of_not_live hl, placeCell]

theorem PlacesErased.table {grid : Grid} {cells : List (Option Node)}
    (h : ∀ child, some child ∈ cells → child.PlacesErased) :
    (table frame grid cells).PlacesErased := by
  intro bounds
  rw [erase, place, place]
  refine agree_placed_erased rfl rfl ?_
  dsimp only
  split
  · refine .bind_left fun right _ => ?_
    rw [placeCells_pick, placeCells_eraseCells]
    refine (Agree.pickM (R := fun _ => Placed.IsErased) fun cell hm hl => ?_).bind ?_
    · have hi := (exists_of_isLiveCell hm hl).2.1
      exact .bind_left fun slot _ => h _ (List.mem_of_getElem? hi) slot
    · rintro _ _ ⟨a, b, rfl, rfl, hab⟩
      refine .bind_left fun bottom _ => .ok ⟨?_, ?_⟩
      · rw [erase]
        refine congrArg _ (eraseCells_settle (fun _ => rfl) (fun _ _ => rfl) fun cell hm hl => ?_)
        obtain ⟨hfound, herased⟩ := hab cell hm hl
        obtain ⟨slot, -, hfound⟩ := bind_eq_ok_iff.1 hfound
        exact ⟨(isLive_of_place hfound).trans (exists_of_isLiveCell hm hl).2.2, herased.node⟩
      · dsimp only
        rw [Placed.bareAll_calls, Placed.bareAll_calls, filterMap_id_pick, filterMap_id_pick,
          List.map_map, List.map_map]
        refine List.map_congr_left fun cell hc => ?_
        obtain ⟨hm, hl⟩ := List.mem_filter.1 hc
        rw [Function.comp, Function.comp, (hab cell hm hl).2.visit]
  · exact .error _

/-- A tree and what is left of it are placed alike. -/
theorem agree_place_erase (node : Node) : node.PlacesErased := by
  induction node with
  | leaf frame content => exact .leaf
  | padding frame insets child ih => exact .padding ih
  | align frame alignment measured child ih => exact .align ih
  | stack frame style totals items ih => exact .stack ih
  | table frame grid cells ih => exact .table ih

/-- Erasing collapsed children and showing hidden ones cannot be told from outside. Either tree is
measured with the same answer, records and number of calls, or with the same fault, and what is left
of the one is the other; a placing that follows gives the nodes that are left the same places, with
the same records and reports; least extents are the same. -/
theorem erase_is_invisible (root : Node) (given : Constraints) :
    Agree (fun m m' => m'.size = m.size ∧ m'.node = m.node.erase ∧
        (∀ level journal, Journal.followMeasuring level journal m'.visit =
          Journal.followMeasuring level journal m.visit) ∧
        ∀ bounds : Rect, Agree (fun p p' => p'.node = p.node.erase ∧
            p'.node.preorder.map (·.2.bounds) = p.node.preorder.map (·.2.bounds) ∧
            p'.visit.reports = p.visit.reports ∧
            ∀ level journal, Journal.followPlacing level journal p'.visit =
              Journal.followPlacing level journal p.visit)
          (m.node.place bounds) (m'.node.place bounds))
      (root.measure given) (root.erase.measure given) ∧
    ∀ axis other, root.erase.minExtent axis other = root.minExtent axis other := by
  refine ⟨(agree_measure_erase root given).mono fun m m' hm => ?_, minExtent_erase root⟩
  refine ⟨hm.size, hm.node, fun level journal => ?_, fun bounds => ?_⟩
  · rw [← Journal.followMeasuring_bare, hm.visit, Journal.followMeasuring_bare]
  · rw [hm.node]
    refine (agree_place_erase m.node bounds).mono fun p p' hp => ⟨hp.node, ?_, ?_, ?_⟩
    · have hleft := congrArg (List.map Node.bounds) (map_snd_preorder_erase p.node)
      rw [List.map_map, List.map_map, List.map_map] at hleft
      rw [hp.node]
      exact hleft.trans (List.map_congr_left fun call _ => bounds_erase call.2)
    · rw [← Visit.reports_bare, hp.visit, Visit.reports_bare]
    · intro level journal
      rw [← Journal.followPlacing_bare, hp.visit, Journal.followPlacing_bare]

end Node

end BoxLayout
