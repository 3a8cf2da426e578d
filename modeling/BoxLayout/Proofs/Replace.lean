import BoxLayout.Proofs.Agree
import BoxLayout.Proofs.Caches
import BoxLayout.Proofs.Cells
import BoxLayout.Proofs.Packing

/-!
# Placing reads what measuring found out and nothing else

Placed with the places of an earlier placing and without them, a tree makes the same calls and has
the same caches afterwards wherever the calls came to (`Node.agree_place`). Placing changes nothing
but places (`Node.retain_of_place`).

One lemma for each kind of node says what a placing that gave a result must have done, with its
calls (`put_padding` and the others) and without them (`place_padding` and the others). Both results
rest on a stack handing out slots to exactly those children that take part (`Slots.Suits`).
-/

namespace BoxLayout

/-- The same calls, and the same caches where the calls came to. -/
structure Placed.IsLike (unreached : Keep) (a b : Placed) : Prop where
  retain : a.node.retain .everything unreached = b.node.retain .everything unreached
  visit : a.visit = b.visit

theorem Placed.IsLike.isLive {unreached : Keep} {a b : Placed} (h : IsLike unreached a b) :
    a.node.isLive = b.node.isLive := Node.isLive_eq_of_retain_eq h.retain

/-- Where nothing is left out of the comparison, the results are the same. -/
theorem Placed.IsLike.eq {a b : Placed} (h : IsLike .everything a b) : a = b := by
  have hnode : a.node = b.node := by
    have hall := h.retain
    rwa [Node.retain_everything, Node.retain_everything] at hall
  calc
    a = ⟨a.node, a.visit⟩ := rfl
    _ = ⟨b.node, b.visit⟩ := by rw [hnode, h.visit]

/-- There is a slot for every child that has a size, and for no other one. -/
def Slots.Suits : Slots → List (Option Size) → Prop
  | .fault _, _ | .next _ _, [] => True
  | .done, sizes => ∀ size ∈ sizes, size = none
  | .next slot rest, size :: sizes => (slot = none ↔ size = none) ∧ rest.Suits sizes

theorem Slots.suits_after {α : Type} {result : Except Fault α} {rest : α → Slots}
    {sizes : List (Option Size)} (h : ∀ a, (rest a).Suits sizes) :
    (after result rest).Suits sizes := by
  cases result with
  | ok a => exact h a
  | error fault => exact trivial

/-- The slots have `P`, each with the size of the child that it is for. -/
def Slots.Each (P : Size → Rect → Prop) : Slots → List (Option Size) → Prop
  | .next (some slot) rest, some size :: sizes => P size slot ∧ rest.Each P sizes
  | .next _ rest, _ :: sizes => rest.Each P sizes
  | .fault _, _ | .done, _ | .next _ _, [] => True

theorem Slots.each_after {α : Type} {P : Size → Rect → Prop} {result : Except Fault α}
    {rest : α → Slots} {sizes : List (Option Size)}
    (h : ∀ a, result = .ok a → (rest a).Each P sizes) : (after result rest).Each P sizes := by
  cases result with
  | ok a => exact h a rfl
  | error fault => exact trivial

namespace StackStyle

variable {style : StackStyle} {bounds : Rect}

theorem suits_pack {gap pos : Int} {sizes : List (Option Size)} :
    (style.pack bounds gap pos sizes).Suits sizes := by
  induction sizes generalizing pos with
  | nil => exact nofun
  | cons size sizes ih =>
    cases size with
    | none => exact ⟨by simp, ih⟩
    | some size =>
      exact Slots.suits_after fun slot => ⟨by simp, Slots.suits_after fun pos => ih⟩

theorem suits_cut {count index : Nat} {sizes : List (Option Size)} :
    (style.cut bounds count index sizes).Suits sizes := by
  induction sizes generalizing index with
  | nil => exact nofun
  | cons size sizes ih =>
    cases size with
    | none => exact ⟨by simp, ih⟩
    | some size => exact Slots.suits_after fun slot => ⟨by simp, ih⟩

theorem suits_slots {totals : StackTotals} {sizes : List (Option Size)} :
    (style.slots bounds totals sizes).Suits sizes := by
  unfold slots
  dsimp only
  split
  · rename_i hcount
    intro size hs
    simpa using List.countP_eq_zero.1 hcount size hs
  · split
    · exact suits_cut
    · exact Slots.suits_after fun spacing => Slots.suits_after fun pos => suits_pack

section Each

variable {P : Size → Rect → Prop}

theorem each_pack (h : ∀ pos size slot, Extent.InRange pos →
      style.slot bounds ⟨pos, size.along style.axis⟩ size = .ok slot → P size slot)
    {gap pos : Int} (hpos : Extent.InRange pos) {sizes : List (Option Size)} :
    (style.pack bounds gap pos sizes).Each P sizes := by
  induction sizes generalizing pos with
  | nil => exact trivial
  | cons size sizes ih =>
    cases size with
    | none => exact ih hpos
    | some size =>
      refine Slots.each_after fun slot hs => ⟨h pos size slot hpos hs, Slots.each_after ?_⟩
      intro next hnext
      obtain ⟨step, -, hnext⟩ := bind_eq_ok_iff.1 hnext
      obtain ⟨hrange, rfl⟩ := Extent.add_eq_ok_iff.1 hnext
      exact ih hrange

theorem each_cut {count : Nat} (h : ∀ index span size slot,
      style.sliceSpan bounds count index = .ok span → style.slot bounds span size = .ok slot →
        P size slot)
    {index : Nat} {sizes : List (Option Size)} :
    (style.cut bounds count index sizes).Each P sizes := by
  induction sizes generalizing index with
  | nil => exact trivial
  | cons size sizes ih =>
    cases size with
    | none => exact ih
    | some size =>
      refine Slots.each_after fun slot hs => ⟨?_, ih⟩
      obtain ⟨span, hspan, hs⟩ := bind_eq_ok_iff.1 hs
      exact h index span size slot hspan hs

/-- What holds of every slot that a child can be packed into, and of every slice if the stack is
cut, holds of the slots that a stack hands out. -/
theorem each_slots (hpack : ∀ pos size slot, Extent.InRange pos →
      style.slot bounds ⟨pos, size.along style.axis⟩ size = .ok slot → P size slot)
    (hcut : style.isHomogeneous = true → ∀ count index span size slot,
      style.sliceSpan bounds count index = .ok span → style.slot bounds span size = .ok slot →
        P size slot)
    {totals : StackTotals} {sizes : List (Option Size)} :
    (style.slots bounds totals sizes).Each P sizes := by
  unfold slots
  dsimp only
  split
  · exact trivial
  · split
    · rename_i hh
      exact each_cut (hcut hh _)
    · refine Slots.each_after fun spacing _ => Slots.each_after fun pos hpos => each_pack hpack ?_
      obtain ⟨hrange, rfl⟩ := Extent.add_eq_ok_iff.1 hpos
      exact hrange

end Each

end StackStyle

namespace Node

/-! ## What a successful placing did -/

section Inversion

variable {frame : Frame} {bounds : Rect} {p : Placed}

theorem put_leaf {content : Leaf} (h : (leaf frame content).place bounds = .ok p) :
    p.node = leaf { frame with bounds } (content.place bounds) ∧ p.visit.calls = [] := by
  rw [place] at h
  obtain ⟨found, hf, rfl⟩ := map_eq_ok_iff.1 h
  cases hf
  exact ⟨rfl, rfl⟩

theorem place_leaf {content : Leaf} (h : (leaf frame content).place bounds = .ok p) :
    p.node = leaf { frame with bounds } (content.place bounds) := (put_leaf h).1

theorem put_padding {insets : Insets} {child : Node}
    (h : (padding frame insets child).place bounds = .ok p) :
    ∃ inner placed, bounds.inset insets = .ok inner ∧ child.place inner = .ok placed ∧
      p.node = padding { frame with bounds } insets placed.node ∧
      p.visit.calls = [(0, placed.visit)] := by
  rw [place] at h
  obtain ⟨found, hf, rfl⟩ := map_eq_ok_iff.1 h
  obtain ⟨inner, hi, hf⟩ := bind_eq_ok_iff.1 hf
  obtain ⟨placed, hp, hf⟩ := bind_eq_ok_iff.1 hf
  cases hf
  exact ⟨inner, placed, hi, hp, rfl, rfl⟩

theorem place_padding {insets : Insets} {child : Node}
    (h : (padding frame insets child).place bounds = .ok p) :
    ∃ inner placed, bounds.inset insets = .ok inner ∧ child.place inner = .ok placed ∧
      p.node = padding { frame with bounds } insets placed.node := by
  obtain ⟨inner, placed, hi, hp, hnode, -⟩ := put_padding h
  exact ⟨inner, placed, hi, hp, hnode⟩

theorem put_align {alignment : Alignment} {measured : Size} {child : Node}
    (h : (align frame alignment measured child).place bounds = .ok p) :
    ∃ slot placed, alignment.slot bounds measured = .ok slot ∧ child.place slot = .ok placed ∧
      p.node = align { frame with bounds } alignment measured placed.node ∧
      p.visit.calls = [(0, placed.visit)] := by
  rw [place] at h
  obtain ⟨found, hf, rfl⟩ := map_eq_ok_iff.1 h
  obtain ⟨slot, hs, hf⟩ := bind_eq_ok_iff.1 hf
  obtain ⟨placed, hp, hf⟩ := bind_eq_ok_iff.1 hf
  cases hf
  exact ⟨slot, placed, hs, hp, rfl, rfl⟩

theorem place_align {alignment : Alignment} {measured : Size} {child : Node}
    (h : (align frame alignment measured child).place bounds = .ok p) :
    ∃ slot placed, alignment.slot bounds measured = .ok slot ∧ child.place slot = .ok placed ∧
      p.node = align { frame with bounds } alignment measured placed.node := by
  obtain ⟨slot, placed, hs, hp, hnode, -⟩ := put_align h
  exact ⟨slot, placed, hs, hp, hnode⟩

theorem put_stack {style : StackStyle} {totals : StackTotals} {items : List (Item Node)}
    (h : (stack frame style totals items).place bounds = .ok p) :
    ∃ placed, placeItems items (style.slots bounds totals (measuredSizes items)) = .ok placed ∧
      p.node = stack { frame with bounds } style totals
        (List.zipWith Placed.settle items placed) ∧ p.visit.calls = Placed.calls placed := by
  rw [place] at h
  obtain ⟨found, hf, rfl⟩ := map_eq_ok_iff.1 h
  obtain ⟨placed, hp, hf⟩ := bind_eq_ok_iff.1 hf
  cases hf
  exact ⟨placed, hp, rfl, rfl⟩

theorem place_stack {style : StackStyle} {totals : StackTotals} {items : List (Item Node)}
    (h : (stack frame style totals items).place bounds = .ok p) :
    ∃ placed, placeItems items (style.slots bounds totals (measuredSizes items)) = .ok placed ∧
      p.node = stack { frame with bounds } style totals
        (List.zipWith Placed.settle items placed) := by
  obtain ⟨placed, hp, hnode, -⟩ := put_stack h
  exact ⟨placed, hp, hnode⟩

theorem put_table {grid : Grid} {cells : List (Option Node)}
    (h : (table frame grid cells).place bounds = .ok p) :
    ∃ (right bottom : Int) (placed : Option Node × Nat → Placed), grid.isMeasured = true ∧
      grid.stop .horizontal bounds.origin.x = .ok right ∧
      grid.stop .vertical bounds.origin.y = .ok bottom ∧
      (∀ cell ∈ cells.zipIdx, isLiveCell cell = true →
        ∃ slot, grid.slot (grid.lines .horizontal bounds.origin.x)
            (grid.lines .vertical bounds.origin.y) cell.2 = .ok slot ∧
          (content cell).place slot = .ok (placed cell)) ∧
      p.node = table { frame with bounds } grid (cells.zipIdx.map fun cell =>
        if isLiveCell cell then some (placed cell).node else cell.1) ∧
      p.visit.calls = Placed.calls (pick isLiveCell placed cells.zipIdx) := by
  rw [place] at h
  obtain ⟨found, hf, rfl⟩ := map_eq_ok_iff.1 h
  by_cases hm : grid.isMeasured = true
  · rw [if_pos hm] at hf
    obtain ⟨right, hright, hf⟩ := bind_eq_ok_iff.1 hf
    obtain ⟨placed, hp, hf⟩ := bind_eq_ok_iff.1 hf
    obtain ⟨bottom, hbottom, hf⟩ := bind_eq_ok_iff.1 hf
    rw [placeCells_pick] at hp
    obtain ⟨g, hg, rfl⟩ := pickM_eq_ok_iff.1 hp
    rw [zipWith_settleCell_placed] at hf
    cases hf
    exact ⟨right, bottom, g, hm, hright, hbottom,
      fun cell hc hl => bind_eq_ok_iff.1 (hg cell hc hl), rfl, rfl⟩
  · rw [if_neg hm] at hf
    cases hf

theorem place_table {grid : Grid} {cells : List (Option Node)}
    (h : (table frame grid cells).place bounds = .ok p) :
    ∃ (right bottom : Int) (placed : Option Node × Nat → Placed), grid.isMeasured = true ∧
      grid.stop .horizontal bounds.origin.x = .ok right ∧
      grid.stop .vertical bounds.origin.y = .ok bottom ∧
      (∀ cell ∈ cells.zipIdx, isLiveCell cell = true →
        ∃ slot, grid.slot (grid.lines .horizontal bounds.origin.x)
            (grid.lines .vertical bounds.origin.y) cell.2 = .ok slot ∧
          (content cell).place slot = .ok (placed cell)) ∧
      p.node = table { frame with bounds } grid (cells.zipIdx.map fun cell =>
        if isLiveCell cell then some (placed cell).node else cell.1) := by
  obtain ⟨right, bottom, placed, hm, hright, hbottom, hplaced, hnode, -⟩ := put_table h
  exact ⟨right, bottom, placed, hm, hright, hbottom, hplaced, hnode⟩

/-- Placing changes neither what a node is nor whether it takes part. -/
theorem isLive_of_place {node : Node} (h : node.place bounds = .ok p) :
    p.node.isLive = node.isLive := by
  cases node with
  | leaf frame content =>
    rw [place_leaf h, isLive_leaf, isLive_leaf, Leaf.visibility_place]
  | padding frame insets child =>
    obtain ⟨_, _, -, -, hnode⟩ := place_padding h
    rw [hnode, isLive_padding, isLive_padding]
  | align frame alignment measured child =>
    obtain ⟨_, _, -, -, hnode⟩ := place_align h
    rw [hnode, isLive_align, isLive_align]
  | stack frame style totals items =>
    obtain ⟨_, -, hnode⟩ := place_stack h
    rw [hnode, isLive_stack, isLive_stack]
  | table frame grid cells =>
    obtain ⟨_, _, _, -, -, -, -, hnode⟩ := place_table h
    rw [hnode, isLive_table, isLive_table]

end Inversion

/-! ## The children of a stack -/

variable {unreached : Keep}

theorem slot_eq_none_iff {item : Item Node} {rest : List (Item Node)} {slot : Option Rect}
    {slots : Slots} (h : (Slots.next slot slots).Suits (measuredSizes (item :: rest))) :
    (slot = none ↔ item.node.isLive ≠ true) ∧ slots.Suits (measuredSizes rest) := by
  rw [measuredSizes_cons] at h
  refine ⟨h.1.trans ?_, h.2⟩
  by_cases hl : item.node.isLive = true
  · rw [if_pos hl]
    exact ⟨nofun, fun hn => absurd hl hn⟩
  · rw [if_neg hl]
    exact ⟨fun _ => hl, fun _ => rfl⟩

theorem retainItems_of_placeItems {keep : Keep} {items : List (Item Node)} {slots : Slots}
    {placed : List (Option Placed)} (hs : slots.Suits (measuredSizes items))
    (hp : placeItems items slots = .ok placed)
    (h : ∀ item ∈ items, ∀ rect p, item.node.place rect = .ok p →
      p.node.retain keep unreached = item.node.retain keep unreached) :
    (List.zipWith Placed.settle items placed).map (retainItem keep unreached) =
      items.map (retainItem keep unreached) := by
  induction items generalizing slots placed with
  | nil => rfl
  | cons item rest ih =>
    obtain ⟨hitem, hrest⟩ := List.forall_mem_cons.1 h
    cases slots with
    | fault fault => cases hp
    | done =>
      rw [placeItems_done] at hp
      rw [← Except.ok.inj hp, zipWith_settle_none]
    | next slot slots =>
      obtain ⟨hslot, hsuits⟩ := slot_eq_none_iff hs
      cases slot with
      | none =>
        obtain ⟨others, ho, rfl⟩ := placeItems_none_eq_ok_iff.1 hp
        rw [List.zipWith_cons_cons, List.map_cons, List.map_cons, ih hsuits ho hrest]
        rfl
      | some slot =>
        have hl : item.node.isLive = true :=
          Decidable.of_not_not (mt hslot.2 (Option.some_ne_none slot))
        obtain ⟨found, others, hf, ho, rfl⟩ := placeItems_some_eq_ok_iff.1 hp
        rw [List.zipWith_cons_cons, List.map_cons, List.map_cons, ih hsuits ho hrest,
          @retainItem_of_live _ _ (Placed.settle item (some found)) ((isLive_of_place hf).trans hl),
          retainItem_of_live hl]
        simp only [Placed.settle, hitem slot found hf]

/-- Placing changes nothing but places. -/
theorem retain_of_place {sizes : Bool} {node : Node} {bounds : Rect} {p : Placed}
    (hp : node.place bounds = .ok p) :
    p.node.retain ⟨false, sizes⟩ unreached = node.retain ⟨false, sizes⟩ unreached := by
  induction node generalizing bounds p with
  | leaf frame content =>
    rw [place_leaf hp, retain, retain]
    exact congrArg _ (Leaf.place_place ..)
  | padding frame insets child ih =>
    obtain ⟨_, _, -, hc, hnode⟩ := place_padding hp
    rw [hnode, retain, retain, ih hc]
    rfl
  | align frame alignment measured child ih =>
    obtain ⟨_, _, -, hc, hnode⟩ := place_align hp
    rw [hnode, retain, retain, ih hc]
    rfl
  | stack frame style totals items ih =>
    obtain ⟨placed, hc, hnode⟩ := place_stack hp
    rw [hnode, retain, retain, retainItems_eq, retainItems_eq,
      retainItems_of_placeItems StackStyle.suits_slots hc fun item hi rect p h => ih item hi h]
    rfl
  | table frame grid cells ih =>
    obtain ⟨_, _, placed, -, -, -, hplaced, hnode⟩ := place_table hp
    rw [hnode, retain, retain, retainCells_eq, retainCells_eq]
    refine congrArg _ (map_retainChild_settled fun cell hc hl => ?_)
    obtain ⟨-, hi, hlive⟩ := exists_of_isLiveCell hc hl
    obtain ⟨slot, -, hfound⟩ := hplaced cell hc hl
    exact ⟨(isLive_of_place hfound).trans hlive, ih _ (List.mem_of_getElem? hi) hfound⟩

/-! ## Two placings -/

/-- The node is placed the same without its places. -/
def Replaces (unreached : Keep) (node : Node) : Prop := ∀ bounds : Rect,
  Agree (Placed.IsLike unreached) (node.place bounds)
    ((node.retain .onlySizes unreached).place bounds)

theorem agree_placed {name name' : String} {bounds : Rect} {observer observer' : Option String}
    {first second : Except Fault (Node × List (Nat × Visit Placing))} (hname : name = name')
    (hobserver : observer = observer')
    (h : Agree (fun a b => a.1.retain .everything unreached = b.1.retain .everything unreached ∧
      a.2 = b.2) first second) :
    Agree (Placed.IsLike unreached)
      ((fun (placed, calls) => ⟨placed, .mk name ⟨bounds, observer⟩ calls⟩) <$> first)
      ((fun (placed, calls) => ⟨placed, .mk name' ⟨bounds, observer'⟩ calls⟩) <$> second) := by
  subst hname hobserver
  exact h.map fun _ _ ⟨hretain, hcalls⟩ => ⟨hretain, congrArg (Visit.mk _ _) hcalls⟩

variable {frame : Frame}

theorem Replaces.leaf {content : Leaf} : (leaf frame content).Replaces unreached := by
  intro bounds
  rw [retain, place, place]
  refine agree_placed (Keep.apply_leaf Leaf.name Leaf.name_place ..).symm
    (Keep.apply_leaf Leaf.observer? (fun content _ => by cases content <;> rfl) ..).symm
    (.ok ⟨?_, rfl⟩)
  rw [Keep.apply_leaf (·.place bounds) fun _ _ => Leaf.place_place ..]
  rfl

theorem Replaces.padding {insets : Insets} {child : Node} (h : child.Replaces unreached) :
    (padding frame insets child).Replaces unreached := by
  intro bounds
  rw [retain, place, place]
  refine agree_placed rfl rfl (.bind_left fun inner _ => (h inner).bind fun a b hab => .ok ⟨?_, ?_⟩)
  · rw [retain, retain, hab.retain]
    rfl
  · rw [hab.visit]

theorem Replaces.align {alignment : Alignment} {measured : Size} {child : Node}
    (h : child.Replaces unreached) : (align frame alignment measured child).Replaces unreached := by
  intro bounds
  rw [retain, place, place]
  refine agree_placed rfl rfl (.bind_left fun slot _ => (h slot).bind fun a b hab => .ok ⟨?_, ?_⟩)
  · rw [retain, retain, hab.retain]
    rfl
  · rw [hab.visit]

theorem measuredSizes_map_retainItem (items : List (Item Node)) :
    measuredSizes (items.map (retainItem .onlySizes unreached)) = measuredSizes items := by
  rw [measuredSizes, List.map_map]
  refine List.map_congr_left fun item _ => ?_
  simp only [Function.comp, isLive_retainItem]
  split
  · rename_i hl
    rw [retainItem_of_live hl]
    rfl
  · rfl

/-- Two lists of placed children make the same calls and leave the same caches. -/
structure SettleAlike (unreached : Keep) (items items' : List (Item Node))
    (placed placed' : List (Option Placed)) : Prop where
  visits : placed.map (Option.map Placed.visit) = placed'.map (Option.map Placed.visit)
  retain : (List.zipWith Placed.settle items placed).map (retainItem .everything unreached) =
    (List.zipWith Placed.settle items' placed').map (retainItem .everything unreached)

theorem SettleAlike.cons {items items' : List (Item Node)} {placed placed' : List (Option Placed)}
    (h : SettleAlike unreached items items' placed placed') {item item' : Item Node}
    {found found' : Option Placed} (hv : found.map Placed.visit = found'.map Placed.visit)
    (hr : retainItem .everything unreached (Placed.settle item found) =
      retainItem .everything unreached (Placed.settle item' found')) :
    SettleAlike unreached (item :: items) (item' :: items') (found :: placed) (found' :: placed') :=
  ⟨by rw [List.map_cons, List.map_cons, hv, h.visits], by
    rw [List.zipWith_cons_cons, List.zipWith_cons_cons, List.map_cons, List.map_cons, hr, h.retain]⟩

theorem agree_placeItems {items : List (Item Node)} {slots : Slots}
    (hs : slots.Suits (measuredSizes items)) (h : ∀ item ∈ items, item.node.Replaces unreached) :
    Agree (SettleAlike unreached items (items.map (retainItem .onlySizes unreached)))
      (placeItems items slots)
      (placeItems (items.map (retainItem .onlySizes unreached)) slots) := by
  induction items generalizing slots with
  | nil =>
    cases slots with
    | fault fault => exact .error fault
    | done => exact .ok (a := []) (b := []) ⟨rfl, rfl⟩
    | next slot slots => cases slot <;> exact .ok (a := []) (b := []) ⟨rfl, rfl⟩
  | cons item rest ih =>
    obtain ⟨hitem, hrest⟩ := List.forall_mem_cons.1 h
    cases slots with
    | fault fault => exact .error fault
    | done =>
      rw [placeItems_done, placeItems_done]
      refine .ok ⟨?_, ?_⟩
      · rw [List.map_map, List.map_map, List.map_map]
        rfl
      · rw [zipWith_settle_none, zipWith_settle_none, List.map_map]
        refine List.map_congr_left fun item hi => (retainItem_twice_of_not_live fun hl => ?_).symm
        have hnone := hs _ (List.mem_map_of_mem hi)
        rw [if_pos hl] at hnone
        cases hnone
    | next slot slots =>
      obtain ⟨hslot, hsuits⟩ := slot_eq_none_iff hs
      have hothers := ih hsuits hrest
      rw [List.map_cons]
      cases slot with
      | none =>
        rw [placeItems, placeItems]
        refine hothers.bind fun a b hab => .ok (hab.cons rfl ?_)
        exact (retainItem_twice_of_not_live (hslot.1 rfl)).symm
      | some slot =>
        have hl : item.node.isLive = true :=
          Decidable.of_not_not (mt hslot.2 (Option.some_ne_none slot))
        rw [retainItem_of_live hl, placeItems, placeItems]
        refine ((hitem slot).and_of_ok fun a ha => (isLive_of_place ha).trans hl).bind
          fun a b hab => hothers.bind fun _ _ hr => .ok (hr.cons ?_ ?_)
        · exact congrArg some hab.2.visit
        · rw [@retainItem_of_live _ _ (Placed.settle item (some a)) hab.1,
            @retainItem_of_live _ _ (Placed.settle _ (some b)) (hab.2.isLive.symm.trans hab.1)]
          simp only [Placed.settle, hab.2.retain]
          rfl

theorem Placed.calls_congr {placed placed' : List (Option Placed)}
    (h : placed.map (Option.map Placed.visit) = placed'.map (Option.map Placed.visit)) :
    Placed.calls placed = Placed.calls placed' := congrArg Visit.ofChildren h

theorem Replaces.stack {style : StackStyle} {totals : StackTotals} {items : List (Item Node)}
    (h : ∀ item ∈ items, item.node.Replaces unreached) :
    (stack frame style totals items).Replaces unreached := by
  intro bounds
  rw [retain, retainItems_eq, place, place]
  refine agree_placed rfl rfl ?_
  dsimp only
  rw [measuredSizes_map_retainItem]
  refine (agree_placeItems StackStyle.suits_slots h).bind fun a b hab => .ok ⟨?_, ?_⟩
  · rw [retain, retain, retainItems_eq, retainItems_eq, hab.retain]
    rfl
  · exact Placed.calls_congr hab.visits

theorem Replaces.table {grid : Grid} {cells : List (Option Node)}
    (h : ∀ child, some child ∈ cells → child.Replaces unreached) :
    (table frame grid cells).Replaces unreached := by
  intro bounds
  have hlive (child : Node) : (retainChild .onlySizes unreached child).isLive = child.isLive :=
    isLive_retain ..
  rw [retain, retainCells_eq, place, place, show Keep.onlySizes.grid grid = grid from rfl]
  refine agree_placed rfl rfl ?_
  dsimp only
  split
  · refine .bind_left fun right _ => ?_
    rw [placeCells_pick, placeCells_map_pick _ hlive]
    refine (Agree.pickM (R := fun _ => Placed.IsLike unreached) fun cell hm hl => ?_).bind ?_
    · obtain ⟨-, hi, hl⟩ := exists_of_isLiveCell hm hl
      rw [retainChild_of_live hl]
      exact .bind_left fun slot _ => h _ (List.mem_of_getElem? hi) slot
    · rintro _ _ ⟨a, b, rfl, rfl, hab⟩
      refine .bind_left fun bottom _ => .ok ⟨?_, ?_⟩
      · rw [retain, retain, retainCells_eq, retainCells_eq]
        refine congrArg _ (map_retainChild_zipWith (fun _ => rfl) (fun _ _ => rfl)
          fun cell hm hl => ?_)
        obtain ⟨hfound, hlike⟩ := hab cell hm hl
        obtain ⟨slot, -, hfound⟩ := bind_eq_ok_iff.1 hfound
        exact ⟨(isLive_of_place hfound).trans (exists_of_isLiveCell hm hl).2.2, hlike.retain⟩
      · refine Placed.calls_congr ?_
        rw [map_pick, map_pick]
        exact pick_congr fun cell hm hl => (hab cell hm hl).2.visit
  · exact .error _

/-- Placed with the places of an earlier placing and without them, a tree makes the same calls and
is left with the same caches where they came to. -/
theorem agree_place (node : Node) : node.Replaces unreached := by
  induction node with
  | leaf frame content => exact .leaf
  | padding frame insets child ih => exact .padding ih
  | align frame alignment measured child ih => exact .align ih
  | stack frame style totals items ih => exact .stack ih
  | table frame grid cells ih => exact .table ih

end Node

end BoxLayout
