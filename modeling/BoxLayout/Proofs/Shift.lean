import BoxLayout.Node.Edit
import BoxLayout.Proofs.PlacedOnce

/-!
# Placing a tree somewhere else

Shares, gaps and offsets are rounded when a tree is placed. All of them are parts of extents and
none is a part of a position, so that a tree that is placed further right or further down is placed
with every rounding as before: each node lies by the same distance further (`Node.place_shift`).

Two placings are compared as far as both of them give a result (`WhenBoth`), since one of them may
leave the range of the extents and the other one not. A stack hands out slots until it is at an end
or faults; `Slots.Shifts` is the same comparison for them.
-/

namespace BoxLayout

/-! ## Two operations that give a result -/

/-- If both operations give a result, the results are related. -/
def WhenBoth {α β : Type} (R : α → β → Prop) (first : Except Fault α) (second : Except Fault β) :
    Prop := ∀ a b, first = .ok a → second = .ok b → R a b

namespace WhenBoth

variable {α β γ δ : Type} {R : α → β → Prop} {S : γ → δ → Prop} {first : Except Fault α}
  {second : Except Fault β}

theorem ok {a : α} {b : β} (h : R a b) : WhenBoth R (.ok a) (.ok b) := by
  intro a' b' ha hb
  cases ha
  cases hb
  exact h

theorem bind {next : α → Except Fault γ} {next' : β → Except Fault δ}
    (h : WhenBoth R first second) (hn : ∀ a b, R a b → WhenBoth S (next a) (next' b)) :
    WhenBoth S (first >>= next) (second >>= next') := by
  intro c d hc hd
  obtain ⟨a, ha, hc⟩ := bind_eq_ok_iff.1 hc
  obtain ⟨b, hb, hd⟩ := bind_eq_ok_iff.1 hd
  exact hn a b (h a b ha hb) c d hc hd

/-- Both runs start with the same step. -/
theorem bind_same {result : Except Fault α} {next : α → Except Fault γ}
    {next' : α → Except Fault δ} (hn : ∀ a, WhenBoth S (next a) (next' a)) :
    WhenBoth S (result >>= next) (result >>= next') := by
  intro c d hc hd
  obtain ⟨a, ha, hc⟩ := bind_eq_ok_iff.1 hc
  obtain ⟨b, hb, hd⟩ := bind_eq_ok_iff.1 hd
  cases ha.symm.trans hb
  exact hn a c d hc hd

end WhenBoth

/-! ## Shifted boxes -/

/-- The distance on one axis. -/
def Point.along (d : Point) : Axis → Int
  | .horizontal => d.x
  | .vertical => d.y

/-- The box of the same size that lies by `d` further. -/
def Rect.shift (d : Point) (rect : Rect) : Rect :=
  ⟨⟨rect.origin.x + d.x, rect.origin.y + d.y⟩, rect.size⟩

/-- The stretch of the same length that lies by `d` further. -/
def Span.shift (d : Int) (span : Span) : Span := ⟨span.start + d, span.length⟩

/-- The same call with a place that lies by `d` further. -/
def Placing.shift (d : Point) (placing : Placing) : Placing :=
  ⟨placing.bounds.shift d, placing.observer⟩

variable {d : Point}

namespace Rect

@[simp] theorem size_shift (rect : Rect) : (rect.shift d).size = rect.size := rfl

@[simp] theorem extent_shift (rect : Rect) (axis : Axis) :
    (rect.shift d).extent axis = rect.extent axis := rfl

@[simp] theorem start_shift (rect : Rect) (axis : Axis) :
    (rect.shift d).start axis = rect.start axis + d.along axis := by cases axis <;> rfl

theorem eq_shift {a b : Rect} (hstart : ∀ axis, b.start axis = a.start axis + d.along axis)
    (hsize : b.size = a.size) : b = a.shift d := by
  have hx := hstart .horizontal
  have hy := hstart .vertical
  obtain ⟨⟨x, y⟩, size⟩ := b
  simp only [start, Point.along] at hx hy hsize
  rw [hx, hy, hsize]
  rfl

theorem ofAxis_shift (axis : Axis) (main cross length breadth : Int) :
    ofAxis axis (main + d.along axis) (cross + d.along axis.flip) length breadth =
      (ofAxis axis main cross length breadth).shift d := by cases axis <;> rfl

end Rect

namespace Extent

theorem add_shift (v w d : Int) : WhenBoth (fun a b => b = a + d) (add v w) (add (v + d) w) := by
  intro a b ha hb
  obtain ⟨-, rfl⟩ := add_eq_ok_iff.1 ha
  obtain ⟨-, rfl⟩ := add_eq_ok_iff.1 hb
  exact Int.add_right_comm v d w

theorem sub_shift (v w d : Int) : WhenBoth (fun a b => b = a + d) (sub v w) (sub (v + d) w) := by
  intro a b ha hb
  obtain ⟨-, rfl⟩ := sub_eq_ok_iff.1 ha
  obtain ⟨-, rfl⟩ := sub_eq_ok_iff.1 hb
  omega

end Extent

theorem Rect.inset_shift (rect : Rect) (insets : Insets) :
    WhenBoth (fun a b => b = a.shift d) (rect.inset insets) ((rect.shift d).inset insets) := by
  intro a b ha hb
  have hall (axis : Axis) : b.start axis = a.start axis + d.along axis ∧
      b.extent axis = a.extent axis := by
    obtain ⟨hs, amount, v, ht, hv, he⟩ := Rect.inset_eq_ok_iff.1 ha axis
    obtain ⟨hs', amount', v', ht', hv', he'⟩ := Rect.inset_eq_ok_iff.1 hb axis
    rw [start_shift] at hs'
    rw [extent_shift] at hv'
    cases ht.symm.trans ht'
    cases hv.symm.trans hv'
    exact ⟨Extent.add_shift _ _ _ _ _ hs hs', he'.trans he.symm⟩
  exact eq_shift (fun axis => (hall axis).1) (Size.eq_of_along fun axis => (hall axis).2)

theorem Alignment.slot_shift (alignment : Alignment) (bounds : Rect) (child : Size) :
    WhenBoth (fun a b => b = a.shift d) (alignment.slot bounds child)
      (alignment.slot (bounds.shift d) child) := by
  intro a b ha hb
  obtain ⟨hsize, hpos⟩ := Alignment.slot_eq_ok_iff.1 ha
  obtain ⟨hsize', hpos'⟩ := Alignment.slot_eq_ok_iff.1 hb
  refine Rect.eq_shift (fun axis => ?_) (hsize'.trans hsize.symm)
  have hposition : WhenBoth (fun v w => w = v + d.along axis)
      (alignment.position axis bounds child) (alignment.position axis (bounds.shift d) child) := by
    unfold Alignment.position
    rw [Rect.start_shift, Rect.extent_shift]
    exact .bind_same fun offset => Extent.add_shift _ _ _
  exact hposition _ _ (hpos axis) (hpos' axis)

/-! ## Slots of a stack -/

/-- The second list of slots is the first one by `d` further, as long as neither ends in a fault. -/
inductive Slots.Shifts (d : Point) : Slots → Slots → Prop
  | fault_left (fault : Fault) (slots : Slots) : Shifts d (.fault fault) slots
  | fault_right (slots : Slots) (fault : Fault) : Shifts d slots (.fault fault)
  | done : Shifts d .done .done
  | next {slots slots' : Slots} (slot : Option Rect) : Shifts d slots slots' →
      Shifts d (.next slot slots) (.next (slot.map (·.shift d)) slots')

theorem Slots.Shifts.after {α β : Type} {R : α → β → Prop} {first : Except Fault α}
    {second : Except Fault β} {rest : α → Slots} {rest' : β → Slots}
    (h : WhenBoth R first second) (hr : ∀ a b, R a b → Shifts d (rest a) (rest' b)) :
    Shifts d (Slots.after first rest) (Slots.after second rest') := by
  cases first with
  | error fault => exact .fault_left ..
  | ok a =>
    cases second with
    | error fault => exact .fault_right ..
    | ok b => exact hr a b (h a b rfl rfl)

theorem CrossAlign.span_shift (align : CrossAlign) (whole : Span) (size v : Int) :
    WhenBoth (fun a b => b = a.shift v) (align.span whole size)
      (align.span (whole.shift v) size) := by
  cases align with
  | start => exact .ok rfl
  | center =>
    refine .bind_same fun room => (Extent.add_shift _ _ _).bind ?_
    rintro start _ rfl
    exact .ok rfl
  | stop =>
    refine (Extent.add_shift _ _ _).bind ?_
    rintro stop _ rfl
    refine (Extent.sub_shift _ _ _).bind ?_
    rintro start _ rfl
    exact .ok rfl
  | stretch => exact .ok rfl

namespace StackStyle

variable (style : StackStyle) (bounds : Rect)

theorem slot_shift (main : Span) (size : Size) :
    WhenBoth (fun a b => b = a.shift d) (style.slot bounds main size)
      (style.slot (bounds.shift d) (main.shift (d.along style.axis)) size) := by
  unfold slot
  dsimp only
  rw [Rect.start_shift, Rect.extent_shift]
  refine (CrossAlign.span_shift style.align ⟨_, _⟩ _ (d.along style.axis.flip)).bind ?_
  rintro cross _ rfl
  exact .ok (Rect.ofAxis_shift _ _ _ _ _)

theorem sliceSpan_shift (count index : Nat) :
    WhenBoth (fun a b => b = a.shift (d.along style.axis)) (style.sliceSpan bounds count index)
      (style.sliceSpan (bounds.shift d) count index) := by
  unfold sliceSpan
  dsimp only
  rw [Rect.start_shift, Rect.extent_shift]
  refine .bind_same fun part => (Extent.add_shift _ _ _).bind ?_
  rintro first _ rfl
  refine .bind_same fun part => (Extent.add_shift _ _ _).bind ?_
  rintro last _ rfl
  rw [show Extent.sub (last + d.along style.axis) (first + d.along style.axis) =
    Extent.sub last first by rw [Extent.sub, Int.add_sub_add_right]; rfl]
  exact .bind_same fun length => .ok rfl

theorem pack_shift (gap pos : Int) (sizes : List (Option Size)) :
    Slots.Shifts d (style.pack bounds gap pos sizes)
      (style.pack (bounds.shift d) gap (pos + d.along style.axis) sizes) := by
  induction sizes generalizing pos with
  | nil => exact .done
  | cons size sizes ih =>
    cases size with
    | none => exact .next none (ih pos)
    | some size =>
      refine .after (style.slot_shift bounds ⟨pos, size.along style.axis⟩ size) ?_
      rintro slot _ rfl
      refine .next (some slot) (.after (.bind_same fun step => Extent.add_shift _ _ _) ?_)
      rintro next _ rfl
      exact ih next

theorem cut_shift (count index : Nat) (sizes : List (Option Size)) :
    Slots.Shifts d (style.cut bounds count index sizes)
      (style.cut (bounds.shift d) count index sizes) := by
  induction sizes generalizing index with
  | nil => exact .done
  | cons size sizes ih =>
    cases size with
    | none => exact .next none (ih index)
    | some size =>
      have hslot : WhenBoth (fun a b => b = a.shift d)
          (style.sliceSpan bounds count index >>= (style.slot bounds · size))
          (style.sliceSpan (bounds.shift d) count index >>=
            (style.slot (bounds.shift d) · size)) := by
        refine (style.sliceSpan_shift bounds count index).bind ?_
        rintro span _ rfl
        exact style.slot_shift bounds span size
      refine .after hslot ?_
      rintro slot _ rfl
      exact .next (some slot) (ih (index + 1))

theorem slots_shift (totals : StackTotals) (sizes : List (Option Size)) :
    Slots.Shifts d (style.slots bounds totals sizes)
      (style.slots (bounds.shift d) totals sizes) := by
  unfold slots
  dsimp only
  split
  · exact .done
  · split
    · exact style.cut_shift bounds _ 0 sizes
    · rw [Rect.start_shift]
      refine .after (R := Eq) (fun a b ha hb => Except.ok.inj (ha.symm.trans hb)) ?_
      rintro spacing _ rfl
      refine .after (Extent.add_shift _ _ _) ?_
      rintro pos _ rfl
      exact style.pack_shift bounds spacing.gap pos sizes

end StackStyle

/-! ## Slots of a table -/

theorem Grid.slot_shift {grid : Grid} {i : Nat} (hm : grid.isMeasured = true)
    (hi : i < grid.size) (x y : Int) :
    WhenBoth (fun a b => b = a.shift d)
      (grid.slot (grid.lines .horizontal x) (grid.lines .vertical y) i)
      (grid.slot (grid.lines .horizontal (x + d.x)) (grid.lines .vertical (y + d.y)) i) := by
  intro a b ha hb
  obtain ⟨top, ht, ha⟩ := bind_eq_ok_iff.1 ha
  obtain ⟨top', ht', hb⟩ := bind_eq_ok_iff.1 hb
  cases ha
  cases hb
  obtain ⟨-, rfl⟩ := Extent.checked_eq_ok_iff.1 ht
  obtain ⟨-, rfl⟩ := Extent.checked_eq_ok_iff.1 ht'
  simp only [getD_lines hm hi]
  rw [Int.add_right_comm x, Int.add_right_comm y]
  rfl

/-! ## Visits -/

namespace Visit

variable {α β : Type}

mutual
/-- The same calls with other events. -/
def map (f : α → β) : Visit α → Visit β
  | mk name event calls => mk name (f event) (mapAll f calls)
/-- The same for a list of visits. -/
def mapAll (f : α → β) : List (Nat × Visit α) → List (Nat × Visit β)
  | [] => []
  | (i, visit) :: rest => (i, visit.map f) :: mapAll f rest
end

theorem mapAll_eq (f : α → β) (calls : List (Nat × Visit α)) :
    mapAll f calls = calls.map (Prod.map id (map f)) := by
  induction calls with
  | nil => rfl
  | cons call rest ih => rw [mapAll, ih, List.map_cons]; rfl

theorem mapAll_ofChildren (f : α → β) (visits : List (Option (Visit α))) :
    mapAll f (ofChildren visits) = ofChildren (visits.map (Option.map (map f))) := by
  rw [mapAll_eq, ofChildren, ofChildren, List.zipIdx_map, List.filterMap_map, List.map_filterMap]
  refine List.filterMap_congr fun visit _ => ?_
  obtain ⟨_ | visit, i⟩ := visit <;> rfl

theorem trail_map (f : α → β) (visit : Visit α) :
    (visit.map f).trail = visit.trail.map (Prod.map id f) := by
  induction visit with
  | mk name event calls ih =>
    rw [map, trail, trail, trailAll_eq, trailAll_eq, mapAll_eq, List.flatMap_map, List.map_cons,
      List.map_flatMap]
    refine congrArg _ (List.flatMap_congr fun call hc => ?_)
    rw [Prod.map_snd, ih call hc, List.map_map, List.map_map]
    rfl

theorem reports_shift (visit : Visit Placing) :
    (visit.map (·.shift d)).reports = visit.reports.map (Prod.map id (·.shift d)) := by
  rw [reports, reports, ← map_snd_trail, ← map_snd_trail, trail_map, List.map_map,
    List.filterMap_map, List.filterMap_map, List.map_filterMap]
  refine List.filterMap_congr fun call _ => ?_
  obtain ⟨path, bounds, observer⟩ := call
  cases observer <;> rfl

end Visit

namespace Node

/-! ## Placing -/

/-- Placed by some distance further, the node makes the same calls by that distance further. -/
def Shifts (node : Node) : Prop := ∀ (d : Point) (bounds : Rect),
  WhenBoth (fun p p' => p'.visit = p.visit.map (·.shift d)) (node.place bounds)
    (node.place (bounds.shift d))

/-- It is enough to look at the calls on children. -/
theorem Shifts.of_calls {node : Node}
    (h : ∀ (d : Point) (bounds : Rect) (p p' : Placed), node.place bounds = .ok p →
      node.place (bounds.shift d) = .ok p' →
        p'.visit.calls = Visit.mapAll (·.shift d) p.visit.calls) : node.Shifts := by
  intro d bounds p p' hp hp'
  have hcalls := h d bounds p p' hp hp'
  rw [visit_of_place hp, visit_of_place hp', hcalls]
  rfl

variable {frame : Frame}

theorem Shifts.leaf {content : Leaf} : (leaf frame content).Shifts := by
  refine .of_calls fun d bounds p p' hp hp' => ?_
  rw [(put_leaf hp).2, (put_leaf hp').2]
  rfl

theorem Shifts.padding {insets : Insets} {child : Node} (h : child.Shifts) :
    (padding frame insets child).Shifts := by
  refine .of_calls fun d bounds p p' hp hp' => ?_
  obtain ⟨inner, placed, hi, hc, -, hcalls⟩ := put_padding hp
  obtain ⟨inner', placed', hi', hc', -, hcalls'⟩ := put_padding hp'
  cases Rect.inset_shift bounds insets inner inner' hi hi'
  rw [hcalls, hcalls', h d inner placed placed' hc hc']
  rfl

theorem Shifts.align {alignment : Alignment} {measured : Size} {child : Node} (h : child.Shifts) :
    (align frame alignment measured child).Shifts := by
  refine .of_calls fun d bounds p p' hp hp' => ?_
  obtain ⟨slot, placed, hs, hc, -, hcalls⟩ := put_align hp
  obtain ⟨slot', placed', hs', hc', -, hcalls'⟩ := put_align hp'
  cases Alignment.slot_shift alignment bounds measured slot slot' hs hs'
  rw [hcalls, hcalls', h d slot placed placed' hc hc']
  rfl

/-- Where both lists of slots serve the children, the children that are placed are placed by the
distance further. -/
theorem visits_placeItems_shift {items : List (Item Node)} {slots slots' : Slots}
    {placed placed' : List (Option Placed)} (hs : slots.Suits (measuredSizes items))
    (hshifts : slots.Shifts d slots')
    (h : ∀ item ∈ items, item.node.isLive = true → item.node.Shifts)
    (hp : placeItems items slots = .ok placed) (hp' : placeItems items slots' = .ok placed') :
    placed'.map (Option.map Placed.visit) =
      (placed.map (Option.map Placed.visit)).map (Option.map (Visit.map (·.shift d))) := by
  induction items generalizing slots slots' placed placed' with
  | nil =>
    rw [List.length_eq_zero_iff.1 (length_placeItems hp),
      List.length_eq_zero_iff.1 (length_placeItems hp')]
    rfl
  | cons item rest ih =>
    obtain ⟨hitem, hrest⟩ := List.forall_mem_cons.1 h
    cases hshifts with
    | fault_left fault => cases hp
    | fault_right slots fault => cases hp'
    | done =>
      rw [placeItems_done] at hp hp'
      rw [← Except.ok.inj hp, ← Except.ok.inj hp', List.map_map, List.map_map]
      rfl
    | next slot hshifts =>
      obtain ⟨hslot, hsuits⟩ := slot_eq_none_iff hs
      cases slot with
      | none =>
        obtain ⟨others, ho, rfl⟩ := placeItems_none_eq_ok_iff.1 hp
        obtain ⟨others', ho', rfl⟩ := placeItems_none_eq_ok_iff.1 hp'
        rw [List.map_cons, ih hsuits hshifts hrest ho ho']
        rfl
      | some slot =>
        have hl : item.node.isLive = true :=
          Decidable.of_not_not (mt hslot.2 (Option.some_ne_none slot))
        obtain ⟨found, others, hf, ho, rfl⟩ := placeItems_some_eq_ok_iff.1 hp
        obtain ⟨found', others', hf', ho', rfl⟩ := placeItems_some_eq_ok_iff.1 hp'
        rw [List.map_cons, ih hsuits hshifts hrest ho ho', Option.map_some,
          hitem hl d slot found found' hf hf']
        rfl

theorem Shifts.stack {style : StackStyle} {totals : StackTotals} {items : List (Item Node)}
    (h : ∀ item ∈ items, item.node.isLive = true → item.node.Shifts) :
    (stack frame style totals items).Shifts := by
  refine .of_calls fun d bounds p p' hp hp' => ?_
  obtain ⟨placed, hc, -, hcalls⟩ := put_stack hp
  obtain ⟨placed', hc', -, hcalls'⟩ := put_stack hp'
  rw [hcalls, hcalls', Placed.calls, Placed.calls, Visit.mapAll_ofChildren,
    visits_placeItems_shift StackStyle.suits_slots (style.slots_shift bounds ..) h hc hc']

theorem Shifts.table {grid : Grid} {cells : List (Option Node)} (hn : cells.length ≤ grid.size)
    (h : ∀ child, some child ∈ cells → child.isLive = true → child.Shifts) :
    (table frame grid cells).Shifts := by
  refine .of_calls fun d bounds p p' hp hp' => ?_
  obtain ⟨_, _, placed, hm, -, -, hplaced, -, hcalls⟩ := put_table hp
  obtain ⟨_, _, placed', -, -, -, hplaced', -, hcalls'⟩ := put_table hp'
  rw [hcalls, hcalls', Placed.calls, Placed.calls, Visit.mapAll_ofChildren, map_pick, map_pick,
    map_pick]
  refine congrArg _ (pick_congr fun cell hc hl => ?_)
  obtain ⟨-, hi, hlive⟩ := exists_of_isLiveCell hc hl
  obtain ⟨slot, hs, hq⟩ := hplaced cell hc hl
  obtain ⟨slot', hs', hq'⟩ := hplaced' cell hc hl
  have hnumber : cell.2 < grid.size :=
    Nat.lt_of_lt_of_le (List.getElem?_eq_some_iff.1 hi).1 hn
  cases Grid.slot_shift hm hnumber _ _ slot slot' hs hs'
  exact h _ (List.mem_of_getElem? hi) hlive d slot _ _ hq hq'

theorem shifts_of_isNumbered {root : Node} (h : root.AllReached IsNumbered) : root.Shifts := by
  induction root with
  | leaf frame content => exact .leaf
  | padding frame insets child ih => exact .padding (ih (allReached_padding.1 h).2)
  | align frame alignment measured child ih => exact .align (ih (allReached_align.1 h).2)
  | stack frame style totals items ih =>
    exact .stack fun item hi hl => ih item hi ((allReached_stack.1 h).2 item hi hl)
  | table frame grid cells ih =>
    obtain ⟨hn, hcells⟩ := allReached_table.1 h
    exact .table hn.length_le fun child hc hl => ih child hc (hcells child hc hl)

/-- A tree that can be placed in a box and in that box by some distance further is placed there with
every node by that distance further, at the same size. The calls are the same but for that distance,
and so are the reports. -/
theorem place_shift {root : Node} (h : root.AllReached IsNumbered) {bounds : Rect} {p p' : Placed}
    (hp : root.place bounds = .ok p) (hp' : root.place (bounds.shift d) = .ok p') :
    (∀ path, (p'.node.reachedAt path).map (·.bounds) =
      (p.node.reachedAt path).map (·.bounds.shift d)) ∧
      p'.visit.reports = p.visit.reports.map (Prod.map id (·.shift d)) ∧
      p'.visit = p.visit.map (·.shift d) := by
  have hvisit := shifts_of_isNumbered h d bounds p p' hp hp'
  refine ⟨fun path => ?_, hvisit ▸ Visit.reports_shift p.visit, hvisit⟩
  have htrail := trail_of_place hp'
  rw [hvisit, Visit.trail_map, trail_of_place hp, List.map_map] at htrail
  have hbounds := congrArg (List.map (Prod.map id Placing.bounds)) htrail
  rw [List.map_map, List.map_map] at hbounds
  refine Option.ext fun rect => ?_
  rw [← mem_map_preorder, ← mem_map_preorder]
  exact Eq.to_iff (congrArg _ hbounds.symm)

/-- A row that spaces out an aligned canvas and a table; the offsets, the gaps and the halves are
all rounded. -/
theorem place_shift_row :
    let grid : Grid := { rows := 1, cols := 2, sized := true, widths := #[8, 4], heights := #[9] }
    let row := stack {} { axis := .horizontal, justify := .spaceAround, align := .center } ⟨0, 15⟩
      [⟨align {} { horizontal := ⟨33, by decide⟩ } ⟨3, 2⟩
          (ofLeaf (.canvas ⟨3, 2⟩ .visible (some "a"))), 0, ⟨10, 5⟩⟩,
        ⟨table {} grid [none, some (pad (.all 1) (ofLeaf (.canvas ⟨0, 0⟩ .visible (some "b"))))],
          0, ⟨5, 9⟩⟩]
    let box : Rect := ⟨⟨-7, 5⟩, ⟨53, 30⟩⟩
    ∃ p p', row.place box = .ok p ∧ row.place (box.shift ⟨-3, 11⟩) = .ok p' ∧
      p.visit.reports = [("a", ⟨⟨7, 18⟩, ⟨3, 2⟩⟩), ("b", ⟨⟨36, 16⟩, ⟨2, 7⟩⟩)] ∧
      p'.visit.reports = [("a", ⟨⟨4, 29⟩, ⟨3, 2⟩⟩), ("b", ⟨⟨33, 27⟩, ⟨2, 7⟩⟩)] ∧
      ∀ path, (p'.node.reachedAt path).map (·.bounds) =
        (p.node.reachedAt path).map (·.bounds.shift ⟨-3, 11⟩) := by
  intro grid row box
  have hnumbered : row.AllReached IsNumbered := by
    simp only [row, pad, ofLeaf, allReached_stack, List.forall_mem_cons, allReached_align,
      allReached_leaf, allReached_table]
    refine ⟨trivial, fun _ => ⟨trivial, trivial⟩, fun _ => ⟨rfl, ?_⟩, by simp⟩
    intro child hc _
    simp only [List.mem_cons, reduceCtorEq, Option.some.injEq, List.not_mem_nil, or_false,
      false_or] at hc
    subst hc
    exact allReached_padding.2 ⟨trivial, allReached_leaf.2 trivial⟩
  obtain ⟨p, hp, hreports⟩ := map_eq_ok_iff.1 (by decide +kernel :
    (·.visit.reports) <$> row.place box =
      .ok [("a", ⟨⟨7, 18⟩, ⟨3, 2⟩⟩), ("b", ⟨⟨36, 16⟩, ⟨2, 7⟩⟩)])
  obtain ⟨p', hp', -⟩ := map_eq_ok_iff.1 (by decide +kernel :
    (·.visit.reports.length) <$> row.place (box.shift ⟨-3, 11⟩) = .ok 2)
  obtain ⟨hbounds, hshifted, -⟩ := place_shift hnumbered hp hp'
  refine ⟨p, p', hp, hp', hreports, ?_, hbounds⟩
  rw [hshifted, hreports]
  rfl

end Node

end BoxLayout
