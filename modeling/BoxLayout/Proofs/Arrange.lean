import BoxLayout.Proofs.Calls
import BoxLayout.Proofs.Natural
import BoxLayout.Proofs.Replace

/-!
# Placing follows the last answer

A node may be measured several times before it is placed. If every answer obeys the constraints that
it was given, a tree that is placed at the size that it answered places every node at the size that
this node answered to the last call on it (`bounds_eq_last_answer`).

One step down the tree is `Node.Continues`: what a container recorded of the last call on a child is
what it makes the slot of the child from. Stacks must not be cut into slices, since a slice has the
extent of the cut and not the one that the child chose.
-/

namespace BoxLayout

namespace Constraints

theorem bounds_of_isSatisfiedBy {given : Constraints} {size : Size}
    (h : given.isSatisfiedBy size = true) (axis : Axis) : size.along axis ≠ Extent.inf ∧
      (given.along axis).lo ≤ size.along axis ∧ size.along axis ≤ (given.along axis).hi := by
  simp only [isSatisfiedBy, Size.isFinite, Limits.contains, Bool.and_eq_true, bne_iff_ne, ne_eq,
    decide_eq_true_eq] at h
  obtain ⟨⟨⟨hw, hh⟩, hwidth⟩, hheight⟩ := h
  cases axis with
  | horizontal => exact ⟨hw, hwidth⟩
  | vertical => exact ⟨hh, hheight⟩

end Constraints

/-! ## The sizes of slots -/

theorem Rect.extent_of_inset {rect inner : Rect} {insets : Insets}
    (h : rect.inset insets = .ok inner) (axis : Axis) :
    inner.size.along axis = max (rect.size.along axis - insets.amount axis) 0 := by
  obtain ⟨-, amount, v, ha, hv, hextent⟩ := Rect.inset_eq_ok_iff.1 h axis
  obtain ⟨-, rfl⟩ := Extent.sub_eq_ok_iff.1 hv
  rw [← Insets.eq_amount_of_total ha]
  exact hextent

theorem Alignment.size_of_slot {alignment : Alignment} {bounds slot : Rect} {child : Size}
    (h : alignment.slot bounds child = .ok slot) : slot.size = child :=
  (Alignment.slot_eq_ok_iff.1 h).1

theorem Grid.size_of_slot {grid : Grid} {lefts tops : Array Int} {i : Nat} {slot : Rect}
    (h : grid.slot lefts tops i = .ok slot) : slot.size = grid.slotSize i := by
  obtain ⟨top, -, h⟩ := bind_eq_ok_iff.1 h
  cases h
  rfl

namespace StackStyle

variable {style : StackStyle} {bounds : Rect}

/-- The size of the slot of a child in a stack that packs its children. -/
def slotSize (style : StackStyle) (bounds : Rect) (size : Size) : Size :=
  .ofAxis style.axis (size.along style.axis)
    (if style.align = .stretch then bounds.size.along style.axis.flip
      else size.along style.axis.flip)

theorem size_of_slot {pos : Int} {size : Size} {slot : Rect}
    (h : style.slot bounds ⟨pos, size.along style.axis⟩ size = .ok slot) :
    slot.size = style.slotSize bounds size := by
  obtain ⟨cross, hc, h⟩ := bind_eq_ok_iff.1 h
  have hlength : cross.length = if style.align = .stretch then bounds.size.along style.axis.flip
      else size.along style.axis.flip := by
    unfold CrossAlign.span at hc
    split at hc
    · rename_i ha
      cases hc
      rw [ha, if_neg nofun]
    · rename_i ha
      obtain ⟨room, -, hc⟩ := bind_eq_ok_iff.1 hc
      obtain ⟨start, -, hc⟩ := bind_eq_ok_iff.1 hc
      cases hc
      rw [ha, if_neg nofun]
    · rename_i ha
      obtain ⟨stop, -, hc⟩ := bind_eq_ok_iff.1 hc
      obtain ⟨start, -, hc⟩ := bind_eq_ok_iff.1 hc
      cases hc
      rw [ha, if_neg nofun]
    · rename_i ha
      cases hc
      rw [ha, if_pos rfl]
      rfl
  cases h
  rw [slotSize, ← hlength]
  cases style.axis <;> rfl

end StackStyle

namespace Node

/-- Every child that takes part is placed in a slot for its size, and no other child is. -/
theorem getElem?_placeItems {P : Size → Rect → Prop} {items : List (Item Node)} {slots : Slots}
    {placed : List (Option Placed)} (hs : slots.Suits (measuredSizes items))
    (hf : slots.Each P (measuredSizes items)) (hp : placeItems items slots = .ok placed) {i : Nat}
    {item : Item Node} (hi : items[i]? = some item) :
    (item.node.isLive = true → ∃ slot q, P item.measured slot ∧ item.node.place slot = .ok q ∧
      placed[i]? = some (some q)) ∧ (item.node.isLive ≠ true → placed[i]? = some none) := by
  induction items generalizing slots placed i with
  | nil => cases hi
  | cons head rest ih =>
    cases slots with
    | fault fault => cases hp
    | done =>
      rw [placeItems_done] at hp
      cases hp
      rw [List.getElem?_map, hi]
      refine ⟨fun hl => ?_, fun _ => rfl⟩
      have hmem : some item.measured ∈ measuredSizes (head :: rest) :=
        mem_pick.2 ⟨item, List.mem_of_getElem? hi, hl, rfl⟩
      exact absurd (hs _ hmem) (Option.some_ne_none _)
    | next slot slots =>
      obtain ⟨hslot, hsuits⟩ := slot_eq_none_iff hs
      rw [measuredSizes_cons] at hf
      cases slot with
      | none =>
        have hdead : head.node.isLive ≠ true := hslot.1 rfl
        rw [if_neg hdead] at hf
        obtain ⟨others, ho, rfl⟩ := placeItems_none_eq_ok_iff.1 hp
        cases i with
        | zero =>
          cases hi
          exact ⟨fun hl => absurd hl hdead, fun _ => rfl⟩
        | succ i => exact ih hsuits hf ho hi
      | some slot =>
        have hl : head.node.isLive = true :=
          Decidable.of_not_not (mt hslot.2 (Option.some_ne_none slot))
        rw [if_pos hl] at hf
        obtain ⟨q, others, hq, ho, rfl⟩ := placeItems_some_eq_ok_iff.1 hp
        cases i with
        | zero =>
          cases hi
          exact ⟨fun _ => ⟨slot, q, hf.1, hq, rfl⟩, fun hdead => absurd hl hdead⟩
        | succ i => exact ih hsuits hf.2 ho hi

variable {frame : Frame} {bounds : Rect} {p : Placed} {i : Nat} {below : Node}

/-- A child that is found in a placed stack has been placed in a slot for its size. -/
theorem visitedAt_place_stack {style : StackStyle} {totals : StackTotals} {items : List (Item Node)}
    (hs : style.isHomogeneous = false) (hp : (stack frame style totals items).place bounds = .ok p)
    (hv : p.node.visitedAt i = some below) :
    ∃ item slot q, items[i]? = some item ∧ item.node.isLive = true ∧
      slot.size = style.slotSize bounds item.measured ∧ item.node.place slot = .ok q ∧
      q.node = below := by
  obtain ⟨placed, hplaced, hnode⟩ := place_stack hp
  rw [hnode, visitedAt, Option.filter_eq_some_iff, List.getElem?_zipWith] at hv
  obtain ⟨hv, hlive⟩ := hv
  cases hi : items[i]? with
  | none => rw [hi] at hv; cases hv
  | some item =>
    obtain ⟨hyes, hno⟩ := getElem?_placeItems StackStyle.suits_slots
      (StackStyle.each_slots (fun _ _ _ _ hslot => StackStyle.size_of_slot hslot)
        fun hh => absurd hh (by simp [hs])) hplaced hi
    rw [hi] at hv
    by_cases hl : item.node.isLive = true
    · obtain ⟨slot, q, hsize, hq, hget⟩ := hyes hl
      rw [hget] at hv
      exact ⟨item, slot, q, rfl, hl, hsize, hq, Option.some.inj hv⟩
    · rw [hno hl] at hv
      rw [← Option.some.inj hv] at hlive
      exact absurd hlive hl

/-- Every child of a table that takes part is placed in the slot of its cell. -/
theorem visitedAt_place_table {grid : Grid} {cells : List (Option Node)}
    (hp : (table frame grid cells).place bounds = .ok p) (i : Nat) : ∃ placed : Node → Placed,
      p.node.visitedAt i =
        ((table frame grid cells).visitedAt i).map (fun child => (placed child).node) ∧
      ∀ child, (table frame grid cells).visitedAt i = some child → ∃ slot,
        grid.slot (grid.lines .horizontal bounds.origin.x) (grid.lines .vertical bounds.origin.y)
          i = .ok slot ∧ child.place slot = .ok (placed child) := by
  obtain ⟨_, _, placed, -, -, -, hplaced, hnode⟩ := place_table hp
  have hlive : ∀ cell ∈ cells.zipIdx, isLiveCell cell = true → (placed cell).node.isLive = true :=
    fun cell hmem hl => by
      obtain ⟨slot, -, hq⟩ := hplaced cell hmem hl
      exact (isLive_of_place hq).trans (exists_of_isLiveCell hmem hl).2.2
  refine ⟨fun child => placed (some child, i), ?_, fun child hchild => ?_⟩
  · rw [hnode]
    exact visitedAt_settled hlive i
  · obtain ⟨hi, hl⟩ := visitedAt_table_eq_some_iff.1 hchild
    exact hplaced (some child, i) (List.mem_zipIdx_iff_getElem?.2 hi) hl

/-! ## Down the tree -/

/-- The last of the calls that measured the child with index `i` of the node measured in `m` is the
one that gave `found`. -/
structure LastCall (m : Measured) (i : Nat) (child : Node) (found : Measured) : Prop where
  measured : ∃ given, child.measure given = .ok found
  mem : (i, found.visit) ∈ m.visit.calls
  last : ∀ path event, found.visit.last? path = some event → m.visit.last? (i :: path) = some event

/-- Every answer in the visit obeys the constraints that it was given. -/
def Obeys (m : Measured) : Prop :=
  ∀ event ∈ m.visit.events, event.given.isSatisfiedBy event.answer = true

theorem Obeys.isSatisfiedBy {m : Measured} (h : Obeys m) {node : Node} {given : Constraints}
    (hm : node.measure given = .ok m) : given.isSatisfiedBy m.size = true := by
  have hevent := h _ (Visit.event_mem_events m.visit)
  rwa [event_of_measure hm] at hevent

theorem Obeys.of_mem {m found : Measured} (h : Obeys m) {i : Nat}
    (hc : (i, found.visit) ∈ m.visit.calls) : Obeys found :=
  fun event he => h event (Visit.mem_events_of_mem_calls hc he)

/-- What a placed container holds at an index is a visited child, placed at the size that it
answered last. -/
def Continues (node : Node) : Prop := ∀ (given : Constraints) (m : Measured) (bounds : Rect)
  (p : Placed), node.measure given = .ok m → Obeys m → bounds.size = m.size →
    m.node.place bounds = .ok p → ∀ i below, p.node.visitedAt i = some below →
      ∃ child ∈ node.visited, ∃ found slot q, LastCall m i child found ∧
        slot.size = found.size ∧ found.node.place slot = .ok q ∧ q.node = below

theorem lastCall_only {m : Measured} {child : Node} {given : Constraints} {found : Measured}
    (hm : child.measure given = .ok found) (hc : m.visit.calls = [(0, found.visit)]) :
    LastCall m 0 child found := by
  refine ⟨⟨given, hm⟩, hc ▸ List.mem_singleton_self _, fun path event he => ?_⟩
  rw [Visit.last?_cons, hc, Visit.lastOf_singleton, he]

theorem Continues.leaf {content : Leaf} : (leaf frame content).Continues := by
  intro given m bounds p hm ho hb hp i below hv
  rw [(run_leaf hm).2.1] at hp
  rw [place_leaf hp] at hv
  cases hv

/-- The part of a finite answer that is no padding. -/
theorem sub_amount_eq {v amount : Int} (hv : 0 ≤ v) (h₀ : 0 ≤ Extent.saturatingAdd v amount)
    (hf : Extent.saturatingAdd v amount ≠ Extent.inf) :
    max (Extent.saturatingAdd v amount - amount) 0 = v := by
  unfold Extent.saturatingAdd at *
  split at hf
  · exact absurd rfl hf
  · rename_i hne
    rw [if_neg hne] at h₀ ⊢
    simp only [Extent.saturate, Extent.least, Extent.inf] at *
    omega

theorem Continues.padding {insets : Insets} {child : Node} :
    (padding frame insets child).Continues := by
  intro given m bounds p hm ho hb hp i below hv
  have hn := isNormalized_of_measure hm
  have hsat := Constraints.bounds_of_isSatisfiedBy (ho.isSatisfiedBy hm)
  obtain ⟨width, height, inner, found, -, -, -, hf, ha, hnode, hcalls⟩ := run_padding hm
  rw [hnode] at hp
  obtain ⟨slot, q, hslot, hq, hpnode⟩ := place_padding hp
  have hcall : LastCall m 0 child found := lastCall_only hf hcalls
  have hfound := Constraints.bounds_of_isSatisfiedBy ((ho.of_mem hcall.mem).isSatisfiedBy hf)
  rw [hpnode, visitedAt] at hv
  split at hv
  · rename_i hi
    subst hi
    refine ⟨child, by simp [visited], found, slot, q, hcall, ?_, hq, Option.some.inj hv⟩
    refine Size.eq_of_along fun axis => ?_
    obtain ⟨hfin, hlo, -⟩ := hsat axis
    have hle := (Limits.isLength_lo (Constraints.isNormalized_iff.1 hn axis)).1
    have hle' := (Limits.isLength_lo
      (Constraints.isNormalized_iff.1 (isNormalized_of_measure hf) axis)).1
    rw [Insets.along_of_around ha] at hfin hlo
    rw [Rect.extent_of_inset hslot, hb, Insets.along_of_around ha]
    exact sub_amount_eq (Int.le_trans hle' (hfound axis).2.1) (Int.le_trans hle hlo) hfin
  · cases hv

theorem Continues.align {alignment : Alignment} {measured : Size} {child : Node} :
    (align frame alignment measured child).Continues := by
  intro given m bounds p hm ho hb hp i below hv
  obtain ⟨found, hf, -, hnode, hcalls⟩ := run_align hm
  rw [hnode] at hp
  obtain ⟨slot, q, hslot, hq, hpnode⟩ := place_align hp
  rw [hpnode, visitedAt] at hv
  split at hv
  · rename_i hi
    subst hi
    exact ⟨child, by simp [visited], found, slot, q, lastCall_only hf hcalls,
      Alignment.size_of_slot hslot, hq, Option.some.inj hv⟩
  · cases hv

section Stack

variable {style : StackStyle} {totals : StackTotals} {items : List (Item Node)} {run : Sharing}
  {given : Constraints} {m : Measured}

theorem lastCall_stack {stack : Node} (hr : run.IsRun stack style items given)
    (hcalls : m.visit.calls = Measured.calls (pick (·.node.isLive) run.once items) ++
      Measured.calls (pick run.shares run.again items)) {item : Item Node}
    (hi : items[i]? = some item) (hl : item.node.isLive = true) :
    LastCall m i item.node (run.last item) := by
  have hlast (path : List Nat) : m.visit.last? (i :: path) =
      (if run.shares item then (run.again item).visit.last? path else none).or
        ((run.once item).visit.last? path) := by
    rw [Visit.last?_cons, hcalls, Visit.trailAll_append, Visit.lastOf_append,
      Measured.lastOf_calls_pick hi, Measured.lastOf_calls_pick hi, if_pos hl]
  refine ⟨hr.exists_measure_last (List.mem_of_getElem? hi) hl, ?_, fun path event he => ?_⟩
  · rw [hcalls, Sharing.last]
    split
    · rename_i hq
      exact List.mem_append_right _ (Measured.mem_calls_pick hi hq)
    · exact List.mem_append_left _ (Measured.mem_calls_pick hi hl)
  · rw [Sharing.last] at he
    rw [hlast]
    split at he
    · rename_i hq
      rw [if_pos hq, he]
      rfl
    · rename_i hq
      rw [if_neg hq, he]
      rfl

/-- Across its axis a stretched child answers what the stack answers. -/
theorem along_last_of_stretch {stack : Node} (hr : run.IsRun stack style items given)
    (hn : given.isNormalized = true) (hcount : liveCount items ≠ 0)
    (ha : given.constrain (.ofAxis style.axis run.extent (run.breadthOf style items)) = .ok m.size)
    (hs : style.align = .stretch) {item : Item Node} (hi : item ∈ items)
    (hl : item.node.isLive = true) (ho : Obeys (run.last item)) :
    (run.last item).size.along style.axis.flip = m.size.along style.axis.flip := by
  have hoffer := (hr.offer_spec hn hcount).2
  rw [StackStyle.across, if_pos hs] at hoffer
  obtain ⟨given', hm', hcross⟩ : ∃ given', item.node.measure given' = .ok (run.last item) ∧
      given'.along style.axis.flip = run.offer.along style.axis.flip := by
    unfold Sharing.last
    split
    · rename_i hq
      exact ⟨_, hr.again item hi hq, hr.along_flip_enlarged hi hq⟩
    · exact ⟨_, hr.once item hi hl, rfl⟩
  obtain ⟨-, hlo, hhi⟩ :=
    Constraints.bounds_of_isSatisfiedBy (ho.isSatisfiedBy hm') style.axis.flip
  rw [hcross, hoffer] at hlo hhi
  have hnc := Limits.isNormalized_iff.1 (Constraints.isNormalized_iff.1 hn style.axis.flip)
  rw [Constraints.along_of_constrain ha, Size.along_flip_ofAxis, Sharing.breadthOf, if_pos hs,
    hoffer]
  simp only [Limits.exactly, Limits.nearest] at *
  omega

theorem Continues.stack (hs : style.isHomogeneous = false) :
    (stack frame style totals items).Continues := by
  intro given m bounds p hm ho hb hp i below hv
  rcases Classical.em (liveCount items = 0) with hcount | hcount
  · rw [(run_stack_empty hm hcount).2.1] at hp
    obtain ⟨item, _, _, hi, hl, -⟩ := visitedAt_place_stack hs hp hv
    exact absurd hl (List.countP_eq_zero.1 hcount item (List.mem_of_getElem? hi))
  obtain ⟨run, hr, ha, hnode, hcalls⟩ := run_stack hm hcount
  rw [hnode] at hp
  obtain ⟨settled, slot, q, hsettled, hl, hsize, hq, rfl⟩ := visitedAt_place_stack hs hp hv
  rw [List.getElem?_map] at hsettled
  obtain ⟨item, hi, rfl⟩ := Option.map_eq_some_iff.1 hsettled
  have hmem := List.mem_of_getElem? hi
  rw [hr.isLive_settled hmem] at hl
  rw [run.settled_of_isLive hl] at hsize hq
  have hcall := lastCall_stack hr hcalls hi hl
  refine ⟨item.node, mem_visited_stack.2 ⟨item, hmem, hl, rfl⟩, _, slot, q, hcall, ?_, hq, rfl⟩
  rw [hsize, StackStyle.slotSize, hb]
  split
  · rename_i hstretch
    rw [← along_last_of_stretch hr (isNormalized_of_measure hm) hcount ha hstretch hmem hl
      (ho.of_mem hcall.mem), Size.ofAxis_along]
  · rw [Size.ofAxis_along]

end Stack

theorem eq_of_isSatisfiedBy_exactly {size answer : Size}
    (h : (Constraints.exactly size).isSatisfiedBy answer = true) : answer = size := by
  refine Size.eq_of_along fun axis => ?_
  obtain ⟨-, hlo, hhi⟩ := Constraints.bounds_of_isSatisfiedBy h axis
  rw [Constraints.along_exactly] at hlo hhi
  exact Int.le_antisymm hhi hlo

section Table

variable {grid : Grid} {cells : List (Option Node)} {once again : Option Node × Nat → Measured}
  {m : Measured}

theorem lastCall_table
    (hcalls : m.visit.calls = Measured.calls (pick isLiveCell once cells.zipIdx) ++
      Measured.calls (pick isLiveCell again cells.zipIdx)) {child : Node}
    (hi : cells[i]? = some (some child)) (hl : child.isLive = true) {given : Constraints}
    (hm : child.measure given = .ok (again (some child, i))) :
    LastCall m i child (again (some child, i)) := by
  have hzip : cells.zipIdx[i]? = some (some child, i) := by simp [hi]
  refine ⟨⟨given, hm⟩, ?_, fun path event he => ?_⟩
  · rw [hcalls]
    exact List.mem_append_right _ (Measured.mem_calls_pick hzip hl)
  · rw [Visit.last?_cons, hcalls, Visit.trailAll_append, Visit.lastOf_append,
      Measured.lastOf_calls_pick hzip, if_pos (show isLiveCell (some child, i) = true from hl), he]
    rfl

/-- The children of a measured table are what became of those before. -/
theorem visitedAt_measured {frame' : Frame} {grid' : Grid} {given : Option Node × Nat → Constraints}
    (hagain : ∀ cell ∈ cells.zipIdx, isLiveCell cell = true →
      (content cell).measure (given cell) = .ok (again cell)) (i : Nat) :
    (table frame' grid' (cells.zipIdx.map fun cell =>
        if isLiveCell cell then some (again cell).node else cell.1)).visitedAt i =
      ((table frame grid cells).visitedAt i).map fun child => (again (some child, i)).node :=
  visitedAt_settled (fun cell hmem hl =>
    (isLive_of_measure (hagain cell hmem hl)).trans (exists_of_isLiveCell hmem hl).2.2) i

theorem Continues.table : (table frame grid cells).Continues := by
  intro given m bounds p hm ho hb hp i below hv
  obtain ⟨-, once, again, sized, -, -, hagain, -, hnode, hcalls⟩ := run_table hm
  rw [hnode] at hp
  obtain ⟨placed, hfound, hplaced⟩ := visitedAt_place_table hp i
  rw [hfound] at hv
  obtain ⟨settled, hsettled, rfl⟩ := Option.map_eq_some_iff.1 hv
  obtain ⟨slot, hslot, hq⟩ := hplaced settled hsettled
  rw [@visitedAt_measured frame grid _ _ _ _ _ hagain] at hsettled
  obtain ⟨child, hchild, rfl⟩ := Option.map_eq_some_iff.1 hsettled
  obtain ⟨hi, hl⟩ := visitedAt_table_eq_some_iff.1 hchild
  have hm' := hagain (some child, i) (List.mem_zipIdx_iff_getElem?.2 hi) hl
  have hcall := lastCall_table hcalls hi hl hm'
  have hanswer := eq_of_isSatisfiedBy_exactly ((ho.of_mem hcall.mem).isSatisfiedBy hm')
  exact ⟨child, mem_visited_iff.2 ⟨i, hchild⟩, _, slot, _, hcall,
    (Grid.size_of_slot hslot).trans hanswer.symm, hq, rfl⟩

end Table

theorem bounds_of_place {node : Node} (hp : node.place bounds = .ok p) :
    p.node.bounds = bounds := by
  cases node with
  | leaf frame content => rw [place_leaf hp]; rfl
  | padding frame insets child =>
    obtain ⟨_, _, -, -, hnode⟩ := place_padding hp
    rw [hnode]; rfl
  | align frame alignment measured child =>
    obtain ⟨_, _, -, -, hnode⟩ := place_align hp
    rw [hnode]; rfl
  | stack frame style totals items =>
    obtain ⟨_, -, hnode⟩ := place_stack hp
    rw [hnode]; rfl
  | table frame grid cells =>
    obtain ⟨_, _, _, -, -, -, -, hnode⟩ := place_table hp
    rw [hnode]; rfl

/-- If every answer obeys the constraints that it was given and the tree is placed at the size that
it answered, every node reached is placed at the size that it answered to the last call on it. -/
theorem bounds_eq_last_answer {root : Node} (h : root.AllReached IsUncut) {given : Constraints}
    {m : Measured} (hm : root.measure given = .ok m)
    (ho : ∀ event ∈ m.visit.events, event.given.isSatisfiedBy event.answer = true)
    (hb : bounds.size = m.size) (hp : m.node.place bounds = .ok p) :
    ∀ path below, p.node.reachedAt path = some below →
      ∃ event, m.visit.last? path = some event ∧ below.bounds.size = event.answer := by
  intro path
  induction path generalizing root given m bounds p with
  | nil =>
    rintro below hbelow
    cases hbelow
    exact ⟨_, Visit.last?_nil _, by rw [bounds_of_place hp, hb, event_of_measure hm]⟩
  | cons i path ih =>
    rintro below hbelow
    obtain ⟨child', hv, hbelow⟩ := Option.bind_eq_some_iff.1 hbelow
    obtain ⟨hroot, hchildren⟩ := (allReached_iff _).1 h
    have hcontinues : root.Continues := by
      cases root with
      | leaf => exact .leaf
      | padding => exact .padding
      | align => exact .align
      | stack => exact .stack hroot
      | table => exact .table
    obtain ⟨child, hc, found, slot, q, hcall, hsize, hq, rfl⟩ :=
      hcontinues given m bounds p hm ho hb hp i child' hv
    obtain ⟨given', hm'⟩ := hcall.measured
    have ho' : Obeys found := Obeys.of_mem ho hcall.mem
    obtain ⟨event, hlast, hanswer⟩ := ih (hchildren child hc) hm' ho' hsize hq below hbelow
    exact ⟨event, hcall.last path event hlast, hanswer⟩

/-- A padded spacer that is measured twice, since it shares in the room of a row. -/
theorem bounds_of_shared_room :
    let row := stackOf { axis := .horizontal, align := .stretch }
      [(pad (.all 2) (ofLeaf (.spacer ⟨10, 5⟩)), 1), (ofLeaf (.button "Ok" .visible default), 0)]
    ∃ m p, row.measure (.exactly ⟨100, 30⟩) = .ok m ∧
      m.node.place (.atOrigin ⟨100, 30⟩) = .ok p ∧
      (p.node.reachedAt [0, 0]).map (·.bounds.size) = some ⟨64, 26⟩ ∧
      ∀ path below, p.node.reachedAt path = some below →
        ∃ event, m.visit.last? path = some event ∧ below.bounds.size = event.answer := by
  intro row
  have hkind : row.AllReached IsUncut := by
    simp only [row, stackOf, pad, ofLeaf, allReached_stack, List.map, List.forall_mem_cons,
      allReached_leaf, allReached_padding]
    exact ⟨rfl, fun _ => ⟨trivial, trivial⟩, fun _ => trivial, by simp⟩
  obtain ⟨m, hm, hrest⟩ := map_eq_ok_iff.1 (by decide +kernel : (fun m => (m.size,
      m.visit.events.all (fun event => event.given.isSatisfiedBy event.answer),
      (m.node.place (.atOrigin ⟨100, 30⟩)).toOption.map fun p =>
        (p.node.reachedAt [0, 0]).map (·.bounds.size))) <$> row.measure (.exactly ⟨100, 30⟩) =
    .ok (⟨100, 30⟩, true, some (some ⟨64, 26⟩)))
  simp only [Prod.mk.injEq] at hrest
  obtain ⟨hsize, hall, hplaced⟩ := hrest
  cases hp : m.node.place (.atOrigin ⟨100, 30⟩) with
  | error fault => rw [hp] at hplaced; cases hplaced
  | ok p =>
    rw [hp] at hplaced
    exact ⟨m, p, hm, hp, Option.some.inj hplaced, bounds_eq_last_answer hkind hm
      (List.all_eq_true.1 hall) hsize.symm hp⟩

end Node

end BoxLayout
