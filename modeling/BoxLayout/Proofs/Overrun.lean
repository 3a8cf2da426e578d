import BoxLayout.Proofs.Asked
import BoxLayout.Proofs.Enough

/-!
# Windows of any size

A window may be so large that positions in it are close to the greatest extent. A firm tree that
fits is laid out in it all the same, unless it overruns (`Window.resize_of_enough_room`): a stack
that spaces its children out goes on by one more gap after the last child, and nobody needs to know
where that gap ends. What has been placed did not overrun (`Node.not_overruns_of_place`), so
overrunning is the one thing that keeps a window from surviving its size.
-/

namespace BoxLayout

namespace Node

variable {bounds slot : Rect} {p : Placed}

/-! ## What has been placed did not overrun -/

/-- If packing went through, the gap after the last child ends at an extent. -/
theorem end_le_of_placeItems_pack {style : StackStyle} {gap pos : Int} {items : List (Item Node)}
    {placed : List (Option Placed)} (hpos : pos ≤ Extent.inf)
    (h : placeItems items (style.pack bounds gap pos (measuredSizes items)) = .ok placed) :
    pos + List.sum ((items.filter (·.node.isLive)).map
      (·.measured.along style.axis + gap)) ≤ Extent.inf := by
  induction items generalizing pos placed with
  | nil => simpa using hpos
  | cons item rest ih =>
    rw [measuredSizes_cons] at h
    rw [List.filter_cons]
    by_cases hl : item.node.isLive = true
    · rw [if_pos hl, StackStyle.pack] at h
      obtain ⟨slot, -, h⟩ := exists_of_placeItems_after h
      obtain ⟨-, others, -, h, -⟩ := placeItems_some_eq_ok_iff.1 h
      obtain ⟨next, hnext, h⟩ := exists_of_placeItems_after h
      obtain ⟨length, hlength, hnext⟩ := bind_eq_ok_iff.1 hnext
      obtain ⟨-, rfl⟩ := Extent.add_eq_ok_iff.1 hlength
      obtain ⟨hrange, rfl⟩ := Extent.add_eq_ok_iff.1 hnext
      rw [if_pos hl, List.map_cons, List.sum_cons, ← Int.add_assoc]
      exact ih hrange.2 h
    · rw [if_neg hl, StackStyle.pack] at h
      obtain ⟨others, h, -⟩ := placeItems_none_eq_ok_iff.1 h
      rw [if_neg hl]
      exact ih hpos h

theorem exists_place_of_toList {items : List (Item Node)} {slots : Slots}
    {placed : List (Option Placed)} (h : placeItems items slots = .ok placed) {i : Nat}
    {item : Item Node} (hi : items[i]? = some item) (hs : slots.toList[i]? = some (some slot)) :
    ∃ q, item.node.place slot = .ok q := by
  induction items generalizing slots placed i with
  | nil => cases hi
  | cons head rest ih =>
    cases slots with
    | done | fault => cases hs
    | next first slots =>
      cases first with
      | none =>
        obtain ⟨others, h, -⟩ := placeItems_none_eq_ok_iff.1 h
        cases i with
        | zero => cases hs
        | succ i => exact ih h hi hs
      | some first =>
        obtain ⟨found, others, hf, h, -⟩ := placeItems_some_eq_ok_iff.1 h
        cases i with
        | zero => cases hi; cases hs; exact ⟨found, hf⟩
        | succ i => exact ih h hi hs

/-- If a node is placed, its children are placed in the slots that it has for them. -/
theorem Hands.exists_place {node child : Node} (hands : node.Hands bounds child slot)
    (h : node.place bounds = .ok p) : ∃ q, child.place slot = .ok q := by
  cases hands with
  | padding hs =>
    obtain ⟨inner, q, hi, hq, -⟩ := place_padding h
    cases hs.symm.trans hi
    exact ⟨q, hq⟩
  | align hs =>
    obtain ⟨inner, q, hi, hq, -⟩ := place_align h
    cases hs.symm.trans hi
    exact ⟨q, hq⟩
  | stack hi hl hs =>
    obtain ⟨placed, hp, -⟩ := place_stack h
    exact exists_place_of_toList hp hi hs
  | @table _ _ _ _ _ i _ hi hl hs =>
    obtain ⟨_, _, placed, -, -, -, hplaced, -⟩ := place_table h
    obtain ⟨slot', hs', hq⟩ := hplaced (some child, i) (List.mem_zipIdx_iff_getElem?.2 hi) hl
    cases hs.symm.trans hs'
    exact ⟨_, hq⟩

theorem isHomogeneous_of_spaceBetween {style : StackStyle} (h : style.justify = .spaceBetween) :
    style.isHomogeneous = false := by
  rw [StackStyle.isHomogeneous, h]
  rfl

theorem not_overruns_of_place {node : Node} (h : node.place bounds = .ok p) :
    ¬ node.Overruns bounds := by
  intro hover
  induction hover generalizing p with
  | here hjustify hcount hspacing hend =>
    obtain ⟨placed, hp, -⟩ := place_stack h
    have hslices := isHomogeneous_of_spaceBetween hjustify
    rw [StackStyle.slots, countP_measuredSizes, if_neg (by omega), hslices,
      if_neg Bool.false_ne_true, hspacing, Slots.after_ok] at hp
    obtain ⟨first, hfirst, hp⟩ := exists_of_placeItems_after hp
    obtain ⟨hrange, rfl⟩ := Extent.add_eq_ok_iff.1 hfirst
    exact Int.not_le.2 hend (end_le_of_placeItems_pack hrange.2 hp)
  | deeper hands _ ih =>
    obtain ⟨q, hq⟩ := hands.exists_place h
    exact ih hq

/-! ## The stacks that overrun -/

theorem Hands.visitedAt {node child : Node} (hands : node.Hands bounds child slot) :
    ∃ i, node.visitedAt i = some child := by
  cases hands with
  | padding | align => exact ⟨0, rfl⟩
  | stack hi hl => exact ⟨_, visitedAt_stack_eq_some_iff.2 ⟨_, hi, hl, rfl⟩⟩
  | table hi hl => exact ⟨_, visitedAt_table_eq_some_iff.2 ⟨hi, hl⟩⟩

/-- The node is a stack that puts the room between its children, of which several take part. -/
def SpacesOut : Node → Prop
  | stack _ style _ items => style.justify = .spaceBetween ∧ 1 < liveCount items
  | leaf .. | padding .. | align .. | table .. => False

/-- What overruns reaches a stack that spaces its children out. -/
theorem Overruns.exists_reachedAt {node : Node} (h : node.Overruns bounds) :
    ∃ path below, node.reachedAt path = some below ∧ below.SpacesOut := by
  induction h with
  | here hjustify hcount => exact ⟨[], _, rfl, hjustify, hcount⟩
  | deeper hands _ ih =>
    obtain ⟨i, hi⟩ := hands.visitedAt
    obtain ⟨path, below, hp, hb⟩ := ih
    exact ⟨i :: path, below, by rw [reachedAt, hi]; exact hp, hb⟩

theorem ReachEqual.spacesOut {a b : Node} (h : a.ReachEqual b) (ha : a.SpacesOut) :
    b.SpacesOut := by
  cases a with
  | stack frame style totals items =>
    cases b with
    | stack frame' style' totals' items' =>
      rw [ReachEqual, retain, retain, retainItems_eq, retainItems_eq] at h
      obtain ⟨-, rfl, -, hitems⟩ := Node.stack.inj h
      have hcount := congrArg liveCount hitems
      rw [liveCount_map_retainItem, liveCount_map_retainItem] at hcount
      exact ⟨ha.1, hcount ▸ ha.2⟩
    | leaf | padding | align | table => cases h
  | leaf | padding | align | table => cases ha

end Node

namespace Window

open Node

/-- A firm tree is laid out in every client area that has room for what the tree needs, and is tidy
then, unless it overruns there once it has been measured. That takes a client area of more than half
the greatest extent and a stack that spaces its children out, and the layout overflows. -/
theorem resize_of_enough_room {window : Window} {width height : Nat}
    (firm : window.root.AllReached IsFirm)
    (hroom : ∀ axis, ∃ need, window.root.minExtent axis Extent.inf = .ok need ∧
      need ≤ (clientSize width height).along axis) (level : LogLevel) :
    ∃ m, window.root.measure (.exactly (clientSize width height)) = .ok m ∧
      m.size = clientSize width height ∧
      (¬ m.node.Overruns (.atOrigin (clientSize width height)) →
        ∃ next resized, window.resize level width height = .ok (next, resized) ∧
          resized.answer = clientSize width height ∧
          next.root.bounds = .atOrigin (clientSize width height) ∧
          next.root.AllReached IsTidy) ∧
      (m.node.Overruns (.atOrigin (clientSize width height)) →
        window.resize level width height = .error .overflow ∧
          (∃ axis, Extent.inf < 2 * (clientSize width height).along axis) ∧
          ∃ path node, window.root.reachedAt path = some node ∧ node.SpacesOut) := by
  generalize hsize : clientSize width height = size at *
  have hlt (axis : Axis) : size.along axis < Extent.inf := by
    rw [← hsize]
    cases axis <;> simp only [clientSize, Size.along] <;> omega
  obtain ⟨m, hm, hanswer, hfits, hnonneg⟩ := measure_of_enough_room firm hlt hroom
  have hproper : (Rect.atOrigin size).IsProper := fun axis => by
    rw [Rect.start_atOrigin, Rect.far_atOrigin]
    exact ⟨Int.le_refl 0, hnonneg axis, hlt axis⟩
  have houtcome := hfits.arranges (.atOrigin size) rfl hproper
  refine ⟨m, hm, hanswer, fun hover => ?_, fun hover => ?_⟩
  · obtain ⟨placed, hp, hb, htidy, -⟩ := houtcome.eq_ok fun _ hcause => hover hcause.2.1
    have hfit : window.root.fit size = .ok ⟨placed.node, m.size, m.visit, placed.visit⟩ :=
      bind_eq_ok_iff.2 ⟨m, hm, bind_eq_ok_iff.2 ⟨placed, hp, rfl⟩⟩
    rw [resize, hsize, hfit]
    exact ⟨_, _, rfl, hanswer, hb, htidy⟩
  · cases hp : m.node.place (.atOrigin size) with
    | ok placed => exact absurd hover (not_overruns_of_place hp)
    | error fault =>
      obtain ⟨rfl, -, hclose⟩ := (hp ▸ houtcome).of_error
      have hfit : window.root.fit size = .error .overflow := by
        rw [fit, hm]
        show (m.node.place (.atOrigin size) >>= _) = _
        rw [hp]
        rfl
      refine ⟨by rw [resize, hsize, hfit]; rfl, ?_, ?_⟩
      · obtain ⟨axis, haxis⟩ := Classical.not_forall.1 hclose
        rw [Rect.start_atOrigin, Rect.far_atOrigin] at haxis
        exact ⟨axis, Int.not_le.1 fun hle => haxis ⟨Int.le_refl 0, hnonneg axis, hle⟩⟩
      · obtain ⟨path, below, hb, hout⟩ := hover.exists_reachedAt
        obtain ⟨node, hn, hsame⟩ := (reachEqual_of_measure hm).symm.reachedAt_eq_some hb
        exact ⟨path, node, hn, hsame.spacesOut hout⟩

theorem isFirm_spacer_zero : (ofLeaf (.spacer ⟨0, 0⟩)).AllReached IsFirm :=
  allReached_leaf.2 (Leaf.isNatural_spacer (by decide))

/-- Two children without extent in a row that spaces them out: the first one goes to the left edge,
the second one to the right edge, and a third one would be out of reach. -/
theorem resize_row_eq_overflow :
    let row := stackOf { axis := .horizontal, justify := .spaceBetween }
      [(ofLeaf (.spacer ⟨0, 0⟩), 0), (ofLeaf (.spacer ⟨0, 0⟩), 0)]
    row.AllReached IsFirm ∧ (∀ axis, row.minExtent axis Extent.inf = .ok 0) ∧
      clientSize 2147483647 10 = ⟨Extent.inf - 1, 10⟩ ∧
      Window.resize { root := row } .off 2147483647 10 = .error .overflow := by
  refine ⟨allReached_stack.2 ⟨⟨by decide, by decide⟩, ?_⟩, fun axis => by cases axis <;> rfl, rfl,
    rfl⟩
  exact List.forall_mem_cons.2 ⟨fun _ => isFirm_spacer_zero,
    List.forall_mem_singleton.2 fun _ => isFirm_spacer_zero⟩

/-- Three of them have room in two thirds of the greatest extent. -/
theorem resize_row_eq :
    let row := stackOf { axis := .horizontal, justify := .spaceBetween }
      [(ofLeaf (.spacer ⟨0, 0⟩), 0), (ofLeaf (.spacer ⟨0, 0⟩), 0), (ofLeaf (.spacer ⟨0, 0⟩), 0)]
    ∃ next resized, Window.resize { root := row } .off 1431655765 10 = .ok (next, resized) ∧
      resized.answer = ⟨1431655765, 10⟩ ∧ next.root.AllReached IsTidy := by
  intro row
  have firm : row.AllReached IsFirm := allReached_stack.2 ⟨⟨by decide, by decide⟩,
    List.forall_mem_cons.2 ⟨fun _ => isFirm_spacer_zero, List.forall_mem_cons.2
      ⟨fun _ => isFirm_spacer_zero, List.forall_mem_singleton.2 fun _ => isFirm_spacer_zero⟩⟩⟩
  obtain ⟨m, hm, -, hfits, -⟩ := @resize_of_enough_room { root := row } 1431655765 10 firm
    (fun axis => ⟨0, by cases axis <;> rfl, by cases axis <;> decide⟩) .off
  obtain ⟨p, hp⟩ : ∃ p, (do
      let m ← row.measure (.exactly (clientSize 1431655765 10))
      m.node.place (.atOrigin (clientSize 1431655765 10))) = .ok p := ⟨_, rfl⟩
  obtain ⟨m', hm', hp⟩ := bind_eq_ok_iff.1 hp
  cases hm.symm.trans hm'
  obtain ⟨next, resized, hr, hanswer, -, htidy⟩ := hfits (not_overruns_of_place hp)
  exact ⟨next, resized, hr, hanswer, htidy⟩

end Window

end BoxLayout
