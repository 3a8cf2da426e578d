import BoxLayout.Node.Basic
import BoxLayout.Visit

/-!
# Placing

`Node.place` gives a tree its place. Containers hand out slots from the sizes that the last
measuring left in the tree, so a tree is to be measured first; only a table notices if it was not.
The result is the tree, which differs only in the places it records, and the visit: all calls, their
places, and who is told.

`placeItems_eq` and `placeCells_eq` describe the placing of a container's children without
recursion, for a stack when every child has a slot; `placeItems_done` is the case of a stack that
hands out none. Where the slots need not go through, `placeItems_none_eq_ok_iff` and
`placeItems_some_eq_ok_iff` say what a placing that gave a result did with the first child.
-/

namespace BoxLayout

/-- A placed tree and the calls that placed it. -/
structure Placed where
  node : Node
  visit : Visit Placing

namespace Placed

/-- The calls on the children that were placed. -/
def calls (children : List (Option Placed)) : List (Nat × Visit Placing) :=
  Visit.ofChildren (children.map fun child => child.map visit)

/-- A child of a stack after it was placed. -/
def settle (item : Item Node) : Option Placed → Item Node
  | none => item
  | some placed => { item with node := placed.node }

/-- A cell of a table after it was placed. -/
def settleCell (cell : Option Node) : Option Placed → Option Node
  | none => cell
  | some placed => some placed.node

end Placed

namespace Node

/-- Who is told when the node itself is placed. -/
def observer? : Node → Option String
  | leaf _ content => content.observer?
  | padding .. | align .. | stack .. | table .. => none

/-- The sizes of the children of a stack that take part. -/
def measuredSizes (items : List (Item Node)) : List (Option Size) :=
  items.map fun item => if item.node.isLive then some item.measured else none

mutual
/-- Places a tree. -/
def place (node : Node) (bounds : Rect) : Except Fault Placed :=
  let record : Frame → Frame := fun frame => { frame with bounds }
  (fun (placed, calls) => ⟨placed, .mk node.name ⟨bounds, node.observer?⟩ calls⟩) <$>
    show Except Fault (Node × List (Nat × Visit Placing)) from
    match node with
    | leaf frame content => return (leaf (record frame) (content.place bounds), [])
    | padding frame insets child => do
      let placed ← child.place (← bounds.inset insets)
      return (padding (record frame) insets placed.node, [(0, placed.visit)])
    | align frame alignment measured child => do
      let placed ← child.place (← alignment.slot bounds measured)
      return (align (record frame) alignment measured placed.node, [(0, placed.visit)])
    | stack frame style totals items => do
      let placed ← placeItems items (style.slots bounds totals (measuredSizes items))
      return (stack (record frame) style totals (List.zipWith Placed.settle items placed),
        Placed.calls placed)
    | table frame grid cells =>
      if grid.isMeasured then do
        let _ ← grid.stop .horizontal bounds.origin.x
        let lefts := grid.lines .horizontal bounds.origin.x
        let tops := grid.lines .vertical bounds.origin.y
        let placed ← placeCells (grid.slot lefts tops) 0 [] cells
        let _ ← grid.stop .vertical bounds.origin.y
        return (table (record frame) grid (List.zipWith Placed.settleCell cells placed),
          Placed.calls placed)
      else .error .notMeasured

/-- Places those children of a stack that have a slot. -/
def placeItems : List (Item Node) → Slots → Except Fault (List (Option Placed))
  | _, .fault fault => .error fault
  | _ :: rest, .next none slots => return none :: (← placeItems rest slots)
  | ⟨node, _, _⟩ :: rest, .next (some slot) slots =>
    return some (← node.place slot) :: (← placeItems rest slots)
  | _ :: rest, .done => return none :: (← placeItems rest .done)
  | [], _ => return []

/-- Places those cells of a table that take part, from cell `i` on, each in its slot. What was
placed before is `done`, the last one first. -/
def placeCells (slot : Nat → Except Fault Rect) (i : Nat) (done : List (Option Placed)) :
    List (Option Node) → Except Fault (List (Option Placed))
  | [] => return done.reverse
  | none :: rest => placeCells slot (i + 1) (none :: done) rest
  | some node :: rest =>
    if node.isLive then do
      let bounds ← slot i
      let placed ← node.place bounds
      placeCells slot (i + 1) (some placed :: done) rest
    else placeCells slot (i + 1) (none :: done) rest
end

theorem placeItems_done (items : List (Item Node)) :
    placeItems items .done = .ok (items.map fun _ => none) := by
  induction items with
  | nil => rfl
  | cons item rest ih => rw [placeItems, ih]; rfl

theorem placeItems_none_eq_ok_iff {item : Item Node} {rest : List (Item Node)} {slots : Slots}
    {placed : List (Option Placed)} :
    placeItems (item :: rest) (.next none slots) = .ok placed ↔
      ∃ others, placeItems rest slots = .ok others ∧ none :: others = placed := by
  rw [placeItems, bind_eq_ok_iff]
  exact exists_congr fun others => and_congr_right fun _ => iff_of_eq (Except.ok.injEq ..)

theorem placeItems_some_eq_ok_iff {item : Item Node} {rest : List (Item Node)} {slot : Rect}
    {slots : Slots} {placed : List (Option Placed)} :
    placeItems (item :: rest) (.next (some slot) slots) = .ok placed ↔
      ∃ found others, item.node.place slot = .ok found ∧ placeItems rest slots = .ok others ∧
        some found :: others = placed := by
  rw [placeItems, bind_eq_ok_iff]
  refine exists_congr fun found => ?_
  rw [bind_eq_ok_iff, ← exists_and_left]
  exact exists_congr fun others =>
    and_congr_right fun _ => and_congr_right fun _ => iff_of_eq (Except.ok.injEq ..)

theorem exists_of_placeItems_after {α : Type} {items : List (Item Node)} {result : Except Fault α}
    {rest : α → Slots} {placed : List (Option Placed)}
    (h : placeItems items (.after result rest) = .ok placed) :
    ∃ a, result = .ok a ∧ placeItems items (rest a) = .ok placed := by
  cases result with
  | ok a => exact ⟨a, rfl, h⟩
  | error fault => cases items <;> cases h

theorem placeItems_eq {items : List (Item Node)} {slots : Slots} (h : slots.fault? = none)
    (hl : slots.toList.length = items.length) :
    placeItems items slots =
      (items.zip slots.toList).mapM fun (item, slot) =>
        match slot with
        | none => .ok none
        | some slot => some <$> item.node.place slot := by
  induction items generalizing slots with
  | nil =>
    cases slots with
    | done => rfl
    | fault _ => cases h
    | next _ _ => cases hl
  | cons item rest ih =>
    match slots with
    | .done | .fault _ => cases hl
    | .next none slots =>
      have hrest := @ih slots h (Nat.succ.inj hl)
      rw [placeItems, hrest, Slots.toList, List.zip_cons_cons, List.mapM_cons]
      rfl
    | .next (some slot) slots =>
      have hrest := @ih slots h (Nat.succ.inj hl)
      rw [placeItems, hrest, Slots.toList, List.zip_cons_cons, List.mapM_cons]
      dsimp only
      cases item.node.place slot <;> rfl

/-- What placing a numbered cell gives. -/
def placeCell (slot : Nat → Except Fault Rect) : Option Node × Nat → Except Fault (Option Placed)
  | (none, _) => .ok none
  | (some node, i) =>
    if node.isLive then do
      let bounds ← slot i
      some <$> node.place bounds
    else .ok none

theorem placeCells_eq_append (slot : Nat → Except Fault Rect) (i : Nat)
    (done : List (Option Placed)) (cells : List (Option Node)) :
    placeCells slot i done cells =
      (done.reverse ++ ·) <$> (cells.zipIdx i).mapM (placeCell slot) := by
  induction cells generalizing i done with
  | nil => simp [placeCells]
  | cons cell rest ih =>
    rw [List.zipIdx_cons, List.mapM_cons]
    cases cell with
    | none => rw [placeCells, ih, map_reverse_cons, placeCell]; rfl
    | some node =>
      rw [placeCells, placeCell]
      split
      · cases slot i with
        | error _ => rfl
        | ok bounds =>
          show (node.place bounds >>= _) =
            (done.reverse ++ ·) <$> ((some <$> node.place bounds) >>= _)
          cases node.place bounds with
          | error _ => rfl
          | ok placed => exact (ih (i + 1) _).trans (map_reverse_cons ..)
      · rw [ih, map_reverse_cons]; rfl

theorem placeCells_eq (slot : Nat → Except Fault Rect) (cells : List (Option Node)) :
    placeCells slot 0 [] cells = cells.zipIdx.mapM (placeCell slot) := by
  rw [placeCells_eq_append]
  simp

end Node

end BoxLayout
