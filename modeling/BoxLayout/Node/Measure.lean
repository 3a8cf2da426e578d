import BoxLayout.Node.MinExtent
import BoxLayout.Visit

/-!
# Measuring

`Node.measure` asks a tree for its size under constraints. The answer comes with the tree as it is
afterwards, which differs only in what measuring finds out, and with the visit: all calls, their
constraints and answers.

A stack measures each child that takes part once, and again those that share in spare room; a table
measures each cell freely and then at the size of its slot. The second time starts from the child as
it was before the first, which is the same, since measuring finds everything out anew
(`Node.measure_of_measure` in `BoxLayout.Proofs.History`).

`measureItems_eq` and `measureCells_eq` describe the measuring of a container's children without
recursion.
-/

namespace BoxLayout

/-- A measured tree and the calls that measured it. -/
structure Measured where
  node : Node
  visit : Visit Measuring

/-- The size that the tree chose. -/
def Measured.size (measured : Measured) : Size := measured.visit.event.answer

namespace Measured

/-- The sizes of the children that were measured. -/
def sizes (children : List (Option Measured)) : List (Option Size) :=
  children.map fun child => child.map size

/-- The calls on the children that were measured. -/
def calls (children : List (Option Measured)) : List (Nat × Visit Measuring) :=
  Visit.ofChildren (children.map fun child => child.map visit)

/-- A child of a stack after it was measured. -/
def settle (item : Item Node) : Option Measured → Item Node
  | none => item
  | some measured => { item with node := measured.node, measured := measured.size }

/-- A cell of a table after it was measured. -/
def settleCell (cell : Option Node) : Option Measured → Option Node
  | none => cell
  | some measured => some measured.node

end Measured

namespace Node

/-- What measuring one node found out. -/
structure Finding where
  node : Node
  answer : Size
  calls : List (Nat × Visit Measuring)

/-- The measured node, which goes by `name` and was measured under `given`. -/
def Finding.measured (finding : Finding) (name : String) (given : Constraints) : Measured :=
  ⟨finding.node, .mk name ⟨given, finding.answer⟩ finding.calls⟩

/-- The extent across its axis that a stack makes its stretched children fill: its own upper limit,
or what the children need if that is unbounded. -/
def breadth (stack : Node) (style : StackStyle) (given : Constraints) : Except Fault Int :=
  if style.needsBreadth given then stack.minExtent style.axis.flip Extent.inf
  else .ok (given.along style.axis.flip).hi

/-- One offer for all children of a stack that take part. -/
def offerAll (offer : Constraints) (items : List (Item Node)) : List (Option Constraints) :=
  items.map fun item => if item.node.isLive then some offer else none

mutual
/-- Measures a tree under constraints, which must be normalized. -/
def measure (node : Node) (given : Constraints) : Except Fault Measured :=
  if given.isNormalized = false then .error (.notNormalized given)
  else (·.measured node.name given) <$> show Except Fault Finding from
    match node with
    | leaf frame content => do
      let answer ← content.measure given
      return ⟨leaf frame content, answer, []⟩
    | padding frame insets child => do
      let inner ← given.inset (← insets.total .horizontal) (← insets.total .vertical)
      let found ← child.measure inner
      let answer ← insets.around found.size
      return ⟨padding frame insets found.node, answer, [(0, found.visit)]⟩
    | align frame alignment _ child => do
      let found ← child.measure given.loosen
      let answer ← given.constrain (alignment.scaled found.size)
      return ⟨align frame alignment found.size found.node, answer, [(0, found.visit)]⟩
    | stack frame style _ items =>
      if liveCount items = 0 then do
        let answer ← given.constrain .zero
        return ⟨stack frame style .zero items, answer, []⟩
      else do
        let flex ← style.totalFlex ((items.filter (·.node.isLive)).map (·.flex))
        let offer ← style.offer given (liveCount items) (← node.breadth style given)
        let first ← measureItems items (offerAll offer items)
        let sizes := Measured.sizes first
        let extra ← style.extra given flex sizes
        let offers ← style.secondOffers offer extra flex ((items.map (·.flex)).zip sizes)
        let second ← measureItems items offers
        let extent ← style.extentOf sizes (Measured.sizes second)
        let breadth := style.breadthOf offer sizes (Measured.sizes second)
        let answer ← given.constrain (.ofAxis style.axis extent breadth)
        let last := List.zipWith (fun again once => again <|> once) second first
        return ⟨stack frame style ⟨flex, extent⟩ (List.zipWith Measured.settle items last), answer,
          Measured.calls first ++ Measured.calls second⟩
    | table frame grid cells =>
      if grid.hasTooManyTracks then .error .capacity
      else do
        let first ← measureCells (fun _ => .free) 0 [] cells
        let grid := grid.measured (Measured.sizes first)
        let second ← measureCells (fun i => .exactly (grid.slotSize i)) 0 [] cells
        let answer ← given.constrain grid.contentSize
        return ⟨table frame grid (List.zipWith Measured.settleCell cells second), answer,
          Measured.calls first ++ Measured.calls second⟩

/-- Measures those children of a stack that have an offer. -/
def measureItems :
    List (Item Node) → List (Option Constraints) → Except Fault (List (Option Measured))
  | _ :: rest, none :: offers => return none :: (← measureItems rest offers)
  | ⟨node, _, _⟩ :: rest, some given :: offers =>
    return some (← node.measure given) :: (← measureItems rest offers)
  | _, _ => return []

/-- Measures those cells of a table that take part, from cell `i` on, each under its offer. The
findings for the cells before are `done`, the last one first. -/
def measureCells (offer : Nat → Constraints) (i : Nat) (done : List (Option Measured)) :
    List (Option Node) → Except Fault (List (Option Measured))
  | [] => return done.reverse
  | none :: rest => measureCells offer (i + 1) (none :: done) rest
  | some node :: rest =>
    if node.isLive then do
      let measured ← node.measure (offer i)
      measureCells offer (i + 1) (some measured :: done) rest
    else measureCells offer (i + 1) (none :: done) rest
end

theorem measureItems_eq (items : List (Item Node)) (offers : List (Option Constraints)) :
    measureItems items offers =
      (items.zip offers).mapM fun (item, offer) =>
        match offer with
        | none => .ok none
        | some given => some <$> item.node.measure given := by
  induction items generalizing offers with
  | nil => cases offers <;> rfl
  | cons item rest ih =>
    match offers with
    | [] => rfl
    | none :: offers => rw [measureItems, ih, List.zip_cons_cons, List.mapM_cons]; rfl
    | some given :: offers =>
      rw [measureItems, ih, List.zip_cons_cons, List.mapM_cons]
      dsimp only
      cases item.node.measure given <;> rfl

/-- A child that is offered nothing is not measured. -/
example : Measured.sizes <$> measureItems
    [⟨ofLeaf (.spacer ⟨9, 9⟩), 0, .zero⟩, ⟨pad (.all 1) (ofLeaf (.spacer ⟨5, 2⟩)), 0, .zero⟩]
    [none, some (.upTo ⟨6, 6⟩)] = .ok [none, some ⟨6, 4⟩] := by cbv

/-- What measuring a numbered cell finds out. -/
def measureCell (offer : Nat → Constraints) : Option Node × Nat → Except Fault (Option Measured)
  | (none, _) => .ok none
  | (some node, i) => if node.isLive then some <$> node.measure (offer i) else .ok none

theorem measureCells_eq_append (offer : Nat → Constraints) (i : Nat)
    (done : List (Option Measured)) (cells : List (Option Node)) :
    measureCells offer i done cells =
      (done.reverse ++ ·) <$> (cells.zipIdx i).mapM (measureCell offer) := by
  induction cells generalizing i done with
  | nil => simp [measureCells]
  | cons cell rest ih =>
    rw [List.zipIdx_cons, List.mapM_cons]
    cases cell with
    | none => rw [measureCells, ih, map_reverse_cons, measureCell]; rfl
    | some node =>
      rw [measureCells, measureCell]
      split
      · cases node.measure (offer i) with
        | error _ => rfl
        | ok measured => exact (ih (i + 1) _).trans (map_reverse_cons ..)
      · rw [ih, map_reverse_cons]; rfl

theorem measureCells_eq (offer : Nat → Constraints) (cells : List (Option Node)) :
    measureCells offer 0 [] cells = cells.zipIdx.mapM (measureCell offer) := by
  rw [measureCells_eq_append]
  simp

end Node

end BoxLayout
