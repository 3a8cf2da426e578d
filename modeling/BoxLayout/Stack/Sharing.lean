import BoxLayout.Constraints.Derive
import BoxLayout.Style

/-!
# How a stack measures its children

A stack first offers every child the same constraints (`StackStyle.offer`). If some children have a
weight and there is room to spare, those are measured again: each with the extent it chose and its
proportional share of the room (`StackStyle.enlarge`). The shares are rounded down, so a few pixels
may stay unused.
-/

namespace BoxLayout

/-- The greatest sum of weights. -/
def maxFlex : Nat := 4294967295

/-- The sum of weights. -/
def sumFlex : List Nat → Nat
  | [] => 0
  | flex :: rest => flex + sumFlex rest

namespace StackStyle

/-- The sum of the weights of a stack's children; homogeneous stacks ignore weights. -/
def totalFlex (style : StackStyle) (weights : List Nat) : Except Fault Nat :=
  if style.isHomogeneous then .ok 0
  else if sumFlex weights ≤ maxFlex then .ok (sumFlex weights)
  else .error .overflow

/-- Stretched children fill an extent that the stack's own constraints do not bound. -/
def needsBreadth (style : StackStyle) (given : Constraints) : Bool :=
  style.align == .stretch && !(given.along style.axis.flip).isBounded

/-- The constraints offered along the axis: an equal slice of a bounded homogeneous stack, and
otherwise no bound. -/
def offerMain (style : StackStyle) (given : Constraints) (count : Nat) :
    Except Fault Constraints :=
  let greatest := (given.along style.axis).hi
  if style.isHomogeneous ∧ greatest ≠ Extent.inf then do
    (given.loosenAlong style.axis).tightenAlong style.axis (← Extent.scale greatest 1 count)
  else return given.unbindAlong style.axis

/-- The constraints offered to each of `count` children. Stretched ones are held to `breadth`
across the axis, others may be smaller than the stack. -/
def offer (style : StackStyle) (given : Constraints) (count : Nat) (breadth : Int) :
    Except Fault Constraints := do
  let main ← style.offerMain given count
  if style.align = .stretch then main.tightenAlong style.axis.flip breadth
  else return main.loosenAlong style.axis.flip

/-- The extents along `axis` of the children that were measured. -/
def extentsAlong (axis : Axis) (sizes : List (Option Size)) : List Int :=
  sizes.filterMap fun size => size.map (·.along axis)

/-- The room that children of total extent `total` leave: up to the upper limit if it is finite
and not reached, else up to the lower limit. -/
def spare (main : Limits) (total : Int) : Except Fault Int := do
  let bound :=
    if main.hi ≠ Extent.inf ∧ total < main.hi then main.hi
    else if total < main.lo then main.lo
    else 0
  return max (← Extent.sub bound total) 0

/-- The room to share among children of the given sizes, nothing if none of them has a weight. -/
def extra (style : StackStyle) (given : Constraints) (totalFlex : Nat)
    (sizes : List (Option Size)) : Except Fault Int :=
  if totalFlex = 0 then .ok 0
  else spare (given.along style.axis) (Extent.total (extentsAlong style.axis sizes))

/-- The constraints for a second measuring of a child that chose `old` along the axis: as offered,
but with its share of the room added. -/
def enlarge (style : StackStyle) (offer : Constraints) (extra : Int) (totalFlex flex : Nat)
    (old : Int) : Except Fault Constraints := do
  let share ← Extent.scale extra flex totalFlex
  offer.tightenAlong style.axis (← Extent.add old share)

/-- The constraints for a second measuring of every child that shares in the room, for children
with the given weights and sizes. -/
def secondOffers (style : StackStyle) (offer : Constraints) (extra : Int) (totalFlex : Nat)
    (children : List (Nat × Option Size)) : Except Fault (List (Option Constraints)) :=
  children.mapM fun (flex, size) =>
    match size with
    | none => return none
    | some size =>
      if 0 < extra ∧ 0 < flex then
        return some (← style.enlarge offer extra totalFlex flex (size.along style.axis))
      else return none

/-- The total extent once a child has changed its extent from `old` to `new`. -/
def replaceIn (total : Int) : Int × Int → Except Fault Int
  | (old, new) => return Extent.saturatingAdd (← Extent.sub total old) new

/-- The total extent along the axis of children that chose `first`, and then `second` where they
were measured again. -/
def extentOf (style : StackStyle) (first second : List (Option Size)) : Except Fault Int :=
  let changes := (first.zip second).filterMap fun
    | (some old, some new) => some (old.along style.axis, new.along style.axis)
    | _ => none
  changes.foldlM replaceIn (Extent.total (extentsAlong style.axis first))

/-- The extent across the axis of a stack whose children were offered `offer` and chose `first` and
`second`: what was offered if they are stretched, else the greatest that any of them chose. -/
def breadthOf (style : StackStyle) (offer : Constraints) (first second : List (Option Size)) :
    Int :=
  let across := style.axis.flip
  if style.align = .stretch then (offer.along across).hi
  else (extentsAlong across (first ++ second)).foldl max 0

/-! ## Least extents -/

/-- The extent that each of `count` children has along the axis when the stack has `main`. -/
def slice (style : StackStyle) (main : Int) (count : Nat) : Except Fault Int :=
  if style.isHomogeneous then Extent.scale main 1 (max count 1) else .ok Extent.inf

/-- The least extent along the axis of children with the given least extents. Where all of them get
the same, their number enters as an extent does, through its low 32 bits. -/
def minMain (style : StackStyle) (extents : List Int) : Int :=
  if style.isHomogeneous then
    Extent.saturatingMul (Extent.largest extents) (Extent.wrap extents.length)
  else Extent.total extents

theorem totalFlex_eq_ok_iff {style : StackStyle} {weights : List Nat} {flex : Nat} :
    style.totalFlex weights = .ok flex ↔
      (style.isHomogeneous = true ∧ flex = 0) ∨
        (style.isHomogeneous = false ∧ sumFlex weights ≤ maxFlex ∧ flex = sumFlex weights) := by
  unfold totalFlex
  cases style.isHomogeneous with
  | true => simp [eq_comm]
  | false => by_cases h : sumFlex weights ≤ maxFlex <;> simp [h, eq_comm]

end StackStyle

end BoxLayout
