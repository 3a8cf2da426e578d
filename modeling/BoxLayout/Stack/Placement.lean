import BoxLayout.Stack.Slots
import BoxLayout.Style

/-!
# Where a stack puts its children

Along its axis a stack packs its children one after the other (`pack`), with the room that is left
before and between them as its style says (`Justify.spacing`), or cuts its box into equal slices
(`cut`). Across the axis each child is aligned by itself (`CrossAlign.span`).
-/

namespace BoxLayout

/-- The room before the first child and between neighbours. -/
structure Spacing where
  lead : Int
  gap : Int
  deriving DecidableEq, Repr

/-- Children packed from the start without gaps. -/
def Spacing.none : Spacing := ⟨0, 0⟩

/-- What becomes of the room `extra` that `count` children leave. A single child has no neighbour,
so that `spaceBetween` centres it. -/
def Justify.spacing (justify : Justify) (extra : Int) (count : Nat) : Except Fault Spacing :=
  match justify with
  | .start | .homogeneous => return .none
  | .center => return ⟨extra.tdiv 2, 0⟩
  | .stop => return ⟨extra, 0⟩
  | .spaceAround => do
    let gap ← Extent.scale extra 1 (count + 1)
    return ⟨gap, gap⟩
  | .spaceBetween =>
    if count ≤ 1 then return ⟨extra.tdiv 2, 0⟩
    else return ⟨0, ← Extent.scale extra 1 (count - 1)⟩

/-- A stretch of one axis. -/
structure Span where
  start : Int
  length : Int
  deriving DecidableEq, Repr

/-- Where a child of extent `size` lies across the axis of a stack that spans `whole` there. -/
def CrossAlign.span (align : CrossAlign) (whole : Span) (size : Int) : Except Fault Span :=
  match align with
  | .start => return ⟨whole.start, size⟩
  | .center => do
    let room ← Extent.sub whole.length size
    return ⟨← Extent.add whole.start (room.tdiv 2), size⟩
  | .stop => do
    let stop ← Extent.add whole.start whole.length
    return ⟨← Extent.sub stop size, size⟩
  | .stretch => return whole

/-- What a stack recalls of its last measuring: the sum of the weights and the total extent. -/
structure StackTotals where
  flex : Nat
  extent : Int
  deriving DecidableEq, Repr

/-- The totals of a stack that holds nothing. -/
def StackTotals.zero : StackTotals := ⟨0, 0⟩

instance : Inhabited StackTotals := ⟨.zero⟩

namespace StackStyle

variable (style : StackStyle) (bounds : Rect)

/-- The slot of a child of the given size that spans `main` along the axis. -/
def slot (main : Span) (size : Size) : Except Fault Rect := do
  let across := style.axis.flip
  let cross ← style.align.span ⟨bounds.start across, bounds.extent across⟩ (size.along across)
  return .ofAxis style.axis main.start cross.start main.length cross.length

/-- Slots one after the other from `pos` on, for children of the given sizes. -/
def pack (gap : Int) (pos : Int) : List (Option Size) → Slots
  | [] => .done
  | none :: rest => .next none (pack gap pos rest)
  | some size :: rest =>
    let length := size.along style.axis
    .after (style.slot bounds ⟨pos, length⟩ size) fun slot =>
      .next (some slot) (.after (do Extent.add pos (← Extent.add length gap)) fun pos =>
        pack gap pos rest)

/-- The bounds of slice `index` of `count` equal slices. -/
def sliceSpan (count index : Nat) : Except Fault Span := do
  let start := bounds.start style.axis
  let extent := bounds.extent style.axis
  let first ← Extent.add start (← Extent.scale extent index count)
  let last ← Extent.add start (← Extent.scale extent (index + 1) count)
  return ⟨first, ← Extent.sub last first⟩

/-- Slots that are the slices from `index` on of `count` equal slices. -/
def cut (count index : Nat) : List (Option Size) → Slots
  | [] => .done
  | none :: rest => .next none (cut count index rest)
  | some size :: rest =>
    .after (do style.slot bounds (← style.sliceSpan bounds count index) size) fun slot =>
      .next (some slot) (cut count (index + 1) rest)

/-- The spacing of `count` children: none if flexible children have taken the room already, or if
the children leave none. -/
def spacing (totals : StackTotals) (count : Nat) : Except Fault Spacing := do
  let extra := max (← Extent.sub (bounds.extent style.axis) totals.extent) 0
  if totals.flex > 0 ∨ extra = 0 then return .none
  else style.justify.spacing extra count

/-- The slots of children of the given sizes in `bounds`; a child without a size takes no part. -/
def slots (totals : StackTotals) (children : List (Option Size)) : Slots :=
  let count := children.countP Option.isSome
  if count = 0 then .done
  else if style.isHomogeneous then style.cut bounds count 0 children
  else
    .after (style.spacing bounds totals count) fun spacing =>
      .after (Extent.add (bounds.start style.axis) spacing.lead) fun pos =>
        style.pack bounds spacing.gap pos children

end StackStyle

end BoxLayout
