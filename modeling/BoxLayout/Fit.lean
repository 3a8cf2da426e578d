import BoxLayout.Journal
import BoxLayout.Node.Measure
import BoxLayout.Node.Place

/-!
# Fitting a tree to a size

One full layout: a tree is measured at exactly the given size and placed there, at the origin. Its
root may answer another size than it was asked for, and is placed in the given one all the same.
-/

namespace BoxLayout

/-- A tree after a full layout, and the calls of both passes. -/
structure Fitted where
  node : Node
  /-- The size that the root answered. -/
  answer : Size
  measuring : Visit Measuring
  placing : Visit Placing

/-- Lays a tree out at exactly `size`. -/
def Node.fit (node : Node) (size : Size) : Except Fault Fitted := do
  let measured ← node.measure (.exactly size)
  let placed ← measured.node.place (.atOrigin size)
  return ⟨placed.node, measured.size, measured.visit, placed.visit⟩

/-- The journal after a full layout, and the records written on the way. -/
def Journal.followFit (level : LogLevel) (journal : Journal) (fitted : Fitted) :
    Journal × List Record :=
  let measured := journal.followMeasuring level fitted.measuring
  let placed := measured.1.followPlacing level fitted.placing
  (placed.1, measured.2 ++ placed.2)

end BoxLayout
