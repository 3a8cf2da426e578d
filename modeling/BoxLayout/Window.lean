import BoxLayout.Fit

/-!
# Windows

A window owns a tree and lays it out anew whenever its client area changes. A client area may be
larger than any finite extent and is cut back to the greatest one.

* `isFinite_clientSize`: the size laid out for is always finite.
-/

namespace BoxLayout

/-- A client area and the tree that fills it. -/
structure Window where
  root : Node
  /-- Every layout is to be traced. -/
  trace : Bool := false

/-- What the layout for a new client area answers, logs and reports to observers. -/
structure Resized where
  answer : Size
  records : List Record
  reports : List (String × Rect)

namespace Window

/-- The size to lay out for in a client area. -/
def clientSize (width height : Nat) : Size :=
  ⟨min (width : Int) (Extent.inf - 1), min (height : Int) (Extent.inf - 1)⟩

/-- Lays the tree out for a new client area. -/
def resize (window : Window) (level : LogLevel) (width height : Nat) :
    Except Fault (Window × Resized) := do
  let size := clientSize width height
  let fitted ← window.root.fit size
  let (journal, records) := Journal.followFit level { trace := window.trace } fitted
  let summary : List Record :=
    if level.wantsDebug then [.relaid size journal.calls fitted.answer] else []
  return ({ window with root := fitted.node },
    ⟨fitted.answer, records ++ summary, fitted.placing.reports⟩)

theorem isFinite_clientSize (width height : Nat) : (clientSize width height).isFinite = true := by
  simp only [Size.isFinite, clientSize, Extent.inf, Bool.and_eq_true, bne_iff_ne]
  omega

end Window

end BoxLayout
