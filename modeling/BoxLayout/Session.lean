import BoxLayout.Fit
import BoxLayout.Node.Edit
import BoxLayout.Node.MinExtent
import BoxLayout.Node.Outline
import BoxLayout.Node.Path

/-!
# Sessions

A session is a tree with a journal that lives on from pass to pass. Every operation works on the
node at the end of a path; if it fails the session stays as it was, with two exceptions: `move` has
taken the node out of its stack when it finds no place for it, and `setTableSize` has given a table
its dimensions when it finds no room for the cells.
-/

namespace BoxLayout

/-- A tree, the journal of its layout passes and the level of its log. -/
structure Session where
  root : Node
  journal : Journal := {}
  level : LogLevel := .off

/-- What a pass over a part of the tree answers: the node as it is then, the size that it chose if
it was measured, the records written and the reports to observers. -/
structure Pass where
  node : Node
  answer : Option Size
  records : List Record
  reports : List (String × Rect)

namespace Session

/-- Records are written. -/
def isTracing (session : Session) : Bool := session.journal.isTracing session.level

/-- Starts a new journal. -/
def startJournal (session : Session) (trace : Bool) : Session :=
  { session with journal := { trace } }

def setLevel (session : Session) (level : LogLevel) : Session := { session with level }

/-- The node at a path. -/
def find (session : Session) (path : Path) : Except Fault Node := session.root.find path

/-- Changes the node at a path. -/
def modify {α : Type} (session : Session) (path : Path)
    (change : Node → Except Fault (Node × α)) : Except Fault (Session × α) := do
  let (root, result) ← session.root.modify change path
  return ({ session with root }, result)

/-- Changes the node at a path; the result is that node as it is then. -/
def edit (session : Session) (path : Path) (change : Node → Except Fault Node) :
    Except Fault (Session × Node) :=
  session.modify path fun node => do
    let new ← change node
    return (new, new)

/-- Measures the node at a path. -/
def measure (session : Session) (path : Path) (given : Constraints) :
    Except Fault (Session × Pass) := do
  let (session, measured) ← session.modify path fun node => do
    let measured ← node.measure given
    return (measured.node, measured)
  let (journal, records) := session.journal.followMeasuring session.level measured.visit
  return ({ session with journal }, ⟨measured.node, some measured.size, records, []⟩)

/-- Places the node at a path. -/
def place (session : Session) (path : Path) (bounds : Rect) : Except Fault (Session × Pass) := do
  let (session, placed) ← session.modify path fun node => do
    let placed ← node.place bounds
    return (placed.node, placed)
  let (journal, records) := session.journal.followPlacing session.level placed.visit
  return ({ session with journal }, ⟨placed.node, none, records, placed.visit.reports⟩)

/-- Lays out the node at a path. -/
def fit (session : Session) (path : Path) (size : Size) : Except Fault (Session × Pass) := do
  let (session, fitted) ← session.modify path fun node => do
    let fitted ← node.fit size
    return (fitted.node, fitted)
  let (journal, records) := session.journal.followFit session.level fitted
  return ({ session with journal },
    ⟨fitted.node, some fitted.answer, records, fitted.placing.reports⟩)

/-- Takes a child out of the stack at a path; the results are that child and what is left. -/
def remove (session : Session) (path : Path) (index : Nat) :
    Except Fault (Session × Node × Node) :=
  session.modify path fun node => do
    let (removed, rest) ← node.remove index
    return (rest, removed, rest)

/-- Sets the dimensions of the table at a path and makes its cells. The first result is the session,
in which the table may have dimensions and no cells. -/
def setTableSize (session : Session) (path : Path) (rows cols : Nat) :
    Session × Except Fault Node :=
  match session.edit path fun node => node.setTableSize rows cols with
  | .ok (session, table) => (session, .ok table)
  | .error fault =>
    -- a table without room for its cells has its dimensions all the same
    match session.edit path fun node => node.setDimensions rows cols with
    | .ok (session, _) => (session, .error fault)
    | .error _ => (session, .error fault)

/-- Moves a child of the stack at `source` to the end of the stack at `target`, a path in the tree
without it. The first result is the session, in which the child may be gone. -/
def move (session : Session) (source : Path) (index : Nat) (target : Path) (flex : Nat) :
    Session × Except Fault Node :=
  match session.remove source index with
  | .error fault => (session, .error fault)
  | .ok (session, removed, _) =>
    match session.edit target fun node => node.push removed flex with
    | .error fault => (session, .error fault)
    | .ok (session, stack) => (session, .ok stack)

end Session

end BoxLayout
