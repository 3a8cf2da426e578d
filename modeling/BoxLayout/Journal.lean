import BoxLayout.Record
import BoxLayout.Visit

/-!
# The journal of a layout

A journal counts measuring calls and keeps track of the depth in the tree; with its trace switch on
and a log that wants traces it writes a record for every call. It follows a visit after the fact:
what it counts and writes depends on the visit and has no influence on it.

* `depth_followMeasuring`, `depth_followPlacing`: a visit leaves the depth as it was.
* `calls_followMeasuring`, `calls_followPlacing`: every measuring call counts, and no placing one.
-/

namespace BoxLayout

/-- What is noted down during layout passes. -/
structure Journal where
  /-- Records are to be written for every call. -/
  trace : Bool := false
  /-- The depth of the node that is being visited. -/
  depth : Nat := 0
  /-- How many measuring calls there have been. -/
  calls : Nat := 0
  deriving DecidableEq, Repr, Inhabited

namespace Journal

/-- Records are in fact written. -/
def isTracing (journal : Journal) (level : LogLevel) : Bool := journal.trace && level.wantsTrace

/-- A record, if records are written. -/
def emit (journal : Journal) (level : LogLevel) (record : Record) : List Record :=
  if journal.isTracing level then [record] else []

/-- Goes down to the children of a node. -/
def descend (journal : Journal) : Journal := { journal with depth := journal.depth + 1 }

/-- Comes back up from the children of a node. -/
def ascend (journal : Journal) : Journal := { journal with depth := journal.depth - 1 }

/-- Counts a measuring call. -/
def count (journal : Journal) : Journal := { journal with calls := journal.calls + 1 }

mutual
/-- The journal after a measuring visit, and the records written on the way. -/
def followMeasuring (level : LogLevel) (journal : Journal) :
    Visit Measuring → Journal × List Record
  | .mk name event calls =>
    let opened := journal.emit level (.opened journal.depth name event.given)
    let inner := followMeasurings level journal.count.descend calls
    let after := inner.1.ascend
    (after, opened ++ inner.2 ++ after.emit level (.closed after.depth name event.answer))

/-- The same for the visits of the children of a node. -/
def followMeasurings (level : LogLevel) (journal : Journal) :
    List (Nat × Visit Measuring) → Journal × List Record
  | [] => (journal, [])
  | (_, visit) :: rest =>
    let first := followMeasuring level journal visit
    let others := followMeasurings level first.1 rest
    (others.1, first.2 ++ others.2)
end

mutual
/-- The journal after a placing visit, and the records written on the way. -/
def followPlacing (level : LogLevel) (journal : Journal) : Visit Placing → Journal × List Record
  | .mk name event calls =>
    let placed := journal.emit level (.placed journal.depth name event.bounds)
    let inner := followPlacings level journal.descend calls
    (inner.1.ascend, placed ++ inner.2)

/-- The same for the visits of the children of a node. -/
def followPlacings (level : LogLevel) (journal : Journal) :
    List (Nat × Visit Placing) → Journal × List Record
  | [] => (journal, [])
  | (_, visit) :: rest =>
    let first := followPlacing level journal visit
    let others := followPlacings level first.1 rest
    (others.1, first.2 ++ others.2)
end

/-! ## What a visit does to the journal -/

theorem fst_followMeasurings {level : LogLevel} {calls : List (Nat × Visit Measuring)}
    (ih : ∀ call ∈ calls, ∀ journal, (followMeasuring level journal call.2).1 =
      { journal with calls := journal.calls + call.2.size }) (journal : Journal) :
    (followMeasurings level journal calls).1 =
      { journal with calls := journal.calls + Visit.sizeAll calls } := by
  induction calls generalizing journal with
  | nil => rfl
  | cons call rest irest =>
    simp only [followMeasurings]
    rw [irest fun c hc => ih c (List.mem_cons_of_mem _ hc), ih call List.mem_cons_self]
    simp [Visit.sizeAll, Nat.add_assoc]

theorem fst_followMeasuring (level : LogLevel) (journal : Journal) (visit : Visit Measuring) :
    (followMeasuring level journal visit).1 =
      { journal with calls := journal.calls + visit.size } := by
  induction visit generalizing journal with
  | mk name event calls ih =>
    simp only [followMeasuring]
    rw [fst_followMeasurings fun call hc journal => ih call hc journal]
    simp [count, descend, ascend, Visit.size, Nat.add_assoc]

theorem fst_followPlacings {level : LogLevel} {calls : List (Nat × Visit Placing)}
    (ih : ∀ call ∈ calls, ∀ journal, (followPlacing level journal call.2).1 = journal)
    (journal : Journal) : (followPlacings level journal calls).1 = journal := by
  induction calls generalizing journal with
  | nil => rfl
  | cons call rest irest =>
    simp only [followPlacings]
    rw [irest fun c hc => ih c (List.mem_cons_of_mem _ hc), ih call List.mem_cons_self]

theorem fst_followPlacing (level : LogLevel) (journal : Journal) (visit : Visit Placing) :
    (followPlacing level journal visit).1 = journal := by
  induction visit generalizing journal with
  | mk name event calls ih =>
    simp only [followPlacing]
    rw [fst_followPlacings fun call hc journal => ih call hc journal]
    simp [descend, ascend]

theorem depth_followMeasuring (level : LogLevel) (journal : Journal) (visit : Visit Measuring) :
    (followMeasuring level journal visit).1.depth = journal.depth := by
  rw [fst_followMeasuring]

theorem calls_followMeasuring (level : LogLevel) (journal : Journal) (visit : Visit Measuring) :
    (followMeasuring level journal visit).1.calls = journal.calls + visit.size := by
  rw [fst_followMeasuring]

theorem depth_followPlacing (level : LogLevel) (journal : Journal) (visit : Visit Placing) :
    (followPlacing level journal visit).1.depth = journal.depth := by rw [fst_followPlacing]

theorem calls_followPlacing (level : LogLevel) (journal : Journal) (visit : Visit Placing) :
    (followPlacing level journal visit).1.calls = journal.calls := by rw [fst_followPlacing]

end Journal

end BoxLayout
