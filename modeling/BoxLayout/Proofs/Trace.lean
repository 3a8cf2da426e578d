import BoxLayout.Proofs.Asked
import BoxLayout.Proofs.Erase.Basic
import BoxLayout.Proofs.Lines
import BoxLayout.Proofs.PlacedOnce
import BoxLayout.Session

/-!
# Traces

The records of a measuring are bracketed: those of the calls on children stand, in order and one
step further in, between the record for the start of a call and the one for its end
(`Visit.records`). Whoever reads them with a stack of open calls finds the tree of calls again
(`Visit.rebuild`), and reads nothing that is not so bracketed (`Visit.rebuild_eq_some_iff`); the
lines are as good as the records (`Visit.eq_of_lines_eq`). A placing writes one record for each node
that it reaches, in preorder (`Node.records_followPlacing`). Whether records are written has no
influence on anything else (`Session.outcome_measure`, `Session.outcome_place`).
-/

namespace BoxLayout

theorem eq_of_map_eq {α β : Type} {f : α → β} {P : α → Prop}
    (hf : ∀ a b, P a → P b → f a = f b → a = b) {xs ys : List α} (hx : ∀ x ∈ xs, P x)
    (hy : ∀ y ∈ ys, P y) (h : xs.map f = ys.map f) : xs = ys := by
  induction xs generalizing ys with
  | nil => rw [List.map_nil] at h; exact (List.map_eq_nil_iff.1 h.symm).symm
  | cons x xs ih =>
    cases ys with
    | nil => cases h
    | cons y ys =>
      obtain ⟨hhead, htail⟩ := List.cons.inj h
      obtain ⟨hx, hxs⟩ := List.forall_mem_cons.1 hx
      obtain ⟨hy, hys⟩ := List.forall_mem_cons.1 hy
      rw [hf x y hx hy hhead, ih hxs hys htail]

namespace Record

/-- The record is about the start of a measuring. -/
def isOpened : Record → Bool
  | opened .. => true
  | closed .. | placed .. | relaid .. => false

end Record

namespace Visit

/-! ## The records of a measuring -/

mutual
/-- The records of a measuring of a node at `depth`. -/
def records (depth : Nat) : Visit Measuring → List Record
  | mk name event calls =>
    .opened depth name event.given ::
      (recordsAll (depth + 1) calls ++ [.closed depth name event.answer])

/-- The records of measurings at `depth`, one after the other. -/
def recordsAll (depth : Nat) : List (Nat × Visit Measuring) → List Record
  | [] => []
  | (_, visit) :: rest => visit.records depth ++ recordsAll depth rest
end

theorem recordsAll_append (depth : Nat) (a b : List (Nat × Visit Measuring)) :
    recordsAll depth (a ++ b) = recordsAll depth a ++ recordsAll depth b := by
  induction a with
  | nil => rfl
  | cons call rest ih => rw [List.cons_append, recordsAll, recordsAll, ih, List.append_assoc]

theorem recordsAll_eq (depth : Nat) (calls : List (Nat × Visit Measuring)) :
    recordsAll depth calls = calls.flatMap fun call => call.2.records depth := by
  induction calls with
  | nil => rfl
  | cons call rest ih => rw [recordsAll, ih, List.flatMap_cons]

/-- There is a record for the start of each call. -/
theorem countP_isOpened_records (visit : Visit Measuring) (depth : Nat) :
    (visit.records depth).countP Record.isOpened = visit.size := by
  induction visit generalizing depth with
  | mk name event calls ih =>
    have hall : (recordsAll (depth + 1) calls).countP Record.isOpened = sizeAll calls := by
      induction calls with
      | nil => rfl
      | cons call rest irest =>
        rw [recordsAll, sizeAll, List.countP_append, ih call List.mem_cons_self,
          irest fun c hc => ih c (List.mem_cons_of_mem _ hc)]
    rw [records, List.countP_cons, List.countP_append, hall, size]
    simp [Record.isOpened, Nat.add_comm]

/-! ## Reading a trace -/

/-- What has been read of a trace: complete calls, and around them the calls that have not ended. -/
inductive Reading where
  | outermost (calls : List (Nat × Visit Measuring))
  | inside (outer : Reading) (name : String) (given : Constraints)
    (calls : List (Nat × Visit Measuring))

namespace Reading

/-- How many calls have not ended. -/
def depth : Reading → Nat
  | outermost _ => 0
  | inside outer _ _ _ => outer.depth + 1

/-- The reading with one more call. -/
def add (visit : Visit Measuring) : Reading → Reading
  | outermost calls => outermost (calls ++ [(0, visit)])
  | inside outer name given calls => inside outer name given (calls ++ [(0, visit)])

/-- Reads one more record of a trace whose first record stands at depth `base`. A start opens a call
one step further in and an end ends the last call that is open, which must have the same name. -/
def read (base : Nat) : Reading → Record → Option Reading
  | reading, .opened depth name given =>
    if depth = base + reading.depth then some (inside reading name given []) else none
  | inside outer name given calls, .closed depth name' answer =>
    if depth = base + outer.depth ∧ name' = name then
      some (outer.add (.mk name ⟨given, answer⟩ calls))
    else none
  | _, _ => none

/-- The records that were read. -/
def written (base : Nat) : Reading → List Record
  | outermost calls => recordsAll base calls
  | inside outer name given calls =>
    outer.written base ++ .opened (base + outer.depth) name given ::
      recordsAll (base + outer.depth + 1) calls

@[simp] theorem depth_add (visit : Visit Measuring) (reading : Reading) :
    (reading.add visit).depth = reading.depth := by cases reading <;> rfl

theorem written_add (base : Nat) (visit : Visit Measuring) (reading : Reading) :
    (reading.add visit).written base =
      reading.written base ++ visit.records (base + reading.depth) := by
  cases reading with
  | outermost calls => simp [add, written, depth, recordsAll_append, recordsAll]
  | inside outer name given calls =>
    simp [add, written, depth, recordsAll_append, recordsAll, Nat.add_assoc]

/-- Reading a record adds that record to those that were read. -/
theorem written_read {base : Nat} {reading next : Reading} {record : Record}
    (h : reading.read base record = some next) :
    next.written base = reading.written base ++ [record] := by
  unfold read at h
  split at h
  · split at h
    · rename_i hdepth
      cases h
      rw [written, hdepth, recordsAll]
    · cases h
  · split at h
    · rename_i hsame
      obtain ⟨rfl, rfl⟩ := hsame
      cases h
      simp [written_add, written, records]
    · cases h
  · cases h

/-- Nothing is skipped on the way. -/
theorem written_foldlM {base : Nat} {records : List Record} {reading next : Reading}
    (h : records.foldlM (read base) reading = some next) :
    next.written base = reading.written base ++ records := by
  induction records generalizing reading with
  | nil => cases h; simp
  | cons record rest ih =>
    rw [List.foldlM_cons] at h
    obtain ⟨middle, hm, h⟩ := Option.bind_eq_some_iff.1 h
    rw [ih h, written_read hm, List.append_assoc, List.singleton_append]

/-- The records of calls at the depth of a reading are read as these calls. -/
theorem foldlM_recordsAll (base : Nat) {calls : List (Nat × Visit Measuring)}
    (ih : ∀ call ∈ calls, ∀ reading : Reading,
      (call.2.records (base + reading.depth)).foldlM (read base) reading =
        some (reading.add call.2.bare)) (reading : Reading) :
    (recordsAll (base + reading.depth) calls).foldlM (read base) reading =
      some (calls.foldl (fun reading call => reading.add call.2.bare) reading) := by
  induction calls generalizing reading with
  | nil => rfl
  | cons call rest irest =>
    obtain ⟨hcall, hrest⟩ := List.forall_mem_cons.1 ih
    rw [recordsAll, List.foldlM_append, hcall, List.foldl_cons, Option.bind_eq_bind,
      Option.bind_some, ← irest hrest, depth_add]

theorem foldl_add_inside (outer : Reading) (name : String) (given : Constraints)
    (done calls : List (Nat × Visit Measuring)) :
    calls.foldl (fun reading call => reading.add call.2.bare) (inside outer name given done) =
      inside outer name given (done ++ bareAll calls) := by
  induction calls generalizing done with
  | nil => simp [bareAll]
  | cons call rest ih =>
    rw [List.foldl_cons, add, ih, bareAll, List.append_assoc, List.singleton_append]

/-- The records of a call are read as this call, whatever was read before. -/
theorem foldlM_records (base : Nat) (visit : Visit Measuring) (reading : Reading) :
    (visit.records (base + reading.depth)).foldlM (read base) reading =
      some (reading.add visit.bare) := by
  induction visit generalizing reading with
  | mk name event calls ih =>
    have hall := foldlM_recordsAll base ih (inside reading name event.given [])
    rw [foldl_add_inside] at hall
    have hopen : reading.read base (.opened (base + reading.depth) name event.given) =
        some (inside reading name event.given []) := by rw [read, if_pos rfl]
    have hclose : (inside reading name event.given (bareAll calls)).read base
        (.closed (base + reading.depth) name event.answer) =
          some (reading.add (mk name event calls).bare) := by rw [read, if_pos ⟨rfl, rfl⟩]; rfl
    rw [records, List.foldlM_cons, hopen, Option.bind_eq_bind, Option.bind_some,
      List.foldlM_append]
    exact Option.bind_eq_some_iff.2 ⟨_, hall, by simpa using hclose⟩

end Reading

/-- The tree of calls whose measuring wrote the records. -/
def rebuild (records : List Record) : Option (Visit Measuring) := do
  let first ← records.head?
  match ← records.foldlM (Reading.read first.depth) (.outermost []) with
  | .outermost [(_, visit)] => return visit
  | _ => none

theorem head?_records (visit : Visit Measuring) (depth : Nat) :
    (visit.records depth).head? = some (.opened depth visit.name visit.event.given) := by
  cases visit; rfl

theorem rebuild_records (visit : Visit Measuring) (depth : Nat) :
    rebuild (visit.records depth) = some visit.bare := by
  have hread := Reading.foldlM_records depth visit (.outermost [])
  rw [rebuild, head?_records, Option.bind_eq_bind, Option.bind_some]
  exact Option.bind_eq_some_iff.2 ⟨_, hread, rfl⟩

/-- Only the records of a measuring are read as one. -/
theorem rebuild_eq_some_iff {records : List Record} {visit : Visit Measuring} :
    rebuild records = some visit ↔ visit.bare = visit ∧ ∃ depth, records = visit.records depth := by
  constructor
  · intro h
    have h' := h
    obtain ⟨first, -, h⟩ := Option.bind_eq_some_iff.1 h
    obtain ⟨reading, hread, h⟩ := Option.bind_eq_some_iff.1 h
    split at h
    · rename_i i found
      cases h
      -- the records are those of what was read, and read as such they give `found.bare`
      have hwritten := Reading.written_foldlM hread
      simp only [Reading.written, recordsAll, List.append_nil, List.nil_append] at hwritten
      rw [← hwritten, rebuild_records] at h'
      exact ⟨Option.some.inj h', _, hwritten.symm⟩
    · cases h
  · rintro ⟨hbare, depth, rfl⟩
    rw [rebuild_records, hbare]

/-! ## The lines of a measuring -/

/-- All nodes that were called go by words. -/
inductive IsNamed {α : Type} : Visit α → Prop
  | mk {name : String} {event : α} {calls : List (Nat × Visit α)} : IsWord name →
      (∀ call ∈ calls, IsNamed call.2) → IsNamed (.mk name event calls)

theorem isWord_of_mem_records {visit : Visit Measuring} (h : visit.IsNamed) {depth : Nat} :
    ∀ record ∈ visit.records depth, IsWord record.name := by
  induction h generalizing depth with
  | mk hname hcalls ih =>
    intro record hr
    rw [records, List.mem_cons, List.mem_append, List.mem_singleton, recordsAll_eq,
      List.mem_flatMap] at hr
    rcases hr with rfl | ⟨call, hc, hr⟩ | rfl
    · exact hname
    · exact ih call hc record hr
    · exact hname

/-- What is written of two measurings differs if the calls do. -/
theorem eq_of_lines_eq {a b : Visit Measuring} (ha : a.IsNamed) (hb : b.IsNamed) {m n : Nat}
    (h : (a.records m).map Record.text = (b.records n).map Record.text) :
    m = n ∧ a.bare = b.bare := by
  have hrecords : a.records m = b.records n :=
    eq_of_map_eq (fun _ _ => Record.eq_of_text_eq) (isWord_of_mem_records ha)
      (isWord_of_mem_records hb) h
  have hhead := congrArg List.head? hrecords
  have hrebuilt := congrArg rebuild hrecords
  rw [head?_records, head?_records, Option.some.injEq, Record.opened.injEq] at hhead
  rw [rebuild_records, rebuild_records, Option.some.injEq] at hrebuilt
  exact ⟨hhead.1, hrebuilt⟩

end Visit

namespace Node

theorem isNamed_of_measure {node : Node} {given : Constraints} {m : Measured}
    (h : node.measure given = .ok m) : m.visit.IsNamed := by
  generalize hv : m.visit = visit
  induction visit generalizing node given m with
  | mk name event calls ih =>
    have hvisit := visit_of_measure h
    rw [hv] at hvisit
    cases hvisit
    refine .mk (isWord_name node) fun call hc => ?_
    obtain ⟨child, given, q, -, hq, hcall⟩ := (asks_of_measure h).of_mem_calls call (hv ▸ hc)
    exact ih call hc hq hcall

end Node

/-! ## What the journal writes -/

namespace Journal

variable {level : LogLevel}

theorem records_followMeasurings {calls : List (Nat × Visit Measuring)}
    (ih : ∀ call ∈ calls, ∀ journal, (followMeasuring level journal call.2).2 =
      if journal.isTracing level then call.2.records journal.depth else []) (journal : Journal) :
    (followMeasurings level journal calls).2 =
      if journal.isTracing level then Visit.recordsAll journal.depth calls else [] := by
  induction calls generalizing journal with
  | nil => exact (ite_self _).symm
  | cons call rest irest =>
    obtain ⟨hcall, hrest⟩ := List.forall_mem_cons.1 ih
    have hothers := irest hrest (followMeasuring level journal call.2).1
    rw [fst_followMeasuring] at hothers
    rw [followMeasurings, hcall, fst_followMeasuring, hothers, Visit.recordsAll]
    by_cases ht : (journal.trace && level.wantsTrace) = true <;> simp [isTracing, ht]

/-- A measuring writes its records, if any are written. -/
theorem records_followMeasuring (level : LogLevel) (journal : Journal) (visit : Visit Measuring) :
    (followMeasuring level journal visit).2 =
      if journal.isTracing level then visit.records journal.depth else [] := by
  induction visit generalizing journal with
  | mk name event calls ih =>
    have hafter : (followMeasurings level journal.count.descend calls).1.ascend =
        { journal with calls := journal.calls + (1 + Visit.sizeAll calls) } :=
      fst_followMeasuring level journal (.mk name event calls)
    have hinner := records_followMeasurings ih journal.count.descend
    rw [followMeasuring, Visit.records]
    simp only [hafter, hinner]
    by_cases ht : (journal.trace && level.wantsTrace) = true <;>
      simp [emit, isTracing, count, descend, ht]

theorem records_followPlacings (level : LogLevel) (journal : Journal)
    (calls : List (Nat × Visit Placing)) : (followPlacings level journal calls).2 =
      calls.flatMap fun call => (followPlacing level journal call.2).2 := by
  induction calls with
  | nil => rfl
  | cons call rest ih => rw [followPlacings, fst_followPlacing, ih, List.flatMap_cons]

end Journal

/-- A placing writes a record for each node that it reaches, in preorder, if any are written. -/
theorem Node.records_followPlacing {root : Node} {bounds : Rect} {p : Placed}
    (hp : root.place bounds = .ok p) (level : LogLevel) (journal : Journal) :
    (journal.followPlacing level p.visit).2 =
      if journal.isTracing level then
        p.node.preorder.map fun call =>
          .placed (journal.depth + call.1.length) call.2.name call.2.bounds
      else [] := by
  induction root using visited_induct generalizing bounds p journal with
  | step root ih =>
    obtain ⟨put, h⟩ := exists_puts hp
    -- below a child the paths are one step longer, as the depth is one step greater
    have hbelow (call : Nat × Node) (hc : call ∈ root.callees) :
        (journal.descend.followPlacing level (put call.1).visit).2 =
          if journal.isTracing level then
            (put call.1).node.preorder.map fun below =>
              .placed (journal.depth + (below.1.length + 1)) below.2.name below.2.bounds
          else [] := by
      obtain ⟨slot, hq⟩ := h.placed _ _ (mem_callees.1 hc)
      rw [ih call.2 (mem_visited_iff.2 ⟨_, mem_callees.1 hc⟩) hq]
      simp [Journal.descend, Journal.isTracing, Nat.add_assoc, Nat.add_comm 1]
    have hname := (reachEqual_of_place hp).name
    have hbounds := bounds_of_place hp
    rw [visit_of_place hp, Journal.followPlacing, Journal.records_followPlacings, preorder_eq,
      h.calls, h.callees hp, List.map_cons, List.flatMap_map, List.flatMap_map, List.map_flatMap,
      List.flatMap_congr hbelow, hname, hbounds]
    by_cases ht : journal.isTracing level = true
    · simp [Journal.emit, ht, List.map_map, Function.comp_def]
    · simp [Journal.emit, ht]

/-! ## Sessions -/

theorem Node.exists_of_modify {α : Type} {change : Node → Except Fault (Node × α)} {node : Node}
    {path : Path} {result : Node × α} (h : node.modify change path = .ok result) :
    ∃ child new, node.find path = .ok child ∧ change child = .ok (new, result.2) := by
  induction path generalizing node result with
  | nil => exact ⟨node, result.1, rfl, h⟩
  | cons hop path ih =>
    obtain ⟨below, hbelow, h⟩ := bind_eq_ok_iff.1 h
    obtain ⟨changed, hchanged, h⟩ := bind_eq_ok_iff.1 h
    obtain ⟨child, new, hfind, hchange⟩ := ih hchanged
    cases h
    exact ⟨child, new, bind_eq_ok_iff.2 ⟨below, hbelow, hfind⟩, hchange⟩

namespace Session

variable {session next : Session} {path : Path} {pass : Pass}

theorem measure_eq (session : Session) (path : Path) (given : Constraints) :
    session.measure path given = (fun result : Node × Measured =>
        let (journal, records) := session.journal.followMeasuring session.level result.2.visit
        ({ session with root := result.1, journal },
          ⟨result.2.node, some result.2.size, records, []⟩)) <$>
      session.root.modify (fun node => (fun m : Measured => (m.node, m)) <$> node.measure given)
        path := by
  have hchange (node : Node) : ((fun m : Measured => (m.node, m)) <$> node.measure given) =
      (do let m ← node.measure given; return (m.node, m)) := rfl
  simp only [hchange]
  unfold measure modify
  cases session.root.modify _ path <;> rfl

theorem place_eq (session : Session) (path : Path) (bounds : Rect) :
    session.place path bounds = (fun result : Node × Placed =>
        let (journal, records) := session.journal.followPlacing session.level result.2.visit
        ({ session with root := result.1, journal },
          ⟨result.2.node, none, records, result.2.visit.reports⟩)) <$>
      session.root.modify (fun node => (fun p : Placed => (p.node, p)) <$> node.place bounds)
        path := by
  have hchange (node : Node) : ((fun p : Placed => (p.node, p)) <$> node.place bounds) =
      (do let p ← node.place bounds; return (p.node, p)) := rfl
  simp only [hchange]
  unfold place modify
  cases session.root.modify _ path <;> rfl

theorem exists_of_measure {given : Constraints}
    (h : session.measure path given = .ok (next, pass)) : ∃ node m,
      session.find path = .ok node ∧ node.measure given = .ok m ∧
      (next.journal, pass.records) = session.journal.followMeasuring session.level m.visit := by
  rw [measure_eq] at h
  obtain ⟨result, hr, h⟩ := map_eq_ok_iff.1 h
  obtain ⟨node, new, hfind, hm⟩ := Node.exists_of_modify hr
  obtain ⟨m, hm, hresult⟩ := map_eq_ok_iff.1 hm
  obtain ⟨-, hresult⟩ := Prod.mk.inj hresult
  cases h
  exact ⟨node, m, hfind, hm, by rw [hresult]⟩

theorem exists_of_place {bounds : Rect} (h : session.place path bounds = .ok (next, pass)) :
    ∃ node p, session.find path = .ok node ∧ node.place bounds = .ok p ∧ pass.node = p.node ∧
      (next.journal, pass.records) = session.journal.followPlacing session.level p.visit := by
  rw [place_eq] at h
  obtain ⟨result, hr, h⟩ := map_eq_ok_iff.1 h
  obtain ⟨node, new, hfind, hp⟩ := Node.exists_of_modify hr
  obtain ⟨p, hp, hresult⟩ := map_eq_ok_iff.1 hp
  obtain ⟨-, hresult⟩ := Prod.mk.inj hresult
  cases h
  exact ⟨node, p, hfind, hp, by rw [hresult], by rw [hresult]⟩

/-- The session with another switch for traces and another level of its log. -/
def withTrace (session : Session) (trace : Bool) (level : LogLevel) : Session :=
  { session with journal := { session.journal with trace }, level }

/-- What a pass leaves behind and answers, without the records: the tree, the count of calls and the
depth, and then the node, its answer and the reports. -/
def outcome (result : Session × Pass) :
    Node × Nat × Nat × Node × Option Size × List (String × Rect) :=
  (result.1.root, result.1.journal.calls, result.1.journal.depth, result.2.node, result.2.answer,
    result.2.reports)

theorem outcome_measure (session : Session) (path : Path) (given : Constraints) (trace : Bool)
    (level : LogLevel) : outcome <$> (session.withTrace trace level).measure path given =
      outcome <$> session.measure path given := by
  rw [measure_eq, measure_eq, Functor.map_map, Functor.map_map]
  refine congrArg (· <$> _) (funext fun result => ?_)
  simp only [outcome, Journal.fst_followMeasuring]
  rfl

theorem outcome_place (session : Session) (path : Path) (bounds : Rect) (trace : Bool)
    (level : LogLevel) : outcome <$> (session.withTrace trace level).place path bounds =
      outcome <$> session.place path bounds := by
  rw [place_eq, place_eq, Functor.map_map, Functor.map_map]
  refine congrArg (· <$> _) (funext fun result => ?_)
  simp only [outcome, Journal.fst_followPlacing]
  rfl

/-- With its trace switch on and a log that wants traces, a measuring writes the bracketed records
of its calls, from which the calls can be found again, also if only the lines are known, and there
is a record of a start for each call that is counted; a placing writes a record for each node that
it reaches, in preorder. Otherwise no records are written. The depth is as it was in any case, and
nothing but the records depends on the switch and the log. -/
theorem trace_is_faithful (session : Session) (path : Path) :
    (∀ given next pass, session.measure path given = .ok (next, pass) →
      ∃ node m, session.find path = .ok node ∧ node.measure given = .ok m ∧
        next.journal = { session.journal with calls := session.journal.calls + m.visit.size } ∧
        (session.isTracing = false → pass.records = []) ∧
        (session.isTracing = true →
          pass.records = m.visit.records session.journal.depth ∧
          Visit.rebuild pass.records = some m.visit.bare ∧
          next.journal.calls = session.journal.calls + pass.records.countP Record.isOpened ∧
          ∀ (other : Node) (asked : Constraints) (m' : Measured) (depth : Nat),
            other.measure asked = .ok m' →
            (m'.visit.records depth).map Record.text = pass.records.map Record.text →
              depth = session.journal.depth ∧ m'.visit.bare = m.visit.bare)) ∧
    (∀ bounds next pass, session.place path bounds = .ok (next, pass) →
      ∃ node p, session.find path = .ok node ∧ node.place bounds = .ok p ∧
        p.visit.trail = pass.node.preorder.map (Prod.map id Node.placing) ∧
        next.journal = session.journal ∧
        (session.isTracing = false → pass.records = []) ∧
        (session.isTracing = true →
          pass.records = pass.node.preorder.map fun call =>
            .placed (session.journal.depth + call.1.length) call.2.name call.2.bounds)) ∧
    (∀ given trace level, outcome <$> (session.withTrace trace level).measure path given =
      outcome <$> session.measure path given) ∧
    ∀ bounds trace level, outcome <$> (session.withTrace trace level).place path bounds =
      outcome <$> session.place path bounds := by
  refine ⟨?_, ?_, session.outcome_measure path, session.outcome_place path⟩
  · intro given next pass h
    obtain ⟨node, m, hfind, hm, hfollow⟩ := exists_of_measure h
    obtain ⟨hjournal, hrecords⟩ := Prod.mk.inj hfollow
    rw [Journal.fst_followMeasuring] at hjournal
    rw [Journal.records_followMeasuring, ← isTracing] at hrecords
    refine ⟨node, m, hfind, hm, hjournal, fun ht => ?_, fun ht => ?_⟩
    · rw [hrecords, ht, if_neg Bool.false_ne_true]
    · rw [hrecords, hjournal, if_pos ht]
      refine ⟨rfl, Visit.rebuild_records _ _, ?_, fun other asked m' depth hm' hlines => ?_⟩
      · rw [Visit.countP_isOpened_records]
      · exact Visit.eq_of_lines_eq (Node.isNamed_of_measure hm') (Node.isNamed_of_measure hm) hlines
  · intro bounds next pass h
    obtain ⟨node, p, hfind, hp, hnode, hfollow⟩ := exists_of_place h
    obtain ⟨hjournal, hrecords⟩ := Prod.mk.inj hfollow
    rw [Journal.fst_followPlacing] at hjournal
    rw [Node.records_followPlacing hp, ← isTracing] at hrecords
    rw [hnode]
    refine ⟨node, p, hfind, hp, Node.trail_of_place hp, hjournal, fun ht => ?_, fun ht => ?_⟩
    · rw [hrecords, ht, if_neg Bool.false_ne_true]
    · rw [hrecords, if_pos ht]

/-- A row with a flexible canvas, which is measured twice, in a trace that is two steps deep. -/
theorem trace_is_faithful_for_row :
    let row := Node.stackOf { axis := .horizontal } [(.ofLeaf (.canvas ⟨4, 4⟩ .visible none), 1)]
    let session : Session := ⟨row, { trace := true, depth := 2, calls := 7 }, .trace⟩
    let records : List Record := [.opened 2 "HBox" (.exactly ⟨20, 8⟩),
      .opened 3 "Canvas" ⟨⟨0, Extent.inf⟩, ⟨0, 8⟩⟩, .closed 3 "Canvas" ⟨4, 4⟩,
      .opened 3 "Canvas" ⟨⟨20, 20⟩, ⟨0, 8⟩⟩, .closed 3 "Canvas" ⟨20, 4⟩,
      .closed 2 "HBox" ⟨20, 8⟩]
    let places : List Record :=
      [.placed 2 "HBox" ⟨⟨1, 2⟩, ⟨20, 8⟩⟩, .placed 3 "Canvas" ⟨⟨1, 2⟩, ⟨20, 4⟩⟩]
    ∃ next pass, session.measure [] (.exactly ⟨20, 8⟩) = .ok (next, pass) ∧
      pass.records = records ∧ next.journal.calls = 7 + 3 ∧
      (∃ m, row.measure (.exactly ⟨20, 8⟩) = .ok m ∧ Visit.rebuild records = some m.visit.bare) ∧
      ∃ last placed, next.place [] ⟨⟨1, 2⟩, ⟨20, 8⟩⟩ = .ok (last, placed) ∧
        placed.records = places ∧ last.journal = next.journal := by
  intro row session records places
  obtain ⟨⟨next, pass⟩, hpass, hfound⟩ := map_eq_ok_iff.1 (by decide +kernel :
    (fun result => (result.2.records, (fun last => last.2.records) <$>
        result.1.place [] ⟨⟨1, 2⟩, ⟨20, 8⟩⟩)) <$> session.measure [] (.exactly ⟨20, 8⟩) =
      .ok (records, .ok places))
  obtain ⟨hrecords, hplace⟩ := Prod.mk.inj hfound
  obtain ⟨⟨last, placed⟩, hlast, hplaces⟩ := map_eq_ok_iff.1 hplace
  obtain ⟨node, m, hfind, hm, -, -, htrace⟩ := (session.trace_is_faithful []).1 _ next pass hpass
  obtain ⟨-, hrebuild, hcalls, -⟩ := htrace rfl
  obtain ⟨-, -, -, -, -, hjournal, -⟩ := (next.trace_is_faithful []).2.1 _ last placed hlast
  cases hfind
  rw [hrecords] at hrebuild hcalls
  exact ⟨next, pass, hpass, hrecords, hcalls, ⟨m, hm, hrebuild⟩, last, placed, hlast, hplaces,
    hjournal⟩

end Session

end BoxLayout
