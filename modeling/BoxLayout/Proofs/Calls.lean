import BoxLayout.Proofs.Runs

/-!
# The calls on a node

A pass may call a node several times. The calls of a pass on one node have its path in common: the
indices of the children that lead to it, which a visit keeps with every call. `Visit.trail` lists
all calls with their paths, in the order in which they were made, and `Visit.last?` finds the last
one at the end of a path. The nodes that a pass reaches are those at the ends of such paths
(`Node.reaches_iff`).
-/

namespace BoxLayout

namespace Visit

variable {α : Type}

mutual
/-- The calls in the order in which they were made, each with its path. -/
def trail : Visit α → List (List Nat × α)
  | mk _ event calls => ([], event) :: trailAll calls
/-- The calls of a list of visits. -/
def trailAll : List (Nat × Visit α) → List (List Nat × α)
  | [] => []
  | (i, visit) :: rest => visit.trail.map (Prod.map (i :: ·) id) ++ trailAll rest
end

/-- What happened in the last of the calls that have the given path. -/
def lastOf (trail : List (List Nat × α)) (path : List Nat) : Option α :=
  trail.reverse.findSome? fun call => if call.1 = path then some call.2 else none

/-- What happened in the last call at the end of a path. -/
def last? (visit : Visit α) (path : List Nat) : Option α := lastOf visit.trail path

/-- The trail is the list of events, with paths. -/
theorem map_snd_trail (visit : Visit α) : visit.trail.map Prod.snd = visit.events := by
  induction visit with
  | mk name event calls ih =>
    have hall : (trailAll calls).map Prod.snd = eventsAll calls := by
      induction calls with
      | nil => rfl
      | cons call rest irest =>
        rw [trailAll, eventsAll, List.map_append, List.map_map,
          irest fun call hc => ih call (List.mem_cons_of_mem _ hc), ← ih call List.mem_cons_self]
        rfl
    rw [trail, events, List.map_cons, hall]

/-! ## The last call -/

theorem lastOf_append (a b : List (List Nat × α)) (path : List Nat) :
    lastOf (a ++ b) path = (lastOf b path).or (lastOf a path) := by
  rw [lastOf, List.reverse_append, List.findSome?_append]
  rfl

theorem lastOf_cons (call : List Nat × α) (rest : List (List Nat × α)) (path : List Nat) :
    lastOf (call :: rest) path =
      (lastOf rest path).or (if call.1 = path then some call.2 else none) := by
  rw [← List.singleton_append, lastOf_append]
  congr 1
  simp [lastOf]

theorem lastOf_below_nil (i : Nat) (trail : List (List Nat × α)) :
    lastOf (trail.map (Prod.map (i :: ·) id)) [] = none := by
  induction trail with
  | nil => rfl
  | cons call rest ih =>
    rw [List.map_cons, lastOf_cons, ih]
    rfl

theorem lastOf_below_cons (i j : Nat) (trail : List (List Nat × α)) (path : List Nat) :
    lastOf (trail.map (Prod.map (i :: ·) id)) (j :: path) =
      if i = j then lastOf trail path else none := by
  induction trail with
  | nil => simp [lastOf]
  | cons call rest ih =>
    rw [List.map_cons, lastOf_cons, ih]
    by_cases hj : i = j
    · simp [hj, lastOf_cons]
    · simp [hj]

theorem trailAll_append (a b : List (Nat × Visit α)) :
    trailAll (a ++ b) = trailAll a ++ trailAll b := by
  induction a with
  | nil => rfl
  | cons call rest ih => rw [List.cons_append, trailAll, trailAll, ih, List.append_assoc]

theorem lastOf_trailAll_nil (calls : List (Nat × Visit α)) : lastOf (trailAll calls) [] = none := by
  induction calls with
  | nil => rfl
  | cons call rest ih => rw [trailAll, lastOf_append, ih, lastOf_below_nil]; rfl

/-- The last call on the node itself is the only one. -/
theorem last?_nil (visit : Visit α) : visit.last? [] = some visit.event := by
  cases visit with
  | mk name event calls => rw [last?, trail, lastOf_cons, lastOf_trailAll_nil]; rfl

theorem last?_cons (visit : Visit α) (i : Nat) (path : List Nat) :
    visit.last? (i :: path) = lastOf (trailAll visit.calls) (i :: path) := by
  cases visit with
  | mk name event calls =>
    rw [last?, trail, lastOf_cons, if_neg nofun, Option.or_none]
    rfl

theorem lastOf_singleton (i : Nat) (visit : Visit α) (path : List Nat) :
    lastOf (trailAll [(i, visit)]) (i :: path) = visit.last? path := by
  rw [trailAll, lastOf_append, lastOf_below_cons, if_pos rfl]
  rfl

theorem lastOf_zipIdx (visits : List (Option (Visit α))) (k i : Nat) (path : List Nat) :
    lastOf (trailAll ((visits.zipIdx k).filterMap fun (visit, i) => visit.map (i, ·))) (i :: path) =
      if k ≤ i then visits[i - k]?.join.bind (·.last? path) else none := by
  induction visits generalizing k with
  | nil => simp [trailAll, lastOf]
  | cons visit rest ih =>
    rw [List.zipIdx_cons, List.filterMap_cons]
    rcases Nat.lt_trichotomy i k with hlt | rfl | hgt
    · -- the index lies before all of these calls
      have hrest : ¬ k + 1 ≤ i := by omega
      cases visit with
      | none => simp only [Option.map_none]; rw [ih, if_neg hrest, if_neg (by omega)]
      | some visit =>
        simp only [Option.map_some, trailAll]
        rw [lastOf_append, ih, if_neg hrest, lastOf_below_cons, if_neg (by omega),
          if_neg (by omega)]
        rfl
    · have hrest : ¬ i + 1 ≤ i := by omega
      cases visit with
      | none => simp only [Option.map_none]; rw [ih, if_neg hrest]; simp
      | some visit =>
        simp only [Option.map_some, trailAll]
        rw [lastOf_append, ih, if_neg hrest, lastOf_below_cons, if_pos rfl]
        simp [last?]
    · have hsub : i - k = (i - (k + 1)) + 1 := by omega
      rw [if_pos (by omega), hsub, List.getElem?_cons_succ]
      cases visit with
      | none => simp only [Option.map_none]; rw [ih, if_pos (by omega)]
      | some visit =>
        simp only [Option.map_some, trailAll]
        rw [lastOf_append, ih, if_pos (by omega), lastOf_below_cons, if_neg (by omega),
          Option.or_none]

/-- A container that calls each of its children at most once calls this one with its index. -/
theorem lastOf_ofChildren (visits : List (Option (Visit α))) (i : Nat) (path : List Nat) :
    lastOf (trailAll (ofChildren visits)) (i :: path) =
      visits[i]?.join.bind (·.last? path) := by
  rw [ofChildren, lastOf_zipIdx, if_pos (Nat.zero_le i), Nat.sub_zero]

theorem mem_ofChildren {visits : List (Option (Visit α))} {i : Nat} {visit : Visit α} :
    (i, visit) ∈ ofChildren visits ↔ visits[i]? = some (some visit) := by
  simp only [ofChildren, List.mem_filterMap, Prod.exists, List.mem_zipIdx_iff_getElem?,
    Option.map_eq_some_iff, Prod.mk.injEq]
  constructor
  · rintro ⟨found, k, hk, visit', rfl, rfl, rfl⟩
    exact hk
  · intro h
    exact ⟨some visit, i, h, visit, rfl, rfl, rfl⟩

theorem mem_events_of_mem_calls {visit : Visit α} {call : Nat × Visit α} (hc : call ∈ visit.calls)
    {event : α} (he : event ∈ call.2.events) : event ∈ visit.events := by
  cases visit with
  | mk name event calls =>
    rw [events, eventsAll_eq]
    exact List.mem_cons_of_mem _ (List.mem_flatMap.2 ⟨call, hc, he⟩)

theorem event_mem_events (visit : Visit α) : visit.event ∈ visit.events := by
  cases visit with
  | mk name event calls => exact List.mem_cons_self

end Visit

namespace Measured

variable {α : Type} {p : α → Bool} {f : α → Measured} {xs : List α} {i : Nat} {x : α}

theorem mem_calls_pick (hi : xs[i]? = some x) (hp : p x = true) :
    (i, (f x).visit) ∈ calls (pick p f xs) := by
  rw [calls, Visit.mem_ofChildren, map_pick, pick, List.getElem?_map, hi]
  simp [hp]

theorem lastOf_calls_pick (hi : xs[i]? = some x) (path : List Nat) :
    Visit.lastOf (Visit.trailAll (calls (pick p f xs))) (i :: path) =
      if p x then (f x).visit.last? path else none := by
  rw [calls, Visit.lastOf_ofChildren, map_pick, pick, List.getElem?_map, hi]
  by_cases hp : p x = true <;> simp [hp]

end Measured

namespace Node

/-- The child that is called by an index in a pass. -/
def visitedAt (node : Node) (i : Nat) : Option Node :=
  match node with
  | leaf .. => none
  | padding _ _ child | align _ _ _ child => if i = 0 then some child else none
  | stack _ _ _ items => (items[i]?.map (·.node)).filter isLive
  | table _ _ cells => cells[i]?.join.filter isLive

/-- The node at the end of a path of children that are called in a pass. -/
def reachedAt (root : Node) : List Nat → Option Node
  | [] => some root
  | i :: path => (root.visitedAt i).bind fun child => child.reachedAt path

theorem visitedAt_stack_eq_some_iff {frame : Frame} {style : StackStyle} {totals : StackTotals}
    {items : List (Item Node)} {i : Nat} {child : Node} :
    (stack frame style totals items).visitedAt i = some child ↔
      ∃ item, items[i]? = some item ∧ item.node.isLive = true ∧ item.node = child := by
  rw [visitedAt, Option.filter_eq_some_iff, Option.map_eq_some_iff]
  constructor
  · rintro ⟨⟨item, hi, rfl⟩, hl⟩
    exact ⟨item, hi, hl, rfl⟩
  · rintro ⟨item, hi, hl, rfl⟩
    exact ⟨⟨item, hi, rfl⟩, hl⟩

theorem visitedAt_table_eq_some_iff {frame : Frame} {grid : Grid} {cells : List (Option Node)}
    {i : Nat} {child : Node} : (table frame grid cells).visitedAt i = some child ↔
      cells[i]? = some (some child) ∧ child.isLive = true := by
  rw [visitedAt, Option.filter_eq_some_iff, Option.join_eq_some_iff]

/-- The children that a pass calls, if what becomes of them still takes part. -/
theorem visitedAt_settled {frame frame' : Frame} {grid grid' : Grid} {cells : List (Option Node)}
    {f : Option Node × Nat → Node}
    (h : ∀ cell ∈ cells.zipIdx, isLiveCell cell = true → (f cell).isLive = true) (i : Nat) :
    (table frame' grid' (cells.zipIdx.map fun cell =>
        if isLiveCell cell then some (f cell) else cell.1)).visitedAt i =
      ((table frame grid cells).visitedAt i).map fun child => f (some child, i) := by
  rw [visitedAt, visitedAt, List.getElem?_map, List.getElem?_zipIdx, Nat.zero_add]
  cases hi : cells[i]? with
  | none => rfl
  | some cell =>
    have hmem : (cell, i) ∈ cells.zipIdx := List.mem_zipIdx_iff_getElem?.2 hi
    simp only [Option.map_some, Option.join_some]
    by_cases hl : isLiveCell (cell, i) = true
    · obtain ⟨hcell, -, hchild⟩ := exists_of_isLiveCell hmem hl
      rw [if_pos hl, Option.filter_some_pos (h _ hmem hl), show cell = some _ from hcell,
        Option.filter_some_pos hchild]
      rfl
    · rw [if_neg hl]
      cases cell with
      | none => rfl
      | some child =>
        rw [Option.filter_some_neg (show child.isLive = false from eq_false_of_ne_true hl)]
        rfl

theorem mem_visited_iff {node child : Node} :
    child ∈ node.visited ↔ ∃ i, node.visitedAt i = some child := by
  cases node with
  | leaf frame content => simp [visited, visitedAt]
  | padding frame insets below => simp [visited, visitedAt, eq_comm]
  | align frame alignment measured below => simp [visited, visitedAt, eq_comm]
  | stack frame style totals items =>
    rw [mem_visited_stack]
    simp only [visitedAt_stack_eq_some_iff]
    constructor
    · rintro ⟨item, hi, hl⟩
      obtain ⟨i, hi⟩ := List.mem_iff_getElem?.1 hi
      exact ⟨i, item, hi, hl⟩
    · rintro ⟨i, item, hi, hl⟩
      exact ⟨item, List.mem_of_getElem? hi, hl⟩
  | table frame grid cells =>
    rw [mem_visited_table]
    simp only [visitedAt_table_eq_some_iff]
    constructor
    · rintro ⟨hc, hl⟩
      obtain ⟨i, hi⟩ := List.mem_iff_getElem?.1 hc
      exact ⟨i, hi, hl⟩
    · rintro ⟨i, hi, hl⟩
      exact ⟨List.mem_of_getElem? hi, hl⟩

/-- The nodes reached are those at the ends of paths. -/
theorem reaches_iff {root node : Node} :
    root.Reaches node ↔ ∃ path, root.reachedAt path = some node := by
  constructor
  · intro h
    induction h with
    | refl node => exact ⟨[], rfl⟩
    | step hc _ ih =>
      obtain ⟨i, hi⟩ := mem_visited_iff.1 hc
      obtain ⟨path, hp⟩ := ih
      exact ⟨i :: path, by rw [reachedAt, hi]; exact hp⟩
  · rintro ⟨path, h⟩
    induction path generalizing root with
    | nil => cases h; exact .refl _
    | cons i path ih =>
      obtain ⟨child, hc, hp⟩ := Option.bind_eq_some_iff.1 h
      exact .step (mem_visited_iff.2 ⟨i, hc⟩) (ih hp)

end Node

end BoxLayout
