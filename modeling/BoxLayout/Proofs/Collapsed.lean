import BoxLayout.Proofs.Asked
import BoxLayout.Proofs.Erase.Place
import BoxLayout.Proofs.History
import BoxLayout.Proofs.PlacedOnce

/-!
# Collapsed children

A host measures, places and fits a tree as often as it likes (`Request`, `Node.serveAll`). In all of
it a collapsed child of a stack or a table takes no part (`collapsed_takes_no_part`): neither it nor
anything below it is called or changes, and another collapsed child in its place makes no difference
to what everything else is asked, answers and reports.

A padding and an alignment do not look at the visibility of their child. They measure and place a
collapsed one as they do any other (`called_in_padding`).
-/

namespace BoxLayout

/-- What a host asks of the root of a tree. -/
inductive Request where
  | measure (given : Constraints)
  | place (bounds : Rect)
  | fit (size : Size)

/-- What became of a request: the tree as it is then, the size that the root answered if it was
measured, and the calls on nodes, each with its path. -/
structure Served where
  node : Node
  answer : Option Size
  measurings : List (List Nat × Measuring)
  placings : List (List Nat × Placing)

namespace Served

/-- The paths of the nodes that were called. -/
def called (served : Served) : List (List Nat) :=
  served.measurings.map Prod.fst ++ served.placings.map Prod.fst

/-- The reports to observers. -/
def reports (served : Served) : List (String × Rect) :=
  served.placings.filterMap fun call => call.2.observer.map (·, call.2.bounds)

/-- The answer of the root, and the questions, answers, places and reports of all calls, in
order. -/
def seen (served : Served) : Option Size × List Measuring × List Placing :=
  (served.answer, served.measurings.map Prod.snd, served.placings.map Prod.snd)

end Served

namespace Node

/-- Does what is requested. -/
def serve (root : Node) : Request → Except Fault Served
  | .measure given => do
    let measured ← root.measure given
    return ⟨measured.node, some measured.size, measured.visit.trail, []⟩
  | .place bounds => do
    let placed ← root.place bounds
    return ⟨placed.node, none, [], placed.visit.trail⟩
  | .fit size => do
    let fitted ← root.fit size
    return ⟨fitted.node, some fitted.answer, fitted.measuring.trail, fitted.placing.trail⟩

/-- Serves one request after the other. -/
def serveAll (root : Node) : List Request → Except Fault (List Served)
  | [] => return []
  | request :: rest => do
    let served ← root.serve request
    return served :: (← served.node.serveAll rest)

variable {root other : Node} {path : List Nat}

/-! ## What is called and what changes -/

/-- A request to `root` calls the nodes that are reached, tells the observers among them, and
changes caches of these nodes only. -/
structure Serves (root : Node) (served : Served) : Prop where
  same : root.ReachEqual served.node
  mem_called : ∀ path, path ∈ served.called ↔ (root.reachedAt path).isSome
  observer : ∀ call ∈ served.placings, ∃ node, root.reachedAt call.1 = some node ∧
    node.observer? = call.2.observer

theorem observer_of_place {bounds : Rect} {p : Placed} (hp : root.place bounds = .ok p)
    {call : List Nat × Placing} (hc : call ∈ p.visit.trail) :
    ∃ node, root.reachedAt call.1 = some node ∧ node.observer? = call.2.observer := by
  rw [trail_of_place hp] at hc
  obtain ⟨below, hb, rfl⟩ := List.mem_map.1 hc
  obtain ⟨node, hn, hsame⟩ := (reachEqual_of_place hp).symm.reachedAt_eq_some (mem_preorder.1 hb)
  exact ⟨node, hn, hsame.observer?⟩

theorem ReachEqual.serves {next : Node} {served : Served} (h : root.ReachEqual next)
    (hs : next.Serves served) : root.Serves served where
  same := h.trans hs.same
  mem_called path := by rw [hs.mem_called, h.isSome_reachedAt]
  observer call hc := by
    obtain ⟨node, hn, hobserver⟩ := hs.observer call hc
    obtain ⟨node', hn', hsame⟩ := h.symm.reachedAt_eq_some hn
    exact ⟨node', hn', hsame.observer?.trans hobserver⟩

theorem serves_of_serve {request : Request} {served : Served}
    (h : root.serve request = .ok served) : root.Serves served := by
  cases request with
  | measure given =>
    obtain ⟨m, hm, h⟩ := bind_eq_ok_iff.1 h
    cases h
    refine ⟨reachEqual_of_measure hm, fun path => ?_, nofun⟩
    rw [Served.called, List.map_nil, List.append_nil]
    exact mem_trail_of_measure hm
  | place bounds =>
    obtain ⟨p, hp, h⟩ := bind_eq_ok_iff.1 h
    cases h
    exact ⟨reachEqual_of_place hp, fun path => mem_trail_of_place hp,
      fun call hc => observer_of_place hp hc⟩
  | fit size =>
    obtain ⟨fitted, hf, h⟩ := bind_eq_ok_iff.1 h
    cases h
    obtain ⟨m, hm, hf⟩ := bind_eq_ok_iff.1 hf
    obtain ⟨p, hp, hf⟩ := bind_eq_ok_iff.1 hf
    cases hf
    have hsame := reachEqual_of_measure hm
    refine ⟨hsame.trans (reachEqual_of_place hp), fun path => ?_, fun call hc => ?_⟩
    · rw [Served.called, List.mem_append, mem_trail_of_measure hm, mem_trail_of_place hp,
        hsame.isSome_reachedAt, or_self]
    · obtain ⟨node, hn, hobserver⟩ := observer_of_place hp hc
      obtain ⟨node', hn', hsame'⟩ := hsame.symm.reachedAt_eq_some hn
      exact ⟨node', hn', hsame'.observer?.trans hobserver⟩

/-- However many requests there are, they call the nodes that were reached at first. -/
theorem serves_of_serveAll {requests : List Request} {results : List Served}
    (h : root.serveAll requests = .ok results) : ∀ served ∈ results, root.Serves served := by
  induction requests generalizing root results with
  | nil => cases h; exact nofun
  | cons request rest ih =>
    obtain ⟨first, hfirst, h⟩ := bind_eq_ok_iff.1 h
    obtain ⟨others, hothers, h⟩ := bind_eq_ok_iff.1 h
    cases h
    have hserves := serves_of_serve hfirst
    exact List.forall_mem_cons.2
      ⟨hserves, fun served hs => hserves.same.serves (ih hothers served hs)⟩

/-! ## Two trees of which the same is left -/

theorem agree_measure_of_erase_eq (h : root.erase = other.erase) (given : Constraints) :
    Agree (fun m m' => m.node.erase = m'.node.erase ∧ m.visit.bare = m'.visit.bare)
      (root.measure given) (other.measure given) := by
  refine (agree_measure_erase root given).join (h ▸ agree_measure_erase other given) ?_
  exact fun m m' left hm hm' => ⟨hm.node.symm.trans hm'.node, hm.visit.symm.trans hm'.visit⟩

theorem agree_place_of_erase_eq (h : root.erase = other.erase) (bounds : Rect) :
    Agree (fun p p' => p.node.erase = p'.node.erase ∧ p.visit.bare = p'.visit.bare)
      (root.place bounds) (other.place bounds) := by
  refine (agree_place_erase root bounds).join (h ▸ agree_place_erase other bounds) ?_
  exact fun p p' left hp hp' => ⟨hp.node.symm.trans hp'.node, hp.visit.symm.trans hp'.visit⟩

theorem agree_serve_of_erase_eq (h : root.erase = other.erase) (request : Request) :
    Agree (fun served served' => served.node.erase = served'.node.erase ∧
      served.seen = served'.seen) (root.serve request) (other.serve request) := by
  cases request with
  | measure given =>
    refine (agree_measure_of_erase_eq h given).bind ?_
    rintro m m' ⟨hnode, hvisit⟩
    refine .ok ⟨hnode, ?_⟩
    rw [Served.seen, Served.seen, Measured.size_eq_of_bare_eq hvisit,
      Visit.map_snd_trail_of_bare_eq hvisit]
  | place bounds =>
    refine (agree_place_of_erase_eq h bounds).bind ?_
    rintro p p' ⟨hnode, hvisit⟩
    refine .ok ⟨hnode, ?_⟩
    rw [Served.seen, Served.seen, Visit.map_snd_trail_of_bare_eq hvisit]
  | fit size =>
    refine Agree.bind (R := fun fitted fitted' : Fitted =>
      fitted.node.erase = fitted'.node.erase ∧ fitted.answer = fitted'.answer ∧
        fitted.measuring.bare = fitted'.measuring.bare ∧
        fitted.placing.bare = fitted'.placing.bare) ?_ ?_
    · refine (agree_measure_of_erase_eq h (.exactly size)).bind ?_
      rintro m m' ⟨hm, hmeasuring⟩
      refine (agree_place_of_erase_eq hm (.atOrigin size)).bind ?_
      rintro p p' ⟨hnode, hplacing⟩
      exact .ok ⟨hnode, Measured.size_eq_of_bare_eq hmeasuring, hmeasuring, hplacing⟩
    · rintro fitted fitted' ⟨hnode, hanswer, hmeasuring, hplacing⟩
      refine .ok ⟨hnode, ?_⟩
      rw [Served.seen, Served.seen, hanswer, Visit.map_snd_trail_of_bare_eq hmeasuring,
        Visit.map_snd_trail_of_bare_eq hplacing]

/-- Trees of which the same is left cannot be told apart by any requests. -/
theorem agree_serveAll_of_erase_eq (h : root.erase = other.erase) (requests : List Request) :
    Agree (fun results results' => results.map Served.seen = results'.map Served.seen)
      (root.serveAll requests) (other.serveAll requests) := by
  induction requests generalizing root other with
  | nil => exact .ok rfl
  | cons request rest ih =>
    refine (agree_serve_of_erase_eq h request).bind ?_
    rintro served served' ⟨hnode, hseen⟩
    refine (ih hnode).bind fun results results' hrest => .ok ?_
    rw [List.map_cons, List.map_cons, hseen, hrest]

/-! ## Another collapsed child -/

/-- The node with the child at an index changed. -/
def modifyChildAt (node : Node) (i : Nat) (change : Node → Node) : Node :=
  match node with
  | leaf frame content => leaf frame content
  | padding frame insets child => padding frame insets (if i = 0 then change child else child)
  | align frame alignment measured child =>
    align frame alignment measured (if i = 0 then change child else child)
  | stack frame style totals items =>
    stack frame style totals (items.modify i fun item => { item with node := change item.node })
  | table frame grid cells => table frame grid (cells.modify i (Option.map change))

/-- The tree with another node at the end of a path. -/
def replaceAt (new : Node) : List Nat → Node → Node
  | [], _ => new
  | i :: path, root => root.modifyChildAt i (replaceAt new path)

theorem map_modify {α β : Type} {f : α → β} {change : α → α} {xs : List α} {i : Nat}
    (h : ∀ x, xs[i]? = some x → f (change x) = f x) : (xs.modify i change).map f = xs.map f := by
  refine List.ext_getElem? fun j => ?_
  rw [List.getElem?_map, List.getElem?_map, List.getElem?_modify]
  split
  · rename_i hj
    subst hj
    cases hx : xs[i]? with
    | none => rfl
    | some x => exact congrArg some (h x hx)
  · rw [id_map']

theorem isLive_modifyChildAt (node : Node) (i : Nat) (change : Node → Node) :
    (node.modifyChildAt i change).isLive = node.isLive := by
  cases node with
  | leaf => rfl
  | padding | align | stack | table => simp [modifyChildAt]

/-- A change that keeps what is left of a child keeps what is left of the node. -/
theorem erase_modifyChildAt {node : Node} {i : Nat} {change : Node → Node}
    (h : ∀ child, node.childAt i = some child → (change child).isLive = child.isLive ∧
      (node.admits child = true → (change child).erase = child.erase)) :
    (node.modifyChildAt i change).erase = node.erase := by
  cases node with
  | leaf frame content => rfl
  | padding frame insets child =>
    rw [modifyChildAt]
    split
    · rename_i hi
      rw [erase, erase, (h child (if_pos hi)).2 rfl]
    · rfl
  | align frame alignment measured child =>
    rw [modifyChildAt]
    split
    · rename_i hi
      rw [erase, erase, (h child (if_pos hi)).2 rfl]
    · rfl
  | stack frame style totals items =>
    have hitems : pick (·.node.isLive) eraseItem
        (items.modify i fun item => { item with node := change item.node }) =
        pick (·.node.isLive) eraseItem items := by
      refine map_modify fun item hi => ?_
      obtain ⟨hlive, hsame⟩ := h item.node (by rw [childAt, hi]; rfl)
      by_cases hl : item.node.isLive = true
      · rw [if_pos hl, if_pos (hlive.trans hl), eraseItem, eraseItem, hsame hl]
      · rw [if_neg hl, if_neg fun hl' => hl (hlive.symm.trans hl')]
    rw [modifyChildAt, erase, erase, eraseItems_eq, eraseItems_eq, ← filterMap_id_pick, hitems,
      filterMap_id_pick]
  | table frame grid cells =>
    rw [modifyChildAt, erase, erase, eraseCells_eq, eraseCells_eq]
    refine congrArg _ (map_modify fun cell hi => ?_)
    cases cell with
    | none => rfl
    | some child =>
      obtain ⟨hlive, hsame⟩ := h child (by rw [childAt, hi]; rfl)
      by_cases hl : child.isLive = true
      · rw [Option.map_some, eraseCell_of_live hl, eraseCell_of_live (hlive.trans hl), hsame hl]
      · rw [Option.map_some, eraseCell_of_not_live hl, eraseCell_of_not_live (hlive ▸ hl)]

/-- A child that does not take part leaves nothing behind, whatever it is. -/
theorem erase_replaceAt {container child : Node} {above : List Nat} {i : Nat}
    (hcontainer : root.nodeAt above = some container) (hchild : container.childAt i = some child)
    (hleft : container.admits child = false) (hother : other.visibility = .collapsed) :
    (replaceAt other (above ++ [i]) root).erase = root.erase := by
  have hcollapsed := (admits_eq_false_iff.1 hleft).2
  induction above generalizing root with
  | nil =>
    cases hcontainer
    refine erase_modifyChildAt fun child' hc => ?_
    cases hchild.symm.trans hc
    refine ⟨?_, fun ha => absurd ha (by simp [hleft])⟩
    rw [isLive, isLive, isCollapsed, isCollapsed, replaceAt, hcollapsed, hother]
  | cons j above ih =>
    obtain ⟨below, hb, hcontainer⟩ := Option.bind_eq_some_iff.1 hcontainer
    refine erase_modifyChildAt fun child' hc => ?_
    cases hb.symm.trans hc
    refine ⟨?_, fun _ => ih hcontainer⟩
    -- a child on the way to the collapsed one is changed below only
    cases above with
    | nil => exact isLive_modifyChildAt ..
    | cons k above => exact isLive_modifyChildAt ..

/-! ## Collapsed children of stacks and tables -/

theorem reachedAt_append (root : Node) (above below : List Nat) :
    root.reachedAt (above ++ below) = (root.reachedAt above).bind (·.reachedAt below) := by
  induction above generalizing root with
  | nil => rfl
  | cons i above ih =>
    rw [List.cons_append, reachedAt, reachedAt]
    cases root.visitedAt i with
    | none => rfl
    | some child => exact ih child

theorem nodeAt_of_reachedAt {node : Node} (h : root.reachedAt path = some node) :
    root.nodeAt path = some node := by
  induction path generalizing root with
  | nil => exact h
  | cons i path ih =>
    obtain ⟨child, hv, hp⟩ := Option.bind_eq_some_iff.1 h
    rw [nodeAt, (visitedAt_eq_some_iff.1 hv).1]
    exact ih hp

/-- Nothing is reached through a child that does not take part. -/
theorem reachedAt_through_eq_none {container child : Node} {above : List Nat} {i : Nat}
    (hcontainer : root.nodeAt above = some container) (hchild : container.childAt i = some child)
    (hleft : container.admits child = false) (below : List Nat) :
    root.reachedAt (above ++ i :: below) = none := by
  rw [reachedAt_append]
  cases hp : root.reachedAt above with
  | none => rfl
  | some node =>
    cases (nodeAt_of_reachedAt hp).symm.trans hcontainer
    rw [Option.bind_some, reachedAt, visitedAt_eq, hchild, Option.filter_some, hleft]
    rfl

/-- Whatever is requested of a tree, a collapsed child of a stack or a table and everything below
it is not called, tells no observer and does not change. With any other collapsed child in its place
every request stops with the same fault, or asks, answers, places and reports the same as before,
and all least extents are the same. -/
theorem collapsed_takes_no_part {container child : Node} {above : List Nat} {i : Nat}
    (hcontainer : root.nodeAt above = some container) (hchild : container.childAt i = some child)
    (hkind : container.leavesOutCollapsed = true) (hcollapsed : child.visibility = .collapsed)
    (requests : List Request) :
    (∀ results, root.serveAll requests = .ok results → ∀ served ∈ results,
      (∀ below, above ++ i :: below ∉ served.called ∧
        served.node.nodeAt (above ++ i :: below) = root.nodeAt (above ++ i :: below)) ∧
      ∀ report ∈ served.reports, ∃ path node, root.reachedAt path = some node ∧
        node.observer? = some report.1 ∧ ¬ above ++ [i] <+: path) ∧
    ∀ other : Node, other.visibility = .collapsed →
      Agree (fun results results' => results.map Served.seen = results'.map Served.seen)
        (root.serveAll requests) ((replaceAt other (above ++ [i]) root).serveAll requests) ∧
      ∀ axis extent, (replaceAt other (above ++ [i]) root).minExtent axis extent =
        root.minExtent axis extent := by
  have hleft := admits_eq_false_iff.2 ⟨hkind, hcollapsed⟩
  have hnone := reachedAt_through_eq_none hcontainer hchild hleft
  refine ⟨fun results h served hs => ?_, fun other hother => ?_⟩
  · have hserves := serves_of_serveAll h served hs
    refine ⟨fun below => ?_, fun report hr => ?_⟩
    · rw [hserves.mem_called, hnone]
      exact ⟨nofun, (hserves.same.reachedAt_eq_none (hnone below)).2⟩
    · obtain ⟨call, hc, hreport⟩ := List.mem_filterMap.1 hr
      obtain ⟨name, hname, rfl⟩ := Option.map_eq_some_iff.1 hreport
      obtain ⟨node, hn, hobserver⟩ := hserves.observer call hc
      refine ⟨call.1, node, hn, hobserver.trans hname, ?_⟩
      rintro ⟨below, hpath⟩
      rw [← hpath, List.append_assoc, List.singleton_append, hnone] at hn
      cases hn
  · have herase := erase_replaceAt hcontainer hchild hleft hother
    refine ⟨agree_serveAll_of_erase_eq herase.symm requests, fun axis extent => ?_⟩
    rw [← minExtent_erase, herase, minExtent_erase]

/-- A column with a collapsed padding in it, for which another one would do as well. -/
theorem collapsed_in_column :
    let lost := (pad (.all 1) (ofLeaf (.canvas ⟨9, 9⟩ .visible (some "lost")))).setVisibility
      .collapsed
    let column := stackOf { axis := .vertical, justify := .spaceBetween }
      [(ofLeaf (.canvas ⟨4, 4⟩ .visible (some "first")), 0), (lost, 1),
        (ofLeaf (.canvas ⟨6, 2⟩ .visible none), 0)]
    ∃ results, column.serveAll [.fit ⟨20, 30⟩, .place ⟨⟨5, 5⟩, ⟨10, 10⟩⟩] = .ok results ∧
      results.map Served.reports = [[("first", ⟨⟨0, 0⟩, ⟨4, 4⟩⟩)], [("first", ⟨⟨5, 5⟩, ⟨4, 4⟩⟩)]] ∧
      (∀ served ∈ results, [1] ∉ served.called ∧ [1, 0] ∉ served.called ∧
        served.node.nodeAt [1] = some lost) ∧
      ∀ axis extent, (replaceAt (ofLeaf (.canvas ⟨50, 50⟩ .collapsed none)) [1] column).minExtent
        axis extent = column.minExtent axis extent := by
  intro lost column
  obtain ⟨results, hr, hreports⟩ := map_eq_ok_iff.1 (by decide +kernel :
    List.map Served.reports <$> column.serveAll [.fit ⟨20, 30⟩, .place ⟨⟨5, 5⟩, ⟨10, 10⟩⟩] =
      .ok [[("first", ⟨⟨0, 0⟩, ⟨4, 4⟩⟩)], [("first", ⟨⟨5, 5⟩, ⟨4, 4⟩⟩)]])
  obtain ⟨hspared, hother⟩ := @collapsed_takes_no_part column column lost [] 1 rfl rfl rfl rfl
    [.fit ⟨20, 30⟩, .place ⟨⟨5, 5⟩, ⟨10, 10⟩⟩]
  refine ⟨results, hr, hreports, fun served hs => ?_, (hother _ rfl).2⟩
  obtain ⟨hbelow, -⟩ := hspared results hr served hs
  exact ⟨(hbelow []).1, (hbelow [0]).1, (hbelow []).2⟩

/-- A padding does not leave its child out: it places a collapsed one, which is reported, and is as
large as that child makes it. -/
theorem called_in_padding :
    let child := ofLeaf (.canvas ⟨5, 7⟩ .collapsed (some "c"))
    child.visibility = .collapsed ∧ (pad (.all 1) child).nodeAt [0] = some child ∧
      (∃ results, (pad (.all 1) child).serveAll [.place ⟨⟨0, 0⟩, ⟨20, 20⟩⟩] = .ok results ∧
        results.map Served.called = [[[], [0]]] ∧
        results.map Served.reports = [[("c", ⟨⟨1, 1⟩, ⟨18, 18⟩⟩)]]) ∧
      (pad (.all 1) child).minExtent .horizontal 0 = .ok 7 ∧
      (pad (.all 1) (ofLeaf (.canvas ⟨6, 7⟩ .collapsed none))).minExtent .horizontal 0 = .ok 8 := by
  refine ⟨rfl, rfl, ⟨_, rfl, rfl, rfl⟩, rfl, rfl⟩

end Node

end BoxLayout
