import BoxLayout.Proofs.Arrange
import BoxLayout.Proofs.Preorder

/-!
# Every reached node is placed once

A placing calls exactly the nodes that it reaches, each of them once and in preorder; the place of
the call is the one that the node records, observers are told in the same order, and what is not
reached stays as it was (`placed_once_in_preorder`).

One step down is `Node.Puts`, which holds of all kinds of nodes alike (`exists_puts`): a node places
the children that it calls, each once and in order, and gives the others back.
-/

namespace BoxLayout

/-- The call that gives a node the place that it has. -/
def Node.placing (node : Node) : Placing := ⟨node.bounds, node.observer?⟩

namespace Node

variable {bounds : Rect} {p : Placed}

theorem length_placeItems {items : List (Item Node)} {slots : Slots} {placed : List (Option Placed)}
    (hp : placeItems items slots = .ok placed) : placed.length = items.length := by
  induction items generalizing slots placed with
  | nil =>
    cases slots with
    | fault fault => cases hp
    | done => cases hp; rfl
    | next slot slots => cases slot <;> (cases hp; rfl)
  | cons item rest ih =>
    cases slots with
    | fault fault => cases hp
    | done =>
      rw [placeItems_done] at hp
      rw [← Except.ok.inj hp, List.length_map]
    | next slot slots =>
      cases slot with
      | none =>
        obtain ⟨others, ho, rfl⟩ := placeItems_none_eq_ok_iff.1 hp
        rw [List.length_cons, List.length_cons, ih ho]
      | some slot =>
        obtain ⟨found, others, -, ho, rfl⟩ := placeItems_some_eq_ok_iff.1 hp
        rw [List.length_cons, List.length_cons, ih ho]

/-- A stack places its live children, and no other ones. -/
theorem exists_of_placeItems {items : List (Item Node)} {slots : Slots}
    {placed : List (Option Placed)} (hs : slots.Suits (measuredSizes items))
    (he : slots.Each (fun _ _ => True) (measuredSizes items))
    (hp : placeItems items slots = .ok placed) :
    ∃ put : Nat → Placed,
      placed = pick (fun item : Item Node × Nat => item.1.node.isLive) (fun item => put item.2)
        items.zipIdx ∧
      ∀ (i : Nat) (item : Item Node), items[i]? = some item → item.node.isLive = true →
        ∃ slot, item.node.place slot = .ok (put i) := by
  refine ⟨fun i => (placed[i]?.join).getD default, List.ext_getElem? fun i => ?_,
    fun i item hi hl => ?_⟩
  · rw [pick, List.getElem?_map, List.getElem?_zipIdx]
    cases hi : items[i]? with
    | none =>
      have hlength := length_placeItems hp
      exact List.getElem?_eq_none (hlength ▸ List.getElem?_eq_none_iff.1 hi)
    | some item =>
      obtain ⟨hyes, hno⟩ := getElem?_placeItems hs he hp hi
      by_cases hl : item.node.isLive = true
      · obtain ⟨slot, q, -, -, hget⟩ := hyes hl
        simp [hget, hl]
      · simp [hno hl, hl]
  · obtain ⟨slot, q, -, hq, hget⟩ := (getElem?_placeItems hs he hp hi).1 hl
    exact ⟨slot, by simpa [hget] using hq⟩

/-- Placing `node` gave `p` and the children that it calls `put`. -/
structure Puts (node : Node) (p : Placed) (put : Nat → Placed) : Prop where
  placed : ∀ i child, node.visitedAt i = some child → ∃ slot, child.place slot = .ok (put i)
  childAt : ∀ i, p.node.childAt i =
    if (node.visitedAt i).isSome then some (put i).node else node.childAt i
  calls : p.visit.calls = node.callees.map fun call => (call.1, (put call.1).visit)

theorem Puts.only {node child : Node} {slot : Rect} {placed : Placed}
    (hq : child.place slot = .ok placed)
    (hv : ∀ i, node.visitedAt i = if i = 0 then some child else none)
    (hchild : ∀ i, node.childAt i = if i = 0 then some child else none)
    (hnode : ∀ i, p.node.childAt i = if i = 0 then some placed.node else none)
    (hcalls : p.visit.calls = node.callees.map fun call => (call.1, placed.visit)) :
    node.Puts p fun _ => placed where
  placed i below h := by
    rw [hv] at h
    split at h
    · cases h
      exact ⟨slot, hq⟩
    · cases h
  childAt i := by
    rw [hnode, hv, hchild]
    split <;> rfl
  calls := hcalls

theorem exists_puts_stack {frame : Frame} {style : StackStyle} {totals : StackTotals}
    {items : List (Item Node)} (h : (stack frame style totals items).place bounds = .ok p) :
    ∃ put : Nat → Placed, (stack frame style totals items).Puts p put := by
  obtain ⟨placed, hp, hnode, hcalls⟩ := put_stack h
  obtain ⟨put, rfl, hput⟩ := exists_of_placeItems StackStyle.suits_slots
    (StackStyle.each_slots (fun _ _ _ _ _ => trivial) fun _ _ _ _ _ _ _ _ => trivial) hp
  refine ⟨put, fun i child hv => ?_, fun i => ?_, ?_⟩
  · obtain ⟨item, hi, hl, rfl⟩ := visitedAt_stack_eq_some_iff.1 hv
    exact hput i item hi hl
  · rw [hnode, childAt, childAt, visitedAt, List.getElem?_zipWith, pick, List.getElem?_map,
      List.getElem?_zipIdx]
    cases hi : items[i]? with
    | none => rfl
    | some item => by_cases hl : item.node.isLive = true <;> simp [hl, Placed.settle]
  · rw [hcalls, Placed.calls, map_pick, Visit.ofChildren_pick, callees, List.map_map]
    rfl

theorem exists_puts_table {frame : Frame} {grid : Grid} {cells : List (Option Node)}
    (h : (table frame grid cells).place bounds = .ok p) :
    ∃ put : Nat → Placed, (table frame grid cells).Puts p put := by
  obtain ⟨_, _, placed, -, -, -, hplaced, hnode, hcalls⟩ := put_table h
  refine ⟨fun i => placed (cells[i]?.join, i), fun i child hv => ?_, fun i => ?_, ?_⟩
  · obtain ⟨hi, hl⟩ := visitedAt_table_eq_some_iff.1 hv
    obtain ⟨slot, -, hq⟩ := hplaced (some child, i) (List.mem_zipIdx_iff_getElem?.2 hi) hl
    exact ⟨slot, by simpa [hi, content] using hq⟩
  · rw [hnode, childAt, childAt, visitedAt, List.getElem?_map, List.getElem?_zipIdx]
    cases hi : cells[i]? with
    | none => rfl
    | some cell =>
      cases cell with
      | none => rfl
      | some child => by_cases hl : child.isLive = true <;> simp [isLiveCell, hl]
  · rw [hcalls, Placed.calls, map_pick, Visit.ofChildren_pick, callees, List.map_map]
    refine List.map_congr_left fun cell hc => ?_
    have hi := List.mem_zipIdx_iff_getElem?.1 (List.mem_filter.1 hc).1
    simp only [Function.comp, hi, Option.join_some]

theorem exists_puts {node : Node} (h : node.place bounds = .ok p) :
    ∃ put : Nat → Placed, node.Puts p put := by
  cases node with
  | leaf frame content =>
    obtain ⟨hnode, hcalls⟩ := put_leaf h
    exact ⟨default, nofun, fun i => by rw [hnode]; rfl, hcalls⟩
  | padding frame insets child =>
    obtain ⟨inner, placed, -, hq, hnode, hcalls⟩ := put_padding h
    exact ⟨_, .only hq (fun _ => rfl) (fun _ => rfl) (fun _ => by rw [hnode]; rfl) hcalls⟩
  | align frame alignment measured child =>
    obtain ⟨slot, placed, -, hq, hnode, hcalls⟩ := put_align h
    exact ⟨_, .only hq (fun _ => rfl) (fun _ => rfl) (fun _ => by rw [hnode]; rfl) hcalls⟩
  | stack frame style totals items => exact exists_puts_stack h
  | table frame grid cells => exact exists_puts_table h

theorem reachEqual_of_place {node : Node} (h : node.place bounds = .ok p) :
    node.ReachEqual p.node := (retain_of_place h).symm

theorem visit_of_place {node : Node} (h : node.place bounds = .ok p) :
    p.visit = .mk node.name ⟨bounds, node.observer?⟩ p.visit.calls := by
  rw [place.eq_def] at h
  obtain ⟨found, -, rfl⟩ := map_eq_ok_iff.1 h
  rfl

/-- The call gives a node the place that it has from then on. -/
theorem event_of_place {node : Node} (h : node.place bounds = .ok p) :
    p.visit.event = p.node.placing := by
  rw [visit_of_place h]
  exact (congrArg₂ Placing.mk (bounds_of_place h) (reachEqual_of_place h).observer?).symm

namespace Puts

variable {node : Node} {put : Nat → Placed}

theorem visitedAt (h : node.Puts p put) (hp : node.place bounds = .ok p) :
    ∀ i, p.node.visitedAt i = (node.visitedAt i).map fun _ => (put i).node :=
  visitedAt_of_childAt (reachEqual_of_place hp).admits (fun i child hv => by
    obtain ⟨slot, hq⟩ := h.placed i child hv
    exact isLive_of_place hq) h.childAt

theorem callees (h : node.Puts p put) (hp : node.place bounds = .ok p) :
    p.node.callees = node.callees.map fun call => (call.1, (put call.1).node) := by
  refine eq_callees ?_ fun i child => ?_
  · rw [List.map_map]
    exact pairwise_callees node
  · rw [h.visitedAt hp, Option.map_eq_some_iff, List.mem_map]
    constructor
    · rintro ⟨call, hc, he⟩
      cases he
      exact ⟨call.2, mem_callees.1 hc, rfl⟩
    · rintro ⟨below, hv, rfl⟩
      exact ⟨(i, below), mem_callees.2 hv, rfl⟩

end Puts

/-- The calls of a placing are those on the nodes that it reaches, in preorder. -/
theorem trail_of_place {root : Node} (hp : root.place bounds = .ok p) :
    p.visit.trail = p.node.preorder.map (Prod.map id placing) := by
  induction root using visited_induct generalizing bounds p with
  | step root ih =>
    obtain ⟨put, h⟩ := exists_puts hp
    rw [Visit.trail_eq, Visit.trailAll_eq, event_of_place hp, preorder_eq, h.calls, h.callees hp,
      List.map_cons, List.flatMap_map, List.flatMap_map, List.map_flatMap]
    refine congrArg _ (List.flatMap_congr fun call hc => ?_)
    obtain ⟨slot, hq⟩ := h.placed _ _ (mem_callees.1 hc)
    rw [ih call.2 (mem_visited_iff.2 ⟨_, mem_callees.1 hc⟩) hq, List.map_map, List.map_map]
    rfl

theorem map_fst_trail_of_place {root : Node} (hp : root.place bounds = .ok p) :
    p.visit.trail.map Prod.fst = root.preorder.map Prod.fst := by
  have h := congrArg (List.map Prod.fst)
    ((reachEqual_of_place hp).map_preorder ReachEqual.observer?)
  rw [List.map_map, List.map_map] at h
  rw [trail_of_place hp, List.map_map]
  exact h

/-- The paths of the calls of a placing are those that lead to nodes that it reaches. -/
theorem mem_trail_of_place {root : Node} (hp : root.place bounds = .ok p) {path : List Nat} :
    path ∈ p.visit.trail.map Prod.fst ↔ (root.reachedAt path).isSome := by
  rw [map_fst_trail_of_place hp]
  exact mem_map_fst_preorder

/-- If a tree can be placed, every node that is reached is called once, in preorder, and records the
place of that call; the reports are those to the observers among them, in the same order; what is
not reached does not change. -/
theorem placed_once_in_preorder {root : Node} {bounds : Rect} {p : Placed}
    (hp : root.place bounds = .ok p) :
    (p.visit.trail.map Prod.fst).Pairwise (· < ·) ∧
      (∀ path, path ∈ p.visit.trail.map Prod.fst ↔ (root.reachedAt path).isSome) ∧
      p.visit.trail = p.node.preorder.map (Prod.map id placing) ∧
      p.node.preorder.map (Prod.map id observer?) = root.preorder.map (Prod.map id observer?) ∧
      p.visit.reports = p.node.preorder.filterMap
        (fun call => call.2.observer?.map (·, call.2.bounds)) ∧
      ∀ path, root.reachedAt path = none → p.node.nodeAt path = root.nodeAt path := by
  have htrail := trail_of_place hp
  have hsame := reachEqual_of_place hp
  refine ⟨map_fst_trail_of_place hp ▸ pairwise_preorder root, fun path => mem_trail_of_place hp,
    htrail, hsame.map_preorder ReachEqual.observer?, ?_,
    fun path h => (hsame.reachedAt_eq_none h).2⟩
  rw [Visit.reports, ← Visit.map_snd_trail, htrail, List.map_map, List.filterMap_map]
  rfl

/-- A row that was never measured, with a collapsed child between two observed ones. -/
theorem placed_once_in_row :
    let row := stackOf { axis := .horizontal, justify := .stop }
      [(ofLeaf (.canvas ⟨4, 4⟩ .visible (some "a")), 0),
        (pad (.all 1) (ofLeaf (.canvas ⟨9, 9⟩ .visible (some "lost"))) |>.setVisibility .collapsed,
          0),
        (pad (.all 2) (ofLeaf (.canvas ⟨6, 6⟩ .hidden (some "b"))), 1)]
    ∃ p, row.place ⟨⟨10, 20⟩, ⟨30, 8⟩⟩ = .ok p ∧
      p.visit.trail.map Prod.fst = [[], [0], [2], [2, 0]] ∧
      p.visit.reports = [("a", ⟨⟨40, 20⟩, ⟨0, 0⟩⟩), ("b", ⟨⟨42, 22⟩, ⟨0, 0⟩⟩)] ∧
      p.visit.trail = p.node.preorder.map (Prod.map id placing) := by
  intro row
  obtain ⟨p, hp, hrest⟩ := map_eq_ok_iff.1 (by decide +kernel :
    (fun p => (p.visit.trail.map Prod.fst, p.visit.reports)) <$>
      row.place ⟨⟨10, 20⟩, ⟨30, 8⟩⟩ = .ok ([[], [0], [2], [2, 0]],
        [("a", ⟨⟨40, 20⟩, ⟨0, 0⟩⟩), ("b", ⟨⟨42, 22⟩, ⟨0, 0⟩⟩)]))
  obtain ⟨hpaths, hreports⟩ := Prod.mk.inj hrest
  exact ⟨p, hp, hpaths, hreports, (placed_once_in_preorder hp).2.2.1⟩

end Node

end BoxLayout
