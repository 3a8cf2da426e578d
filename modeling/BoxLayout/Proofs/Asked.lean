import BoxLayout.Proofs.Preorder
import BoxLayout.Proofs.Remeasure

/-!
# Every reached node is measured

A measuring calls exactly the nodes that it reaches, each of them at least once
(`mem_trail_of_measure`). One step down is `Node.Asks`, which holds of all kinds of nodes alike
(`asks_of_measure`): a node measures the children that a pass calls, and no other ones.
-/

namespace BoxLayout

theorem Measured.mem_calls_pick_iff {α : Type} {p : α → Bool} {f : α → Measured} {xs : List α}
    {i : Nat} {visit : Visit Measuring} : (i, visit) ∈ calls (pick p f xs) ↔
      ∃ x, xs[i]? = some x ∧ p x = true ∧ (f x).visit = visit := by
  rw [calls, Visit.mem_ofChildren, map_pick, pick, List.getElem?_map, Option.map_eq_some_iff]
  refine exists_congr fun x => and_congr_right fun _ => ?_
  by_cases hp : p x = true <;> simp [hp]

/-- A path leads to a call if it is empty or goes on from a call on a child. -/
theorem Visit.mem_paths_iff {α : Type} {visit : Visit α} {path : List Nat} :
    path ∈ visit.trail.map Prod.fst ↔ path = [] ∨ ∃ call ∈ visit.calls, ∃ below,
      path = call.1 :: below ∧ below ∈ call.2.trail.map Prod.fst := by
  rw [trail_eq, trailAll_eq, List.map_cons, List.mem_cons, List.map_flatMap, List.mem_flatMap]
  refine or_congr_right (exists_congr fun call => and_congr_right fun _ => ?_)
  rw [List.map_map]
  constructor
  · intro h
    obtain ⟨event, he, rfl⟩ := List.mem_map.1 h
    exact ⟨event.1, rfl, List.mem_map_of_mem he⟩
  · rintro ⟨below, rfl, h⟩
    obtain ⟨event, he, rfl⟩ := List.mem_map.1 h
    exact List.mem_map.2 ⟨event, he, rfl⟩

namespace Node

variable {frame : Frame} {given : Constraints} {m : Measured}

/-- Measuring `node`, which gave `m`, measured the children that a pass calls. -/
structure Asks (node : Node) (m : Measured) : Prop where
  exists_call : ∀ i child, node.visitedAt i = some child →
    ∃ given q, child.measure given = .ok q ∧ (i, q.visit) ∈ m.visit.calls
  of_mem_calls : ∀ call ∈ m.visit.calls, ∃ child given q, node.visitedAt call.1 = some child ∧
    child.measure given = .ok q ∧ q.visit = call.2

theorem Asks.only {node child : Node} {found : Measured} (hf : child.measure given = .ok found)
    (hv : ∀ i, node.visitedAt i = if i = 0 then some child else none)
    (hcalls : m.visit.calls = [(0, found.visit)]) : node.Asks m where
  exists_call i below h := by
    rw [hv] at h
    split at h
    · rename_i hi
      cases h
      rw [hcalls, hi]
      exact ⟨given, found, hf, List.mem_singleton_self _⟩
    · cases h
  of_mem_calls call h := by
    rw [hcalls, List.mem_singleton] at h
    rw [h]
    exact ⟨child, given, found, hv 0, hf, rfl⟩

theorem asks_stack {style : StackStyle} {totals : StackTotals} {items : List (Item Node)}
    (h : (stack frame style totals items).measure given = .ok m) (hcount : liveCount items ≠ 0) :
    (stack frame style totals items).Asks m := by
  obtain ⟨run, hr, -, -, hcalls⟩ := run_stack h hcount
  constructor
  · intro i child hv
    obtain ⟨item, hi, hl, rfl⟩ := visitedAt_stack_eq_some_iff.1 hv
    refine ⟨run.offer, run.once item, hr.once item (List.mem_of_getElem? hi) hl, ?_⟩
    rw [hcalls, List.mem_append]
    exact .inl (Measured.mem_calls_pick hi hl)
  · rintro ⟨i, visit⟩ hc
    rw [hcalls, List.mem_append, Measured.mem_calls_pick_iff, Measured.mem_calls_pick_iff] at hc
    rcases hc with ⟨item, hi, hl, hvisit⟩ | ⟨item, hi, hs, hvisit⟩
    · exact ⟨item.node, _, _, visitedAt_stack_eq_some_iff.2 ⟨item, hi, hl, rfl⟩,
        hr.once item (List.mem_of_getElem? hi) hl, hvisit⟩
    · have hl := Sharing.isLive_of_shares item hs
      exact ⟨item.node, _, _, visitedAt_stack_eq_some_iff.2 ⟨item, hi, hl, rfl⟩,
        hr.again item (List.mem_of_getElem? hi) hs, hvisit⟩

theorem asks_table {grid : Grid} {cells : List (Option Node)}
    (h : (table frame grid cells).measure given = .ok m) : (table frame grid cells).Asks m := by
  obtain ⟨-, once, again, sized, -, honce, hagain, -, -, hcalls⟩ := run_table h
  have hcalled {i : Nat} {cell : Option Node × Nat} (hi : cells.zipIdx[i]? = some cell)
      (hl : isLiveCell cell = true) :
      (table frame grid cells).visitedAt i = some (content cell) := by
    obtain ⟨-, hchild, hlive⟩ := exists_of_isLiveCell (List.mem_of_getElem? hi) hl
    rw [List.getElem?_zipIdx, Nat.zero_add] at hi
    obtain ⟨_, -, rfl⟩ := Option.map_eq_some_iff.1 hi
    exact visitedAt_table_eq_some_iff.2 ⟨hchild, hlive⟩
  constructor
  · intro i child hv
    obtain ⟨hi, hl⟩ := visitedAt_table_eq_some_iff.1 hv
    have hcell : cells.zipIdx[i]? = some (some child, i) := by simp [hi]
    refine ⟨.free, once (some child, i), honce _ (List.mem_of_getElem? hcell) hl, ?_⟩
    rw [hcalls, List.mem_append]
    exact .inl (Measured.mem_calls_pick hcell hl)
  · rintro ⟨i, visit⟩ hc
    rw [hcalls, List.mem_append, Measured.mem_calls_pick_iff, Measured.mem_calls_pick_iff] at hc
    rcases hc with ⟨cell, hi, hl, hvisit⟩ | ⟨cell, hi, hl, hvisit⟩
    · exact ⟨_, _, _, hcalled hi hl, honce cell (List.mem_of_getElem? hi) hl, hvisit⟩
    · exact ⟨_, _, _, hcalled hi hl, hagain cell (List.mem_of_getElem? hi) hl, hvisit⟩

theorem asks_of_measure {node : Node} (h : node.measure given = .ok m) : node.Asks m := by
  cases node with
  | leaf frame content =>
    obtain ⟨-, -, hcalls⟩ := run_leaf h
    exact ⟨nofun, by simp [hcalls]⟩
  | padding frame insets child =>
    obtain ⟨_, _, _, found, -, -, -, hf, -, -, hcalls⟩ := run_padding h
    exact .only hf (fun _ => rfl) hcalls
  | align frame alignment measured child =>
    obtain ⟨found, hf, -, -, hcalls⟩ := run_align h
    exact .only hf (fun _ => rfl) hcalls
  | stack frame style totals items =>
    rcases Classical.em (liveCount items = 0) with hcount | hcount
    · obtain ⟨-, -, hcalls⟩ := run_stack_empty h hcount
      refine ⟨fun i child hv => ?_, by simp [hcalls]⟩
      obtain ⟨item, hi, hl, -⟩ := visitedAt_stack_eq_some_iff.1 hv
      exact absurd hl (List.countP_eq_zero.1 hcount item (List.mem_of_getElem? hi))
    · exact asks_stack h hcount
  | table frame grid cells => exact asks_table h

/-- The paths of the calls of a measuring are those that lead to nodes that it reaches. -/
theorem mem_trail_of_measure {root : Node} (h : root.measure given = .ok m) {path : List Nat} :
    path ∈ m.visit.trail.map Prod.fst ↔ (root.reachedAt path).isSome := by
  induction path generalizing root given m with
  | nil => exact iff_of_true (Visit.mem_paths_iff.2 (.inl rfl)) rfl
  | cons i path ih =>
    obtain ⟨hexists, hof⟩ := asks_of_measure h
    rw [Visit.mem_paths_iff, reachedAt]
    constructor
    · rintro (hnil | ⟨⟨j, visit⟩, hc, below, hpath, hb⟩)
      · cases hnil
      · cases hpath
        obtain ⟨child, given', q, hv, hq, rfl⟩ := hof _ hc
        rw [hv]
        exact (ih hq).1 hb
    · intro hp
      cases hv : root.visitedAt i with
      | none => rw [hv] at hp; cases hp
      | some child =>
        rw [hv] at hp
        obtain ⟨given', q, hq, hc⟩ := hexists i child hv
        exact .inr ⟨_, hc, path, rfl, (ih hq).2 hp⟩

theorem reachEqual_of_measure {node : Node} (h : node.measure given = .ok m) :
    node.ReachEqual m.node := (retain_of_measure h).symm

end Node

end BoxLayout
