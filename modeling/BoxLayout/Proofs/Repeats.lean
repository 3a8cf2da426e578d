import BoxLayout.Journal
import BoxLayout.Proofs.Asked
import Mathlib.Algebra.BigOperators.Group.List.Lemmas
import Mathlib.Algebra.Order.Ring.Nat
import Mathlib.Data.List.Count

/-!
# How often a node is measured

A stack measures its live children in one round, and in a second one those that share in room to
spare (`Node.rounds_of_measure`); a table measures each of its live children twice. Other nodes
measure their child once. So the calls on a node at least double with every table above it, and at
most double with every table and with every weight above it that may matter
(`Node.times_of_measure`). How often that is the case is up to the constraints of each call.
-/

namespace BoxLayout

namespace Visit

variable {α : Type}

/-- How many calls there are on the node at the end of a path. -/
def times (visit : Visit α) (path : List Nat) : Nat := (visit.trail.map Prod.fst).count path

theorem count_below (j i : Nat) (path : List Nat) (trail : List (List Nat × α)) :
    ((trail.map (Prod.map (j :: ·) id)).map Prod.fst).count (i :: path) =
      if j = i then (trail.map Prod.fst).count path else 0 := by
  have hmap : (trail.map (Prod.map (j :: ·) id)).map Prod.fst =
      (trail.map Prod.fst).map (j :: ·) := by
    rw [List.map_map, List.map_map]
    rfl
  rw [hmap]
  split
  · rename_i hj
    rw [hj, List.count_map_of_injective _ _ (List.cons_injective)]
  · rename_i hj
    rw [List.count_eq_zero, List.mem_map]
    rintro ⟨below, -, hbelow⟩
    exact hj (List.cons.inj hbelow).1

theorem times_nil (visit : Visit α) : visit.times [] = 1 := by
  have hall : ((trailAll visit.calls).map Prod.fst).count [] = 0 := by
    rw [trailAll_eq, List.map_flatMap, List.count_eq_zero]
    simp
  rw [times, trail_eq, List.map_cons, List.count_cons_self, hall]

/-- The calls below a child come from the calls on this child. -/
theorem times_cons (visit : Visit α) (i : Nat) (path : List Nat) :
    visit.times (i :: path) =
      ((visit.calls.filter fun call => call.1 = i).map fun call => call.2.times path).sum := by
  have hall (calls : List (Nat × Visit α)) : ((trailAll calls).map Prod.fst).count (i :: path) =
      ((calls.filter fun call => call.1 = i).map fun call => call.2.times path).sum := by
    induction calls with
    | nil => rfl
    | cons call rest ih =>
      rw [trailAll, List.map_append, List.count_append, count_below, ih, List.filter_cons]
      by_cases hi : call.1 = i <;> simp [hi, times]
  rw [times, trail_eq, List.map_cons, List.count_cons_of_ne (by simp), hall]

theorem length_filter_calls (visit : Visit α) (i : Nat) :
    (visit.calls.filter fun call => call.1 = i).length = (visit.calls.map Prod.fst).count i := by
  rw [← List.countP_eq_length_filter, List.count, List.countP_map]
  rfl

theorem times_singleton (visit : Visit α) (i : Nat) :
    visit.times [i] = (visit.calls.map Prod.fst).count i := by
  rw [times_cons, ← length_filter_calls]
  simp [times_nil]

/-- All calls together are those on each of the nodes that were called. -/
theorem size_eq_sum_times {visit : Visit α} {paths : List (List Nat)} (hn : paths.Nodup)
    (hp : ∀ path, path ∈ visit.trail.map Prod.fst ↔ path ∈ paths) :
    visit.size = (paths.map visit.times).sum := by
  have hperm : paths.Perm (visit.trail.map Prod.fst).dedup :=
    (List.perm_ext_iff_of_nodup hn (List.nodup_dedup _)).2 fun path => by
      rw [List.mem_dedup, hp]
  have hlength : (visit.trail.map Prod.fst).length = visit.size := by
    rw [List.length_map, ← length_events, ← map_snd_trail, List.length_map]
  rw [(hperm.map visit.times).sum_eq, ← hlength, ← List.sum_map_count_dedup_eq_length]
  exact congrArg List.sum (List.map_congr_left fun path _ =>
    List.countP_congr fun below _ => by simp)

end Visit

theorem count_filter_zipIdx {α : Type} {p : α × Nat → Bool} {xs : List α} {i : Nat} {x : α}
    (hi : xs[i]? = some x) :
    ((xs.zipIdx.filter p).map Prod.snd).count i = (p (x, i)).toNat := by
  have hnodup : ((xs.zipIdx.filter p).map Prod.snd).Nodup :=
    (pairwise_filter_zipIdx p xs).imp Nat.ne_of_lt
  have hmem : i ∈ (xs.zipIdx.filter p).map Prod.snd ↔ p (x, i) = true := by
    simp [List.mem_zipIdx_iff_getElem?, hi]
  rw [hnodup.count]
  cases hp : p (x, i) <;> simp [hmem, hp]

theorem map_filter_zipIdx {α β : Type} (p : α → Bool) (f : α → β) (xs : List α) :
    ((xs.zipIdx.filter fun x => p x.1).map fun x => f x.1) = (xs.filter p).map f := by
  have h := congrArg (fun xs => (xs.filter p).map f) (List.zipIdx_map_fst 0 xs)
  rw [List.filter_map, List.map_map] at h
  exact h

namespace Measured

variable {α : Type} (p : α → Bool) (f : α → Measured) (xs : List α)

/-- The calls on chosen children, in order. -/
theorem calls_pick : calls (pick p f xs) =
    (xs.zipIdx.filter fun x => p x.1).map fun x => (x.2, (f x.1).visit) := by
  have hzip : pick (fun x => p x.1) (fun x => f x.1) xs.zipIdx = pick p f xs := by
    have h := congrArg (pick p f) (List.zipIdx_map_fst 0 xs)
    rw [pick, List.map_map] at h
    exact h
  rw [← hzip, calls, map_pick, Visit.ofChildren_pick]
  rfl

end Measured

/-! ## Rounds of a stack -/

namespace Sharing

variable {run : Sharing} {stack : Node} {style : StackStyle} {items : List (Item Node)}
  {given : Constraints}

theorem IsRun.extra_of_isHomogeneous (h : run.IsRun stack style items given)
    (hs : style.isHomogeneous = true) : run.extra = 0 := by
  have hextra := h.extra
  obtain ⟨-, hflex⟩ | ⟨hn, -⟩ := StackStyle.totalFlex_eq_ok_iff.1 h.flex
  · rw [if_pos hflex] at hextra
    exact (Except.ok.inj hextra).symm
  · rw [hs] at hn
    cases hn

theorem IsRun.shares_eq (h : run.IsRun stack style items given) (item : Item Node) :
    run.shares item =
      (item.node.isLive && !style.isHomogeneous && decide (0 < item.flex ∧ 0 < run.extra)) := by
  rw [shares, StackStyle.sharesIn]
  cases hs : style.isHomogeneous with
  | true => simp [h.extra_of_isHomogeneous hs]
  | false => simp [Bool.and_comm]

/-- The room is what the answers of the first round leave. -/
theorem IsRun.extra_eq (h : run.IsRun stack style items given) :
    style.extra given run.flex
      ((Measured.calls (pick (·.node.isLive) run.once items)).map
        fun call => some call.2.event.answer) = .ok run.extra := by
  have hfirst := map_filter_zipIdx (·.node.isLive) (fun item => some (run.once item).size) items
  have hextents : StackStyle.extentsAlong style.axis
      ((items.filter (·.node.isLive)).map fun item => some (run.once item).size) =
        run.onceAlong style.axis items := by
    simp [StackStyle.extentsAlong, List.filterMap_map, onceAlong]
  rw [← h.extra, ← hextents, ← hfirst, Measured.calls_pick, List.map_map]
  rfl

end Sharing

namespace Node

variable {frame : Frame} {given : Constraints} {m : Measured} {i : Nat} {child : Node}

/-- A stack measures its live children in order, and then again, in order, those that have a weight
if it is not homogeneous and its children left room. -/
theorem rounds_of_measure {style : StackStyle} {totals : StackTotals} {items : List (Item Node)}
    (h : (stack frame style totals items).measure given = .ok m) :
    ∃ first second flex extra, m.visit.calls = first ++ second ∧
      style.totalFlex ((items.filter (·.node.isLive)).map (·.flex)) = .ok flex ∧
      style.extra given flex (first.map fun call => some call.2.event.answer) = .ok extra ∧
      first.map Prod.fst = (items.zipIdx.filter fun item => item.1.node.isLive).map Prod.snd ∧
      second.map Prod.fst = (items.zipIdx.filter fun item => item.1.node.isLive &&
        !style.isHomogeneous && decide (0 < item.1.flex ∧ 0 < extra)).map Prod.snd := by
  by_cases hcount : liveCount items = 0
  · obtain ⟨-, -, hcalls⟩ := run_stack_empty h hcount
    have hdead : ∀ item ∈ items, ¬ item.node.isLive = true := List.countP_eq_zero.1 hcount
    have hnone : (items.zipIdx.filter fun item => item.1.node.isLive) = [] :=
      List.filter_eq_nil_iff.2 fun item hm => hdead item.1 (List.fst_mem_of_mem_zipIdx hm)
    refine ⟨[], [], 0, 0, hcalls, ?_, rfl, ?_, ?_⟩
    · rw [List.filter_eq_nil_iff.2 hdead, StackStyle.totalFlex_eq_ok_iff]
      cases style.isHomogeneous <;> simp [sumFlex]
    · rw [hnone]
      rfl
    · simp
  · obtain ⟨run, hr, -, -, hcalls⟩ := run_stack h hcount
    refine ⟨_, _, run.flex, run.extra, hcalls, hr.flex, hr.extra_eq, ?_, ?_⟩
    · rw [Measured.calls_pick, List.map_map]
      rfl
    · rw [Measured.calls_pick, List.map_map]
      exact congrArg (List.map Prod.snd) (List.filter_congr fun item _ => hr.shares_eq item.1)

/-! ## Calls on one child -/

/-- The node is a table. -/
def isTable : Node → Bool
  | table .. => true
  | leaf .. | padding .. | align .. | stack .. => false

/-- The node is a stack that looks at weights and the child with the index has one. -/
def weighs (node : Node) (i : Nat) : Bool :=
  match node with
  | stack _ style _ items => !style.isHomogeneous && items[i]?.any fun item => 0 < item.flex
  | leaf .. | padding .. | align .. | table .. => false

/-- One step down: a table calls its children twice, and a weight may double the calls. -/
theorem count_calls_of_measure {node : Node} (h : node.measure given = .ok m)
    (hv : node.visitedAt i = some child) :
    2 ^ node.isTable.toNat ≤ (m.visit.calls.map Prod.fst).count i ∧
      (m.visit.calls.map Prod.fst).count i ≤ 2 ^ (node.isTable.toNat + (node.weighs i).toNat) := by
  cases node with
  | leaf frame content => cases hv
  | padding frame insets below =>
    obtain ⟨_, _, _, found, -, -, -, -, -, -, hcalls⟩ := run_padding h
    obtain ⟨rfl, -⟩ := Option.ite_none_right_eq_some.1 hv
    rw [hcalls]
    exact ⟨Nat.le_refl 1, Nat.le_refl 1⟩
  | align frame alignment measured below =>
    obtain ⟨found, -, -, -, hcalls⟩ := run_align h
    obtain ⟨rfl, -⟩ := Option.ite_none_right_eq_some.1 hv
    rw [hcalls]
    exact ⟨Nat.le_refl 1, Nat.le_refl 1⟩
  | stack frame style totals items =>
    obtain ⟨item, hi, hl, rfl⟩ := visitedAt_stack_eq_some_iff.1 hv
    obtain ⟨first, second, flex, extra, hcalls, -, -, hfirst, hsecond⟩ := rounds_of_measure h
    rw [hcalls, List.map_append, List.count_append, hfirst, hsecond, count_filter_zipIdx hi,
      count_filter_zipIdx hi, isTable, weighs, hi]
    cases style.isHomogeneous <;> by_cases hflex : 0 < item.flex <;> by_cases hextra : 0 < extra <;>
      simp [hl, hflex, hextra]
  | table frame grid cells =>
    obtain ⟨-, once, again, sized, -, -, -, -, -, hcalls⟩ := run_table h
    obtain ⟨hi, hl⟩ := visitedAt_table_eq_some_iff.1 hv
    have hround (f : Option Node × Nat → Measured) :
        ((Measured.calls (pick isLiveCell f cells.zipIdx)).map Prod.fst).count i = 1 := by
      rw [Measured.calls, map_pick, Visit.ofChildren_pick, List.map_map]
      exact (count_filter_zipIdx hi).trans (congrArg Bool.toNat hl)
    rw [hcalls, List.map_append, List.count_append, hround, hround]
    exact ⟨Nat.le_refl 2, Nat.le_refl 2⟩

/-! ## Calls along a path -/

/-- How many of the nodes above the end of a path have `p`, which is asked with the index of the
child by which the path goes on. -/
def countAbove (p : Node → Nat → Bool) (root : Node) : List Nat → Nat
  | [] => 0
  | i :: path =>
    (p root i).toNat + (root.visitedAt i).elim 0 fun child => child.countAbove p path

/-- How many tables there are above the end of a path. -/
def tablesAbove (root : Node) (path : List Nat) : Nat :=
  root.countAbove (fun node _ => node.isTable) path

/-- How many stacks above the end of a path look at weights and go on with a child that has one. -/
def weightsAbove (root : Node) (path : List Nat) : Nat := root.countAbove weighs path

theorem countAbove_cons {p : Node → Nat → Bool} {root : Node} {path : List Nat}
    (hv : root.visitedAt i = some child) :
    root.countAbove p (i :: path) = (p root i).toNat + child.countAbove p path := by
  rw [countAbove, hv, Option.elim_some]

/-- The calls on a node, by induction on the path and for all that its containers may ask. -/
theorem times_of_measure {root : Node} {path : List Nat} (h : root.measure given = .ok m)
    (hp : (root.reachedAt path).isSome) :
    2 ^ root.tablesAbove path ≤ m.visit.times path ∧
      m.visit.times path ≤ 2 ^ (root.tablesAbove path + root.weightsAbove path) := by
  induction path generalizing root given m with
  | nil => simp [Visit.times_nil, tablesAbove, weightsAbove, countAbove]
  | cons i path ih =>
    obtain ⟨node, hp⟩ := Option.isSome_iff_exists.1 hp
    obtain ⟨child, hv, hp⟩ := Option.bind_eq_some_iff.1 hp
    -- whatever it was asked, each call on the child keeps the bounds for the child
    have hbelow : ∀ times ∈ (m.visit.calls.filter fun call => call.1 = i).map
        fun call => call.2.times path, 2 ^ child.tablesAbove path ≤ times ∧
          times ≤ 2 ^ (child.tablesAbove path + child.weightsAbove path) := by
      intro times ht
      obtain ⟨call, hc, rfl⟩ := List.mem_map.1 ht
      obtain ⟨hc, hi⟩ := List.mem_filter.1 hc
      obtain ⟨child', given', q, hv', hq, hcall⟩ := (asks_of_measure h).of_mem_calls call hc
      rw [of_decide_eq_true hi, hv] at hv'
      cases hv'
      rw [← hcall]
      exact ih hq (by rw [hp]; rfl)
    obtain ⟨hleast, hmost⟩ := count_calls_of_measure h hv
    have hlo := List.card_nsmul_le_sum _ _ fun times ht => (hbelow times ht).1
    have hhi := List.sum_le_card_nsmul _ _ fun times ht => (hbelow times ht).2
    rw [List.length_map, Visit.length_filter_calls, Nat.nsmul_eq_mul, ← Visit.times_cons]
      at hlo hhi
    have htables : root.tablesAbove (i :: path) = root.isTable.toNat + child.tablesAbove path :=
      countAbove_cons hv
    have hweights : root.weightsAbove (i :: path) =
        (root.weighs i).toNat + child.weightsAbove path := countAbove_cons hv
    rw [htables, hweights]
    constructor
    · rw [Nat.pow_add]
      exact Nat.le_trans (Nat.mul_le_mul_right _ hleast) hlo
    · rw [Nat.add_add_add_comm, Nat.pow_add _ (_ + _)]
      exact Nat.le_trans hhi (Nat.mul_le_mul_right _ hmost)

/-- A node that is reached is measured at least `2 ^ t` and at most `2 ^ (t + f)` times, with `t`
tables above it and `f` stacks that look at weights and go on with a child that has one. Other nodes
are not measured, and the calls that the journal counts are those on the nodes that are reached. A
stack measures each live child once, and exactly once more if the child has a weight, the stack is
not homogeneous and there is room to share. -/
theorem measured_so_often {root : Node} (h : root.measure given = .ok m) :
    (∀ path, (root.reachedAt path).isSome →
      2 ^ root.tablesAbove path ≤ m.visit.times path ∧
        m.visit.times path ≤ 2 ^ (root.tablesAbove path + root.weightsAbove path)) ∧
    (∀ path, root.reachedAt path = none → m.visit.times path = 0) ∧
    (∀ level journal, (Journal.followMeasuring level journal m.visit).1.calls =
      journal.calls + (root.preorder.map fun call => m.visit.times call.1).sum) ∧
    ∀ frame style totals items, root = stack frame style totals items →
      ∃ first second flex extra, m.visit.calls = first ++ second ∧
        style.totalFlex ((items.filter (·.node.isLive)).map (·.flex)) = .ok flex ∧
        style.extra given flex (first.map fun call => some call.2.event.answer) = .ok extra ∧
        first.map Prod.fst = (items.zipIdx.filter fun item => item.1.node.isLive).map Prod.snd ∧
        ∀ (i : Nat) (item : Item Node), items[i]? = some item →
          m.visit.times [i] =
            if item.node.isLive then
              if 0 < item.flex ∧ style.isHomogeneous = false ∧ 0 < extra then 2 else 1
            else 0 := by
  have hpaths (path : List Nat) :
      path ∈ m.visit.trail.map Prod.fst ↔ (root.reachedAt path).isSome := mem_trail_of_measure h
  refine ⟨fun path => times_of_measure h, fun path hp => ?_, fun level journal => ?_, ?_⟩
  · rw [Visit.times, List.count_eq_zero, hpaths, hp]
    exact Bool.false_ne_true
  · have hnodup : (root.preorder.map Prod.fst).Nodup :=
      (pairwise_preorder root).imp ne_of_lt
    rw [Journal.calls_followMeasuring, Visit.size_eq_sum_times hnodup fun path =>
      (hpaths path).trans mem_map_fst_preorder.symm, List.map_map]
    rfl
  · rintro frame style totals items rfl
    obtain ⟨first, second, flex, extra, hcalls, hflex, hextra, hfirst, hsecond⟩ :=
      rounds_of_measure h
    refine ⟨first, second, flex, extra, hcalls, hflex, hextra, hfirst, fun i item hi => ?_⟩
    rw [Visit.times_singleton, hcalls, List.map_append, List.count_append, hfirst, hsecond,
      count_filter_zipIdx hi, count_filter_zipIdx hi]
    cases item.node.isLive with
    | false => rfl
    | true =>
      cases style.isHomogeneous with
      | true => simp
      | false => by_cases hs : 0 < item.flex ∧ 0 < extra <;> simp only [hs, true_and] <;> rfl

/-- The row finds room for its canvas only when the table measures it again. -/
theorem measured_so_often_in_table :
    let row := stackOf { axis := .horizontal } [(.ofLeaf (.canvas ⟨4, 4⟩ .visible none), 1)]
    let grid : Grid := { rows := 2, cols := 1, sized := true }
    let root := table {} grid [some row, some (.ofLeaf (.canvas ⟨9, 4⟩ .visible none))]
    ∃ m, root.measure .free = .ok m ∧ m.visit.times [0, 0] = 3 ∧
      2 ^ root.tablesAbove [0, 0] ≤ 3 ∧
      3 ≤ 2 ^ (root.tablesAbove [0, 0] + root.weightsAbove [0, 0]) ∧
      (Journal.followMeasuring .off {} m.visit).1.calls = 0 + (1 + (2 + (3 + (2 + 0)))) := by
  intro row grid root
  obtain ⟨m, hm, hfound⟩ := map_eq_ok_iff.1 (by decide +kernel :
    (fun m => (m.visit.times [0, 0], root.preorder.map fun call => m.visit.times call.1)) <$>
      root.measure .free = .ok (3, [1, 2, 3, 2]))
  obtain ⟨hthree, htimes⟩ := Prod.mk.inj hfound
  obtain ⟨hbounds, -, hcalls, -⟩ := measured_so_often hm
  obtain ⟨hlo, hhi⟩ := hbounds [0, 0] (by decide +kernel)
  rw [hthree] at hlo hhi
  refine ⟨m, hm, hthree, hlo, hhi, ?_⟩
  rw [hcalls, htimes]
  rfl

end Node

end BoxLayout
