import BoxLayout.Proofs.Caches
import BoxLayout.Proofs.Calls

/-!
# The order of the calls

`Node.callees` lists the children that a pass calls, with their indices and in the order of the
calls, which is that of the children (`map_snd_callees`). From it the nodes that a pass reaches come
in an order of their own, every node before those below it (`Node.preorder`): each of them once
(`pairwise_preorder`, the paths go up), and no others (`mem_preorder`).

A pass changes caches of nodes that it reaches and nothing else (`Node.ReachEqual`). The same nodes
are then reached afterwards, and what was not reached is as it was
(`ReachEqual.reachedAt_eq_none`).
-/

namespace BoxLayout

theorem pairwise_filter_zipIdx {α : Type} (p : α × Nat → Bool) (xs : List α) :
    ((xs.zipIdx.filter p).map Prod.snd).Pairwise (· < ·) := by
  refine List.Pairwise.sublist (List.filter_sublist.map Prod.snd) ?_
  rw [List.zipIdx_map_snd]
  exact List.pairwise_lt_range'

/-- Lists whose keys go up are equal if they have the same members. -/
theorem eq_of_pairwise_fst {κ β : Type} {r : κ → κ → Prop} [Std.Asymm r] {xs ys : List (κ × β)}
    (hx : (xs.map Prod.fst).Pairwise r) (hy : (ys.map Prod.fst).Pairwise r)
    (hm : ∀ x, x ∈ xs ↔ x ∈ ys) : xs = ys := by
  have hnodup {zs : List (κ × β)} (hz : (zs.map Prod.fst).Pairwise r) : zs.Nodup :=
    (List.pairwise_map.1 hz).imp fun {a b} hr (he : a = b) => by
      rw [he] at hr
      exact Std.Asymm.asymm _ _ hr hr
  refine List.Perm.eq_of_pairwise (fun a b _ _ hab hba => absurd hba (Std.Asymm.asymm _ _ hab))
    (List.pairwise_map.1 hx) (List.pairwise_map.1 hy) ?_
  exact (List.perm_ext_iff_of_nodup (hnodup hx) (hnodup hy)).2 hm

namespace Visit

variable {α : Type}

theorem trailAll_eq (calls : List (Nat × Visit α)) :
    trailAll calls = calls.flatMap fun call => call.2.trail.map (Prod.map (call.1 :: ·) id) := by
  induction calls with
  | nil => rfl
  | cons call rest ih => rw [trailAll, ih, List.flatMap_cons]

theorem trail_eq (visit : Visit α) : visit.trail = ([], visit.event) :: trailAll visit.calls := by
  cases visit; rfl

theorem filterMap_pick_zipIdx {β : Type} (p : β × Nat → Bool) (f : β × Nat → Visit α) (xs : List β)
    (k : Nat) : ((pick p f (xs.zipIdx k)).zipIdx k).filterMap
      (fun visit => visit.1.map (visit.2, ·)) =
      ((xs.zipIdx k).filter p).map fun x => (x.2, f x) := by
  induction xs generalizing k with
  | nil => rfl
  | cons x xs ih =>
    rw [List.zipIdx_cons, pick_cons, List.zipIdx_cons, List.filterMap_cons, List.filter_cons,
      ih (k + 1)]
    by_cases hp : p (x, k) = true
    · simp only [if_pos hp, Option.map_some, List.map_cons]
    · simp only [if_neg hp, Option.map_none]

/-- The calls on chosen children, numbered by the places of the children. -/
theorem ofChildren_pick {β : Type} (p : β × Nat → Bool) (f : β × Nat → Visit α) (xs : List β) :
    ofChildren (pick p f xs.zipIdx) = (xs.zipIdx.filter p).map fun x => (x.2, f x) :=
  filterMap_pick_zipIdx p f xs 0

end Visit

namespace Node

/-! ## The children that are called -/

/-- The children that a pass calls, with their indices. -/
def callees : Node → List (Nat × Node)
  | leaf .. => []
  | padding _ _ child | align _ _ _ child => [(0, child)]
  | stack _ _ _ items =>
    (items.zipIdx.filter fun item => item.1.node.isLive).map fun item => (item.2, item.1.node)
  | table _ _ cells =>
    (cells.zipIdx.filter isLiveCell).map fun cell => (cell.2, content cell)

theorem mem_callees {node child : Node} {i : Nat} :
    (i, child) ∈ node.callees ↔ node.visitedAt i = some child := by
  cases node with
  | leaf frame content => simp [callees, visitedAt]
  | padding frame insets below => simp [callees, visitedAt, eq_comm]
  | align frame alignment measured below => simp [callees, visitedAt, eq_comm]
  | stack frame style totals items =>
    rw [visitedAt_stack_eq_some_iff]
    simp only [callees, List.mem_map, List.mem_filter, Prod.exists, Prod.mk.injEq,
      List.mem_zipIdx_iff_getElem?]
    constructor
    · rintro ⟨item, j, ⟨hi, hl⟩, rfl, rfl⟩
      exact ⟨item, hi, hl, rfl⟩
    · rintro ⟨item, hi, hl, rfl⟩
      exact ⟨item, i, ⟨hi, hl⟩, rfl, rfl⟩
  | table frame grid cells =>
    rw [visitedAt_table_eq_some_iff]
    simp only [callees, List.mem_map, List.mem_filter, Prod.exists, Prod.mk.injEq]
    constructor
    · rintro ⟨cell, j, ⟨hm, hl⟩, rfl, rfl⟩
      obtain ⟨-, hi, hchild⟩ := exists_of_isLiveCell hm hl
      exact ⟨hi, hchild⟩
    · rintro ⟨hi, hl⟩
      exact ⟨some child, i, ⟨List.mem_zipIdx_iff_getElem?.2 hi, hl⟩, rfl, rfl⟩

theorem pairwise_callees (node : Node) : (node.callees.map Prod.fst).Pairwise (· < ·) := by
  cases node with
  | leaf frame content => exact .nil
  | padding frame insets child => exact List.pairwise_singleton ..
  | align frame alignment measured child => exact List.pairwise_singleton ..
  | stack frame style totals items =>
    rw [callees, List.map_map]
    exact pairwise_filter_zipIdx _ items
  | table frame grid cells =>
    rw [callees, List.map_map]
    exact pairwise_filter_zipIdx _ cells

/-- The child is called if the node has it: a stack and a table pass over collapsed children. -/
def admits (node child : Node) : Bool :=
  match node with
  | leaf .. | padding .. | align .. => true
  | stack .. | table .. => child.isLive

/-- Collapsed children are left out: the node is a stack or a table. -/
def leavesOutCollapsed : Node → Bool
  | stack .. | table .. => true
  | leaf .. | padding .. | align .. => false

theorem admits_eq_false_iff {node child : Node} : node.admits child = false ↔
    node.leavesOutCollapsed = true ∧ child.visibility = .collapsed := by
  have hlive : child.isLive = false ↔ child.visibility = .collapsed := by
    rw [isLive, isCollapsed, Bool.not_eq_false', beq_iff_eq]
  cases node with
  | leaf | padding | align => exact iff_of_false nofun fun h => nomatch h.1
  | stack | table => exact hlive.trans (and_iff_right rfl).symm

theorem map_content_filter (cells : List (Option Node × Nat)) :
    (cells.filter isLiveCell).map content =
      ((cells.map Prod.fst).filterMap id).filter isLive := by
  induction cells with
  | nil => rfl
  | cons cell rest ih =>
    obtain ⟨found, i⟩ := cell
    cases found with
    | none => simpa [isLiveCell] using ih
    | some child => by_cases hl : child.isLive = true <;> simp [isLiveCell, content, hl, ih]

theorem map_snd_callees (node : Node) :
    node.callees.map Prod.snd = node.children.filter node.admits := by
  cases node with
  | leaf frame content => rfl
  | padding frame insets child => rfl
  | align frame alignment measured child => rfl
  | stack frame style totals items =>
    have h := congrArg (fun items => (items.map (·.node)).filter isLive)
      (List.zipIdx_map_fst 0 items)
    rw [List.map_map, List.filter_map] at h
    rw [callees, List.map_map]
    exact h
  | table frame grid cells =>
    have h := map_content_filter cells.zipIdx
    rw [List.zipIdx_map_fst] at h
    rw [callees, List.map_map]
    exact h

theorem eq_callees {node : Node} {calls : List (Nat × Node)}
    (h : (calls.map Prod.fst).Pairwise (· < ·))
    (hm : ∀ i child, (i, child) ∈ calls ↔ node.visitedAt i = some child) : node.callees = calls :=
  eq_of_pairwise_fst (pairwise_callees node) h fun _ => mem_callees.trans (hm ..).symm

/-! ## Nodes in order -/

mutual
/-- The nodes that a pass reaches, each with its path and before the nodes below it. -/
def preorder (root : Node) : List (List Nat × Node) :=
  ([], root) ::
    match root with
    | leaf .. => []
    | padding _ _ child | align _ _ _ child => child.preorder.map (Prod.map (0 :: ·) id)
    | stack _ _ _ items => preorderItems 0 items
    | table _ _ cells => preorderCells 0 cells

/-- The same for the children of a stack from child `i` on. -/
def preorderItems (i : Nat) : List (Item Node) → List (List Nat × Node)
  | [] => []
  | ⟨node, _, _⟩ :: rest =>
    (if node.isLive then node.preorder.map (Prod.map (i :: ·) id) else []) ++
      preorderItems (i + 1) rest

/-- The same for the cells of a table from cell `i` on. -/
def preorderCells (i : Nat) : List (Option Node) → List (List Nat × Node)
  | [] => []
  | none :: rest => preorderCells (i + 1) rest
  | some node :: rest =>
    (if node.isLive then node.preorder.map (Prod.map (i :: ·) id) else []) ++
      preorderCells (i + 1) rest
end

theorem preorderItems_eq (i : Nat) (items : List (Item Node)) :
    preorderItems i items = ((items.zipIdx i).filter fun item => item.1.node.isLive).flatMap
      fun item => item.1.node.preorder.map (Prod.map (item.2 :: ·) id) := by
  induction items generalizing i with
  | nil => rfl
  | cons item rest ih =>
    rw [preorderItems, ih, List.zipIdx_cons, List.filter_cons]
    dsimp only
    split <;> rfl

theorem preorderCells_eq (i : Nat) (cells : List (Option Node)) :
    preorderCells i cells = ((cells.zipIdx i).filter isLiveCell).flatMap
      fun cell => (content cell).preorder.map (Prod.map (cell.2 :: ·) id) := by
  induction cells generalizing i with
  | nil => rfl
  | cons cell rest ih =>
    rw [List.zipIdx_cons, List.filter_cons]
    cases cell with
    | none => rw [preorderCells, ih]; rfl
    | some node =>
      rw [preorderCells, ih, show isLiveCell (some node, i) = node.isLive from rfl]
      split <;> rfl

/-- A node comes first, and then its children with what is below them. -/
theorem preorder_eq (root : Node) : root.preorder = ([], root) ::
    root.callees.flatMap fun call => call.2.preorder.map (Prod.map (call.1 :: ·) id) := by
  cases root with
  | leaf frame content => rw [preorder]; rfl
  | padding frame insets child => rw [preorder, callees, List.flatMap_singleton]
  | align frame alignment measured child => rw [preorder, callees, List.flatMap_singleton]
  | stack frame style totals items => rw [preorder, preorderItems_eq, callees, List.flatMap_map]
  | table frame grid cells => rw [preorder, preorderCells_eq, callees, List.flatMap_map]

/-- The nodes listed are those that a pass reaches. -/
theorem mem_preorder {root node : Node} {path : List Nat} :
    (path, node) ∈ root.preorder ↔ root.reachedAt path = some node := by
  induction path generalizing root with
  | nil =>
    rw [preorder_eq, reachedAt]
    simp [eq_comm]
  | cons i path ih =>
    rw [preorder_eq, reachedAt, Option.bind_eq_some_iff]
    simp only [List.mem_cons, Prod.mk.injEq, reduceCtorEq, false_and, false_or, List.mem_flatMap,
      List.mem_map, Prod.exists, Prod.map, id, List.cons.injEq]
    constructor
    · rintro ⟨j, child, hc, below, node', hb, ⟨rfl, rfl⟩, rfl⟩
      exact ⟨child, mem_callees.1 hc, ih.1 hb⟩
    · rintro ⟨child, hc, hb⟩
      exact ⟨i, child, mem_callees.2 hc, path, node, ih.2 hb, ⟨rfl, rfl⟩, rfl⟩

theorem mem_map_preorder {β : Type} {f : Node → β} {root : Node} {path : List Nat} {value : β} :
    (path, value) ∈ root.preorder.map (Prod.map id f) ↔
      (root.reachedAt path).map f = some value := by
  rw [List.mem_map, Option.map_eq_some_iff]
  constructor
  · rintro ⟨call, hc, he⟩
    cases he
    exact ⟨call.2, mem_preorder.1 hc, rfl⟩
  · rintro ⟨node, hn, rfl⟩
    exact ⟨(path, node), mem_preorder.2 hn, rfl⟩

theorem mem_map_fst_preorder {root : Node} {path : List Nat} :
    path ∈ root.preorder.map Prod.fst ↔ (root.reachedAt path).isSome := by
  rw [List.mem_map, Option.isSome_iff_exists]
  constructor
  · rintro ⟨call, hc, rfl⟩
    exact ⟨call.2, mem_preorder.1 hc⟩
  · rintro ⟨node, hn⟩
    exact ⟨(path, node), mem_preorder.2 hn, rfl⟩

theorem allReached_iff_preorder {P : Node → Prop} {root : Node} :
    root.AllReached P ↔ ∀ call ∈ root.preorder, P call.2 := by
  constructor
  · exact fun h call hc => h _ (reaches_iff.2 ⟨call.1, mem_preorder.1 hc⟩)
  · intro h node hn
    obtain ⟨path, hp⟩ := reaches_iff.1 hn
    exact h _ (mem_preorder.2 hp)

/-- A condition that can be decided of a node can be decided of all nodes reached. -/
instance {P : Node → Prop} [DecidablePred P] (root : Node) : Decidable (root.AllReached P) :=
  decidable_of_iff (∀ call ∈ root.preorder, P call.2) allReached_iff_preorder.symm

/-- No node is listed twice, and each comes before those below it and those to the right. -/
theorem pairwise_preorder (root : Node) : (root.preorder.map Prod.fst).Pairwise (· < ·) := by
  induction root using visited_induct with
  | step root ih =>
    have horder := List.pairwise_map.1 (pairwise_callees root)
    rw [List.pairwise_map, preorder_eq, List.pairwise_cons, List.pairwise_flatMap]
    refine ⟨fun below hb => ?_, fun call hc => ?_, horder.imp fun hlt x hx y hy => ?_⟩
    · obtain ⟨call, -, hb⟩ := List.mem_flatMap.1 hb
      obtain ⟨below, -, rfl⟩ := List.mem_map.1 hb
      exact List.nil_lt_cons ..
    · have hchild := ih call.2 (mem_visited_iff.2 ⟨call.1, mem_callees.1 hc⟩)
      rw [List.pairwise_map] at hchild ⊢
      exact hchild.imp fun hlt => List.cons_lt_cons_iff.2 (.inr ⟨rfl, hlt⟩)
    · obtain ⟨x, -, rfl⟩ := List.mem_map.1 hx
      obtain ⟨y, -, rfl⟩ := List.mem_map.1 hy
      exact List.cons_lt_cons_iff.2 (.inl hlt)

/-! ## What a pass leaves alone -/

/-- The child with an index, whether a pass calls it or not. -/
def childAt (node : Node) (i : Nat) : Option Node :=
  match node with
  | leaf .. => none
  | padding _ _ child | align _ _ _ child => if i = 0 then some child else none
  | stack _ _ _ items => items[i]?.map (·.node)
  | table _ _ cells => cells[i]?.join

/-- The node at the end of a path, whether a pass reaches it or not. -/
def nodeAt (root : Node) : List Nat → Option Node
  | [] => some root
  | i :: path => (root.childAt i).bind fun child => child.nodeAt path

theorem visitedAt_eq (node : Node) (i : Nat) :
    node.visitedAt i = (node.childAt i).filter node.admits := by
  cases node with
  | leaf frame content => rfl
  | padding frame insets child => rw [visitedAt, childAt]; split <;> rfl
  | align frame alignment measured child => rw [visitedAt, childAt]; split <;> rfl
  | stack frame style totals items => rfl
  | table frame grid cells => rfl

theorem visitedAt_eq_some_iff {node child : Node} {i : Nat} :
    node.visitedAt i = some child ↔ node.childAt i = some child ∧ node.admits child = true := by
  rw [visitedAt_eq, Option.filter_eq_some_iff]

theorem admits_congr (node : Node) {child child' : Node} (h : child.isLive = child'.isLive) :
    node.admits child = node.admits child' := by
  cases node with
  | leaf | padding | align => rfl
  | stack | table => exact h

/-- If the children that are called are replaced by ones that take part as they did, the same ones
are called afterwards. -/
theorem visitedAt_of_childAt {before after : Node} {next : Nat → Node}
    (hadmits : after.admits = before.admits)
    (hlive : ∀ i child, before.visitedAt i = some child → (next i).isLive = child.isLive)
    (h : ∀ i, after.childAt i =
      if (before.visitedAt i).isSome then some (next i) else before.childAt i) (i : Nat) :
    after.visitedAt i = (before.visitedAt i).map fun _ => next i := by
  rw [visitedAt_eq, hadmits, h]
  cases hv : before.visitedAt i with
  | none => rw [if_neg (by simp), ← visitedAt_eq, hv]; rfl
  | some child =>
    have hnext := before.admits_congr (hlive i child hv)
    rw [(visitedAt_eq_some_iff.1 hv).2] at hnext
    simp [hnext]

section Retain

variable {keep unreached : Keep}

theorem admits_retain (node : Node) : (node.retain keep unreached).admits = node.admits := by
  cases node <;> rfl

theorem observer?_retain (node : Node) :
    (node.retain keep unreached).observer? = node.observer? := by
  cases node with
  | leaf frame content =>
    exact Keep.apply_leaf Leaf.observer? (fun content _ => by cases content <;> rfl) keep content
  | padding | align | stack | table => rfl

theorem name_retain (node : Node) : (node.retain keep unreached).name = node.name := by
  cases node with
  | leaf frame content => exact Keep.apply_leaf Leaf.name Leaf.name_place keep content
  | padding | align | stack | table => rfl

theorem childAt_retain (node : Node) (i : Nat) : (node.retain keep unreached).childAt i =
    (node.childAt i).map fun child =>
      child.retain (if node.admits child then keep else unreached) unreached := by
  cases node with
  | leaf frame content => rfl
  | padding frame insets child => rw [retain, childAt, childAt]; split <;> rfl
  | align frame alignment measured child => rw [retain, childAt, childAt]; split <;> rfl
  | stack frame style totals items =>
    rw [retain, retainItems_eq, childAt, childAt, List.getElem?_map]
    cases items[i]? <;> rfl
  | table frame grid cells =>
    rw [retain, retainCells_eq, childAt, childAt, List.getElem?_map]
    cases cells[i]? with
    | none => rfl
    | some cell => cases cell <;> rfl

end Retain

/-- The trees differ in caches of nodes that a pass reaches, if at all. -/
def ReachEqual (a b : Node) : Prop :=
  a.retain .nothing .everything = b.retain .nothing .everything

namespace ReachEqual

variable {a b c child : Node} {i : Nat} {path : List Nat}

theorem symm (h : a.ReachEqual b) : b.ReachEqual a := Eq.symm h

theorem trans (h : a.ReachEqual b) (h' : b.ReachEqual c) : a.ReachEqual c := Eq.trans h h'

theorem isLive (h : a.ReachEqual b) : b.isLive = a.isLive := (isLive_eq_of_retain_eq h).symm

theorem admits (h : a.ReachEqual b) : b.admits = a.admits := by
  have hadmits := congrArg Node.admits h
  rw [admits_retain, admits_retain] at hadmits
  exact hadmits.symm

theorem observer? (h : a.ReachEqual b) : b.observer? = a.observer? := by
  have hobserver := congrArg Node.observer? h
  rw [observer?_retain, observer?_retain] at hobserver
  exact hobserver.symm

theorem name (h : a.ReachEqual b) : b.name = a.name := by
  have hname := congrArg Node.name h
  rw [name_retain, name_retain] at hname
  exact hname.symm

theorem map_childAt (h : a.ReachEqual b) (i : Nat) :
    (b.childAt i).map (fun child => child.retain (if a.admits child then .nothing else .everything)
      .everything) =
    (a.childAt i).map fun child => child.retain (if a.admits child then .nothing else .everything)
      .everything := by
  have hchild := congrArg (childAt · i) h
  simp only [childAt_retain, h.admits] at hchild
  exact hchild.symm

/-- The same children are called. -/
theorem visitedAt_eq_some (h : a.ReachEqual b) (hv : a.visitedAt i = some child) :
    ∃ child', b.visitedAt i = some child' ∧ child.ReachEqual child' := by
  obtain ⟨hc, ha⟩ := visitedAt_eq_some_iff.1 hv
  have hchild := h.map_childAt i
  rw [hc, Option.map_some, Option.map_eq_some_iff] at hchild
  obtain ⟨child', hc', hsame⟩ := hchild
  have ha' := a.admits_congr (isLive_eq_of_retain_eq hsame)
  rw [ha] at ha'
  rw [if_pos ha', if_pos ha] at hsame
  exact ⟨child', visitedAt_eq_some_iff.2 ⟨hc', h.admits ▸ ha'⟩, hsame.symm⟩

/-- What is not called is the same. -/
theorem visitedAt_eq_none (h : a.ReachEqual b) (hv : a.visitedAt i = none) :
    b.visitedAt i = none ∧ b.childAt i = a.childAt i := by
  have hchild := h.map_childAt i
  cases hc : a.childAt i with
  | none =>
    rw [hc, Option.map_none, Option.map_eq_none_iff] at hchild
    rw [visitedAt_eq, hchild]
    exact ⟨rfl, rfl⟩
  | some child =>
    have ha : a.admits child ≠ true := fun ha => by
      rw [visitedAt_eq_some_iff.2 ⟨hc, ha⟩] at hv
      cases hv
    rw [hc, Option.map_some, Option.map_eq_some_iff] at hchild
    obtain ⟨child', hc', hsame⟩ := hchild
    have ha' := a.admits_congr (isLive_eq_of_retain_eq hsame) ▸ ha
    rw [if_neg ha', if_neg ha, retain_everything, retain_everything] at hsame
    rw [visitedAt_eq, hc', h.admits, hsame, Option.filter_some, if_neg ha]
    exact ⟨rfl, rfl⟩

/-- Along a path of nodes that a pass reaches, the trees differ in caches at most. -/
theorem reachedAt_eq_some (h : a.ReachEqual b) {node : Node}
    (hp : a.reachedAt path = some node) :
    ∃ node', b.reachedAt path = some node' ∧ node.ReachEqual node' := by
  induction path generalizing a b with
  | nil => cases hp; exact ⟨b, rfl, h⟩
  | cons i path ih =>
    obtain ⟨child, hv, hp⟩ := Option.bind_eq_some_iff.1 hp
    obtain ⟨child', hv', hchild⟩ := h.visitedAt_eq_some hv
    rw [reachedAt, hv']
    exact ih hchild hp

/-- What a pass does not reach is the same. -/
theorem reachedAt_eq_none (h : a.ReachEqual b) (hp : a.reachedAt path = none) :
    b.reachedAt path = none ∧ b.nodeAt path = a.nodeAt path := by
  induction path generalizing a b with
  | nil => cases hp
  | cons i path ih =>
    rw [reachedAt, nodeAt, nodeAt]
    cases hv : a.visitedAt i with
    | none =>
      -- the path leaves what is reached here, and all below is the same
      obtain ⟨hv', hchild⟩ := h.visitedAt_eq_none hv
      rw [hv', hchild]
      exact ⟨rfl, rfl⟩
    | some child =>
      rw [reachedAt, hv] at hp
      obtain ⟨child', hv', hchild⟩ := h.visitedAt_eq_some hv
      rw [hv', (visitedAt_eq_some_iff.1 hv).1, (visitedAt_eq_some_iff.1 hv').1]
      exact ih hchild hp

theorem isSome_reachedAt (h : a.ReachEqual b) (path : List Nat) :
    (b.reachedAt path).isSome = (a.reachedAt path).isSome := by
  cases hp : a.reachedAt path with
  | none => rw [(h.reachedAt_eq_none hp).1]
  | some node =>
    obtain ⟨node', hp', -⟩ := h.reachedAt_eq_some hp
    rw [hp']
    rfl

/-- What is no cache is listed in the same order. -/
theorem map_preorder (h : a.ReachEqual b) {β : Type} {f : Node → β}
    (hf : ∀ {node node' : Node}, node.ReachEqual node' → f node' = f node) :
    b.preorder.map (Prod.map id f) = a.preorder.map (Prod.map id f) := by
  have hkeys (root : Node) :
      ((root.preorder.map (Prod.map id f)).map Prod.fst).Pairwise (· < ·) := by
    rw [List.map_map]
    exact pairwise_preorder root
  refine eq_of_pairwise_fst (hkeys b) (hkeys a) fun ⟨path, value⟩ => ?_
  rw [mem_map_preorder, mem_map_preorder]
  cases hp : a.reachedAt path with
  | none => rw [(h.reachedAt_eq_none hp).1]
  | some node =>
    obtain ⟨node', hp', hsame⟩ := h.reachedAt_eq_some hp
    rw [hp', Option.map_some, Option.map_some, hf hsame]

end ReachEqual

end Node

end BoxLayout
