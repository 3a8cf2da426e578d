import BoxLayout.Proofs.Conditions
import BoxLayout.Proofs.Outcome

/-!
# Least extents can always be found

`minExtent_isOk`: in a tree whose reached nodes are safe, the query for a least extent has an answer
whatever length the other axis has, unbounded included. What each container asks of its children
is again a length.
-/

namespace BoxLayout

namespace Node

theorem itemExtents_isOk {axis : Axis} {other : Int} {items : List (Item Node)}
    (h : ∀ item ∈ items, item.node.isLive = true →
      ∃ least, item.node.minExtent axis other = .ok least) :
    ∃ extents, itemExtents axis other items = .ok extents := by
  rw [itemExtents_eq]
  refine mapM_isOk fun item hi => ?_
  obtain ⟨hm, hl⟩ := List.mem_filter.1 hi
  exact h item hm hl

theorem itemExtents_of_forall {axis : Axis} {other : Int} {items : List (Item Node)}
    {least : Item Node → Int} (h : ∀ item ∈ items, item.node.isLive = true →
      item.node.minExtent axis other = .ok (least item)) :
    itemExtents axis other items = .ok ((items.filter (·.node.isLive)).map least) := by
  have hvalue : ∀ item ∈ items.filter (·.node.isLive),
      item.node.minExtent axis other = .ok (least item) := fun item hm =>
    h item (List.mem_filter.1 hm).1 (List.mem_filter.1 hm).2
  rw [itemExtents_eq, mapM_eq_ok_iff]
  refine ⟨fun item hm => by rw [hvalue item hm, value_ok], List.map_congr_left fun item hm => ?_⟩
  rw [hvalue item hm, value_ok]

theorem itemExtents_congr {axis : Axis} {a b : Int} {items : List (Item Node)}
    (h : ∀ item ∈ items, item.node.isLive = true →
      item.node.minExtent axis a = item.node.minExtent axis b) :
    itemExtents axis a items = itemExtents axis b items := by
  induction items with
  | nil => rfl
  | cons item rest ih =>
    obtain ⟨hitem, hrest⟩ := List.forall_mem_cons.1 h
    rw [itemExtents, itemExtents, ih hrest]
    split
    · rename_i hl
      rw [hitem hl]
    · rfl

theorem cellExtents_isOk {axis : Axis} {other : Int} {cells : List (Option Node)}
    (h : ∀ child, some child ∈ cells → child.isLive = true →
      ∃ least, child.minExtent axis other = .ok least) :
    ∃ extents, cellExtents axis other [] cells = .ok extents := by
  rw [cellExtents_eq]
  refine mapM_isOk fun cell hc => ?_
  cases cell with
  | none => exact ⟨none, rfl⟩
  | some child =>
    by_cases hl : child.isLive = true
    · obtain ⟨least, he⟩ := h child hc hl
      exact ⟨some least, by rw [cellExtent, if_pos hl, he]; rfl⟩
    · exact ⟨none, by rw [cellExtent, if_neg hl]⟩

theorem slice_isOk (style : StackStyle) {main : Int} (hm : Extent.IsLength main) (count : Nat) :
    ∃ part, style.slice main count = .ok part ∧ Extent.IsLength part := by
  unfold StackStyle.slice
  split
  · exact Extent.scale_one hm (by omega)
  · exact ⟨_, rfl, Extent.isLength_inf⟩

theorem share_isOk (grid : Grid) (axis : Axis) {v : Int} (hv : Extent.IsLength v) :
    ∃ part, grid.share axis v = .ok part ∧ Extent.IsLength part :=
  Extent.scale_one hv (by omega)

theorem minExtent_isOk {root : Node} (h : root.AllReached IsSafe) :
    ∀ axis other, Extent.IsLength other → ∃ least, root.minExtent axis other = .ok least := by
  refine h.induct (motive := fun node => ∀ axis other, Extent.IsLength other →
    ∃ least, node.minExtent axis other = .ok least) fun node safe ih axis other ho => ?_
  cases node with
  | leaf frame content =>
    rw [minExtent]
    exact safe.minExtent axis other
  | padding frame insets child =>
    obtain ⟨rest, hr, hl⟩ := Insets.IsProper.inner_isOk safe axis.flip ho
    obtain ⟨least, hc⟩ := ih child (by simp [visited]) axis rest hl
    rw [minExtent, hr]
    simp only [bind_eq_ok_iff]
    exact ⟨_, rest, rfl, least, hc, _, Insets.IsProper.total_eq safe axis, rfl⟩
  | align frame alignment measured child =>
    obtain ⟨least, hc⟩ := ih child (by simp [visited]) axis other ho
    rw [minExtent, hc]
    exact ⟨_, rfl⟩
  | stack frame style totals items =>
    have hi : ∀ main, Extent.IsLength main →
        ∃ extents, itemExtents axis main items = .ok extents := fun main hm =>
      itemExtents_isOk fun item hi hl => ih _ (mem_visited_stack.2 ⟨item, hi, hl, rfl⟩) axis main hm
    rw [minExtent]
    split
    · obtain ⟨extents, he⟩ := hi other ho
      rw [he]
      exact ⟨_, rfl⟩
    · obtain ⟨main, hs, hm⟩ := slice_isOk style ho (liveCount items)
      obtain ⟨extents, he⟩ := hi main hm
      simp only [bind_eq_ok_iff]
      exact ⟨_, main, hs, extents, he, rfl⟩
  | table frame grid cells =>
    obtain ⟨part, hs, hp⟩ := share_isOk grid axis.flip ho
    obtain ⟨extents, he⟩ := cellExtents_isOk fun child hc hl =>
      ih child (mem_visited_table.2 ⟨hc, hl⟩) axis part hp
    rw [minExtent, if_neg (by simpa [IsSafe] using safe)]
    simp only [bind_eq_ok_iff]
    exact ⟨_, part, hs, extents, he, rfl⟩

end Node

end BoxLayout
