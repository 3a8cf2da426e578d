import BoxLayout.Node.Measure
import BoxLayout.Proofs.Lengths
import BoxLayout.Proofs.Outcome

/-!
# Lists over the children of a container

While a stack is measured, everything known about its children is a list as long as the list of
children, with nothing for those that are left out. Each of these lists is a function of the child:
`pick p f items` has `f item` for the children with `p`. The lemmas say so of what the steps of a
measuring give for such lists.
-/

namespace BoxLayout

section Pick

variable {α β γ : Type}

/-- `f x` for those elements that satisfy `p`. -/
def pick (p : α → Bool) (f : α → β) (xs : List α) : List (Option β) :=
  xs.map fun x => if p x then some (f x) else none

@[simp] theorem length_pick (p : α → Bool) (f : α → β) (xs : List α) :
    (pick p f xs).length = xs.length := List.length_map ..

theorem map_pick (p : α → Bool) (f : α → β) (g : β → γ) (xs : List α) :
    (pick p f xs).map (Option.map g) = pick p (g ∘ f) xs := by
  simp only [pick, List.map_map]
  exact List.map_congr_left fun x _ => by simp only [Function.comp]; split <;> rfl

theorem filterMap_pick (p : α → Bool) (f : α → β) (g : β → γ) (xs : List α) :
    (pick p f xs).filterMap (Option.map g) = (xs.filter p).map fun x => g (f x) := by
  induction xs with
  | nil => rfl
  | cons x xs ih =>
    simp only [pick, List.map_cons, List.filterMap_cons, List.filter_cons] at ih ⊢
    by_cases hp : p x = true
    · simp [hp, ih]
    · simp [hp, ih]

theorem forall_mem_map_filter {p : α → Bool} {f : α → β} {xs : List α} {Q : β → Prop} :
    (∀ y ∈ (xs.filter p).map f, Q y) ↔ ∀ x ∈ xs, p x = true → Q (f x) := by
  simp only [List.forall_mem_map, List.mem_filter, and_imp]

theorem mem_pick {p : α → Bool} {f : α → β} {xs : List α} {y : β} :
    some y ∈ pick p f xs ↔ ∃ x ∈ xs, p x = true ∧ f x = y := by
  simp only [pick, List.mem_map]
  refine exists_congr fun x => and_congr_right fun _ => ?_
  by_cases hp : p x = true <;> simp [hp]

theorem pick_congr {p : α → Bool} {f g : α → β} {xs : List α}
    (h : ∀ x ∈ xs, p x = true → f x = g x) : pick p f xs = pick p g xs :=
  List.map_congr_left fun x hx => by
    by_cases hp : p x = true
    · simp [hp, h x hx hp]
    · simp [hp]

theorem zip_map_pick (p : α → Bool) (f : α → β) (g : α → γ) (xs : List α) :
    (xs.map g).zip (pick p f xs) = xs.map fun x => (g x, if p x then some (f x) else none) :=
  List.zip_map'

/-- Where the second list has something, it takes the place of the first. -/
theorem zipWith_orElse_pick {p q : α → Bool} (hqp : ∀ x, q x = true → p x = true) (f g : α → β)
    (xs : List α) :
    List.zipWith (fun again once => again <|> once) (pick q g xs) (pick p f xs) =
      pick p (fun x => if q x then g x else f x) xs := by
  simp only [pick, List.zipWith_map, List.zipWith_self]
  refine List.map_congr_left fun x _ => ?_
  by_cases hq : q x = true
  · simp [hq, hqp x hq]
  · simp [hq]

/-- The same for an operation that may fail. -/
def pickM (p : α → Bool) (f : α → Except Fault β) (xs : List α) :
    Except Fault (List (Option β)) :=
  xs.mapM fun x => if p x then some <$> f x else .ok none

theorem pickM_cons (p : α → Bool) (f : α → Except Fault β) (x : α) (xs : List α) :
    pickM p f (x :: xs) =
      if p x then f x >>= fun y => (some y :: ·) <$> pickM p f xs
      else (none :: ·) <$> pickM p f xs := by
  rw [pickM, List.mapM_cons]
  by_cases hp : p x = true
  · rw [if_pos hp, if_pos hp]
    cases f x <;> rfl
  · rw [if_neg hp, if_neg hp]
    rfl

theorem pick_cons (p : α → Bool) (f : α → β) (x : α) (xs : List α) :
    pick p f (x :: xs) = (if p x then some (f x) else none) :: pick p f xs := rfl

theorem pickM_eq_ok_iff [Inhabited β] {p : α → Bool} {f : α → Except Fault β} {xs : List α}
    {ys : List (Option β)} : pickM p f xs = .ok ys ↔
      ∃ g, (∀ x ∈ xs, p x = true → f x = .ok (g x)) ∧ ys = pick p g xs := by
  constructor
  · refine fun h => ⟨fun x => value (f x), ?_⟩
    induction xs generalizing ys with
    | nil => cases h; simp [pick]
    | cons x xs ih =>
      rw [pickM_cons] at h
      rw [List.forall_mem_cons, pick_cons]
      by_cases hp : p x = true
      · rw [if_pos hp] at h ⊢
        obtain ⟨y, hy, h⟩ := bind_eq_ok_iff.1 h
        obtain ⟨rest, hr, rfl⟩ := map_eq_ok_iff.1 h
        obtain ⟨hxs, rfl⟩ := ih hr
        simpa [hy] using hxs
      · rw [if_neg hp] at h ⊢
        obtain ⟨rest, hr, rfl⟩ := map_eq_ok_iff.1 h
        obtain ⟨hxs, rfl⟩ := ih hr
        exact ⟨⟨fun h => absurd h hp, hxs⟩, rfl⟩
  · rintro ⟨g, h, rfl⟩
    induction xs with
    | nil => rfl
    | cons x xs ih =>
      obtain ⟨hx, hxs⟩ := List.forall_mem_cons.1 h
      rw [pickM_cons, pick_cons, ih hxs]
      by_cases hp : p x = true
      · rw [if_pos hp, if_pos hp, hx hp]
        rfl
      · rw [if_neg hp, if_neg hp]
        rfl

/-- If what is done to each of those elements comes out well, so does the whole. -/
theorem Outcome.pickM [Inhabited β] {cause : Fault → Prop} {post : α → β → Prop} {p : α → Bool}
    {f : α → Except Fault β} {xs : List α}
    (h : ∀ x ∈ xs, p x = true → Outcome cause (post x) (f x)) :
    Outcome cause (fun ys => ∃ g, (∀ x ∈ xs, p x = true → post x (g x)) ∧ ys = pick p g xs)
      (pickM p f xs) := by
  refine Outcome.mono (P := fun ys => (∀ x ∈ xs, p x = true → post x (value (f x))) ∧
    ys = pick p (fun x => value (f x)) xs) ?_ (fun _ => id) fun ys hys => ⟨_, hys⟩
  induction xs with
  | nil => exact .ok (by simp [pick])
  | cons x xs ih =>
    obtain ⟨hx, hxs⟩ := List.forall_mem_cons.1 h
    have hrest := ih hxs
    rw [pickM_cons, List.forall_mem_cons, pick_cons]
    by_cases hp : p x = true
    · rw [if_pos hp, if_pos hp]
      cases hr : f x with
      | error fault => exact .fault (hr ▸ hx hp).of_error
      | ok y =>
        have hy := (hr ▸ hx hp).of_ok
        refine hrest.map ?_
        rintro _ ⟨hpost, rfl⟩
        exact ⟨⟨fun _ => hy, hpost⟩, rfl⟩
    · rw [if_neg hp, if_neg hp]
      refine hrest.map ?_
      rintro _ ⟨hpost, rfl⟩
      exact ⟨⟨fun h => absurd h hp, hpost⟩, rfl⟩

end Pick

/-! ## The children of a stack -/

namespace StackStyle

variable {α : Type}

theorem extentsAlong_pick (axis : Axis) (p : α → Bool) (f : α → Size) (xs : List α) :
    extentsAlong axis (pick p f xs) = (xs.filter p).map fun x => (f x).along axis :=
  filterMap_pick p f (·.along axis) xs

/-- A child of weight `flex` shares in the room `extra`. -/
def sharesIn (extra : Int) (flex : Nat) : Bool := 0 < extra && 0 < flex

theorem sharesIn_iff {extra : Int} {flex : Nat} :
    sharesIn extra flex = true ↔ 0 < extra ∧ 0 < flex := by simp [sharesIn]

theorem secondOffers_pick (style : StackStyle) (offer : Constraints) (extra : Int)
    (totalFlex : Nat) (p : α → Bool) (flex : α → Nat) (size : α → Size) (xs : List α) :
    style.secondOffers offer extra totalFlex ((xs.map flex).zip (pick p size xs)) =
      pickM (fun x => p x && sharesIn extra (flex x)) (fun x =>
        style.enlarge offer extra totalFlex (flex x) ((size x).along style.axis)) xs := by
  rw [secondOffers, zip_map_pick, pickM, List.mapM_map]
  refine congrArg (List.mapM · xs) (funext fun x => ?_)
  by_cases hp : p x = true
  · by_cases hs : 0 < extra ∧ 0 < flex x
    · simp only [Function.comp, hp, hs, sharesIn, if_true, and_self, decide_true, Bool.and_self]
      cases style.enlarge offer extra totalFlex (flex x) ((size x).along style.axis) <;> rfl
    · have hn : sharesIn extra (flex x) = false := by simpa [sharesIn] using hs
      simp only [Function.comp, hp, hs, hn, if_true, if_false, Bool.and_false, Bool.false_eq_true]
      rfl
  · simp only [Function.comp, hp, if_false, Bool.false_and, Bool.false_eq_true]
    rfl

/-- The extents of the children that were measured again, before and after. -/
theorem extentOf_pick (style : StackStyle) {p q : α → Bool} (hqp : ∀ x, q x = true → p x = true)
    (f g : α → Size) (xs : List α) :
    style.extentOf (pick p f xs) (pick q g xs) =
      ((xs.filter q).map fun x => ((f x).along style.axis, (g x).along style.axis)).foldlM replaceIn
        (Extent.total ((xs.filter p).map fun x => (f x).along style.axis)) := by
  have hc {k : Option Size × Option Size → Option (Int × Int)}
      (hsome : ∀ old new, k (some old, some new) =
        some (old.along style.axis, new.along style.axis)) (hnone : ∀ old, k (old, none) = none) :
      ((pick p f xs).zip (pick q g xs)).filterMap k =
        (xs.filter q).map fun x => ((f x).along style.axis, (g x).along style.axis) := by
    induction xs with
    | nil => rfl
    | cons x xs ih =>
      rw [pick_cons, pick_cons, List.zip_cons_cons, List.filterMap_cons, List.filter_cons, ih]
      by_cases hq : q x = true
      · rw [if_pos (hqp x hq), if_pos hq, if_pos hq, hsome, List.map_cons]
      · rw [if_neg hq, if_neg hq, hnone]
  rw [extentOf, extentsAlong_pick, hc (fun _ _ => rfl)]
  rintro ⟨_ | _⟩ <;> rfl

theorem breadthOf_pick (style : StackStyle) (offer : Constraints) (p q : α → Bool)
    (f g : α → Size) (xs : List α) :
    style.breadthOf offer (pick p f xs) (pick q g xs) =
      if style.align = .stretch then (offer.along style.axis.flip).hi
      else (((xs.filter p).map fun x => (f x).along style.axis.flip) ++
        (xs.filter q).map fun x => (g x).along style.axis.flip).foldl max 0 := by
  have ha (first second : List (Option Size)) : extentsAlong style.axis.flip (first ++ second) =
      extentsAlong style.axis.flip first ++ extentsAlong style.axis.flip second :=
    List.filterMap_append
  rw [breadthOf, ha, extentsAlong_pick, extentsAlong_pick]

end StackStyle

instance : Inhabited Measured := ⟨⟨default, .mk "" ⟨default, default⟩ []⟩⟩

theorem Measured.sizes_pick {α : Type} (p : α → Bool) (f : α → Measured) (xs : List α) :
    sizes (pick p f xs) = pick p (fun x => (f x).size) xs := map_pick p f size xs

theorem Visit.sizeAll_ofChildren {α : Type} (visits : List (Option (Visit α))) :
    sizeAll (ofChildren visits) = (visits.filterMap (Option.map size)).sum := by
  have hfrom : ∀ k, sizeAll ((visits.zipIdx k).filterMap fun visit => visit.1.map (visit.2, ·)) =
      (visits.filterMap (Option.map size)).sum := by
    induction visits with
    | nil => exact fun _ => rfl
    | cons visit rest ih =>
      intro k
      cases visit with
      | none => exact ih (k + 1)
      | some visit => exact congrArg (visit.size + ·) (ih (k + 1))
  exact hfrom 0

/-- The number of calls on the children that were measured. -/
theorem Measured.sizeAll_calls (children : List (Option Measured)) :
    Visit.sizeAll (calls children) =
      ((children.map (Option.map (·.visit.size))).filterMap id).sum := by
  rw [calls, Visit.sizeAll_ofChildren, List.filterMap_map, List.filterMap_map]
  congr 2
  funext child
  cases child <;> rfl

theorem Measured.sizeAll_calls_pick {α : Type} (p : α → Bool) (f : α → Measured) (xs : List α) :
    Visit.sizeAll (calls (pick p f xs)) = ((xs.filter p).map fun x => (f x).visit.size).sum := by
  rw [sizeAll_calls, List.filterMap_map]
  exact congrArg List.sum (filterMap_pick p f _ xs)

namespace Node

/-- Each child is made of what the offer is made of. -/
theorem measureItems_map_pick {α : Type} (r : α → Item Node) (p : α → Bool)
    (offer : α → Constraints) (xs : List α) :
    measureItems (xs.map r) (pick p offer xs) =
      pickM p (fun x => (r x).node.measure (offer x)) xs := by
  induction xs with
  | nil => rfl
  | cons x xs ih =>
    rw [pick_cons, pickM_cons, List.map_cons]
    by_cases hp : p x = true
    · rw [if_pos hp, if_pos hp, measureItems, ih]
      cases (r x).node.measure (offer x) <;> cases pickM p _ xs <;> rfl
    · rw [if_neg hp, if_neg hp, measureItems, ih]
      cases pickM p _ xs <;> rfl

theorem measureItems_pick (p : Item Node → Bool) (offer : Item Node → Constraints)
    (items : List (Item Node)) :
    measureItems items (pick p offer items) =
      pickM p (fun item => item.node.measure (offer item)) items := by
  have h := measureItems_map_pick id p offer items
  rwa [List.map_id] at h

theorem offerAll_eq_pick (offer : Constraints) (items : List (Item Node)) :
    offerAll offer items = pick (·.node.isLive) (fun _ => offer) items := rfl

end Node

theorem zipWith_settle_pick (p : Item Node → Bool) (f : Item Node → Measured)
    (items : List (Item Node)) :
    List.zipWith Measured.settle items (pick p f items) =
      items.map fun item => if p item then ⟨(f item).node, item.flex, (f item).size⟩ else item := by
  rw [pick, List.zipWith_map_right, List.zipWith_self]
  refine List.map_congr_left fun item _ => ?_
  by_cases hp : p item = true
  · simp [hp, Measured.settle]
  · simp [hp, Measured.settle]

/-! ## The cells of a table -/

namespace Node

/-- A numbered cell takes part in the layout of its table. -/
def isLiveCell (cell : Option Node × Nat) : Bool := cell.1.any isLive

/-- What a numbered cell holds. -/
def content (cell : Option Node × Nat) : Node := cell.1.getD default

theorem exists_of_isLiveCell {cells : List (Option Node)} {cell : Option Node × Nat}
    (hm : cell ∈ cells.zipIdx) (hl : isLiveCell cell = true) :
    cell.1 = some (content cell) ∧ cells[cell.2]? = some (some (content cell)) ∧
      (content cell).isLive = true := by
  obtain ⟨found, i⟩ := cell
  have hi := List.mem_zipIdx_iff_getElem?.1 hm
  cases found with
  | none => cases hl
  | some node => exact ⟨rfl, hi, hl⟩

theorem getElem?_pick_cell {β : Type} {f : Option Node × Nat → β} {cells : List (Option Node)}
    {i : Nat} {cell : Option Node} (hi : cells[i]? = some cell)
    (hl : isLiveCell (cell, i) = true) :
    (pick isLiveCell f cells.zipIdx)[i]? = some (some (f (cell, i))) := by
  simp [pick, hi, hl]

theorem cellExtents_pick (axis : Axis) (other : Int) (cells : List (Option Node)) :
    cellExtents axis other [] cells =
      pickM isLiveCell (fun cell => (content cell).minExtent axis other) cells.zipIdx := by
  have hcells : cells.mapM (cellExtent axis other) =
      cells.zipIdx.mapM fun cell => cellExtent axis other cell.1 := by
    have h := List.mapM_map (f := Prod.fst) (g := cellExtent axis other) (l := cells.zipIdx)
    rwa [List.zipIdx_map_fst] at h
  rw [cellExtents_eq, hcells, pickM]
  refine congrArg (List.mapM · cells.zipIdx) (funext fun cell => ?_)
  obtain ⟨found, i⟩ := cell
  cases found <;> rfl

theorem measureCells_map_pick (r : Node → Node) (hr : ∀ child, (r child).isLive = child.isLive)
    (offer : Nat → Constraints) (cells : List (Option Node)) :
    measureCells offer 0 [] (cells.map (Option.map r)) =
      pickM isLiveCell (fun cell => (r (content cell)).measure (offer cell.2)) cells.zipIdx := by
  rw [measureCells_eq, List.zipIdx_map, List.mapM_map, pickM]
  refine congrArg (List.mapM · cells.zipIdx) (funext fun cell => ?_)
  obtain ⟨found, i⟩ := cell
  cases found with
  | none => rfl
  | some child =>
    simp only [Function.comp, Prod.map, Option.map_some, measureCell, hr]
    rfl

theorem measureCells_pick (offer : Nat → Constraints) (cells : List (Option Node)) :
    measureCells offer 0 [] cells =
      pickM isLiveCell (fun cell => (content cell).measure (offer cell.2)) cells.zipIdx := by
  have h := measureCells_map_pick id (fun _ => rfl) offer cells
  rwa [Option.map_id, List.map_id] at h

theorem zipWith_pick_zipIdx {β γ : Type} (f : Option Node × Nat → β)
    (g : Option Node → Option β → γ) (cells : List (Option Node)) :
    List.zipWith g cells (pick isLiveCell f cells.zipIdx) =
      cells.zipIdx.map fun cell => g cell.1 (if isLiveCell cell then some (f cell) else none) := by
  have h := congrArg (List.zipWith g · (pick isLiveCell f cells.zipIdx))
    (List.zipIdx_map_fst 0 cells).symm
  refine h.trans ?_
  rw [pick, List.zipWith_map, List.zipWith_self]

theorem zipWith_settleCell_pick (f : Option Node × Nat → Measured) (cells : List (Option Node)) :
    List.zipWith Measured.settleCell cells (pick isLiveCell f cells.zipIdx) =
      cells.zipIdx.map fun cell => if isLiveCell cell then some (f cell).node else cell.1 := by
  rw [zipWith_pick_zipIdx]
  refine List.map_congr_left fun cell _ => ?_
  by_cases hp : isLiveCell cell = true
  · simp [hp, Measured.settleCell]
  · simp [hp, Measured.settleCell]

end Node

end BoxLayout
