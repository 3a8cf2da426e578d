import BoxLayout.Proofs.Children
import BoxLayout.Proofs.Limits

/-!
# What a stack offers its children

Under normalized constraints no step of a stack's sharing out can fail, whatever its children
answer: the constraints offered are normalized (`offer_isOk`), the room to share is what is missing
to a limit above the total (`spare_eq`, `add_room_le`), and a child is enlarged by its share of it
(`enlarge_eq`).
-/

namespace BoxLayout

namespace StackStyle

variable {style : StackStyle} {given : Constraints}

/-- The limits offered across the axis. -/
def across (style : StackStyle) (limits : Limits) (breadth : Int) : Limits :=
  if style.align = .stretch then .exactly (limits.nearest breadth) else .upTo limits.hi

theorem isNormalized_across {limits : Limits} (h : limits.isNormalized = true) (breadth : Int) :
    (style.across limits breadth).isNormalized = true := by
  unfold across
  split
  · exact Limits.isNormalized_exactly (Limits.isLength_nearest h breadth)
  · exact Limits.isNormalized_upTo (Limits.isLength_hi h)

theorem offerMain_isOk (style : StackStyle) (hn : given.isNormalized = true) {count : Nat}
    (hc : 0 < count) :
    ∃ limits, style.offerMain given count = .ok (given.setAlong style.axis limits) ∧
      limits.isNormalized = true ∧ (style.isHomogeneous = false → limits = .free) := by
  have hi := Limits.isLength_hi (Constraints.isNormalized_iff.1 hn style.axis)
  unfold offerMain
  dsimp only
  split
  · rename_i h
    obtain ⟨part, hp, -⟩ := Extent.scale_one hi (show 0 < (count : Int) by omega)
    have hu : (given.loosenAlong style.axis).along style.axis = .upTo (given.along style.axis).hi :=
      Constraints.along_setAlong ..
    have hnu := Limits.isNormalized_upTo hi
    refine ⟨.exactly ((Limits.upTo (given.along style.axis).hi).nearest part), ?_,
      Limits.isNormalized_exactly (Limits.isLength_nearest hnu part), by simp [h.1]⟩
    rw [hp, ← hu]
    refine (Constraints.tightenAlong_eq (hu ▸ hnu) part).trans ?_
    rw [Constraints.loosenAlong]
    cases style.axis <;> rfl
  · exact ⟨.free, rfl, Limits.isNormalized_free, fun _ => rfl⟩

/-- A stack can always make its offer, and the offer can be met. -/
theorem offer_isOk (style : StackStyle) (hn : given.isNormalized = true) {count : Nat}
    (hc : 0 < count) (breadth : Int) : ∃ offer, style.offer given count breadth = .ok offer ∧
      offer.isNormalized = true ∧ (style.isHomogeneous = false → offer.along style.axis = .free) ∧
      offer.along style.axis.flip = style.across (given.along style.axis.flip) breadth := by
  obtain ⟨limits, hm, hl, hfree⟩ := style.offerMain_isOk hn hc
  have hx := Constraints.isNormalized_iff.1 hn style.axis.flip
  have hflip := Constraints.along_flip_setAlong given style.axis limits
  refine ⟨(given.setAlong style.axis limits).setAlong style.axis.flip
    (style.across (given.along style.axis.flip) breadth), ?_, ?_, by simpa using hfree, by simp⟩
  · unfold offer across
    refine bind_eq_ok_iff.2 ⟨_, hm, ?_⟩
    split
    · rw [Constraints.tightenAlong_eq (hflip ▸ hx), hflip]
    · rw [Constraints.loosenAlong, hflip]
      rfl
  · rw [Constraints.isNormalized_iff_along style.axis]
    simpa using ⟨hl, isNormalized_across hx breadth⟩

/-! ## The room to share -/

/-- The limit up to which a stack shares out room if its children take `total`. -/
def goal (main : Limits) (total : Int) : Int :=
  if main.hi ≠ Extent.inf ∧ total < main.hi then main.hi
  else if total < main.lo then main.lo
  else 0

/-- The room that children of total extent `total` leave. -/
def room (main : Limits) (total : Int) : Int := max (goal main total - total) 0

/-- The limit up to which room is counted: the upper one, or the lower one if there is no upper
limit. -/
def brim (main : Limits) : Int := if main.hi = Extent.inf then main.lo else main.hi

theorem room_eq {main : Limits} (h : main.isNormalized = true) {total : Int} (ht : 0 ≤ total) :
    room main total = max (brim main - total) 0 := by
  have hl := Limits.isNormalized_iff.1 h
  unfold room goal brim
  by_cases hi : main.hi = Extent.inf
  · rw [if_pos hi, if_neg (by simp [hi])]
    split <;> omega
  · rw [if_neg hi]
    split
    · rfl
    · split <;> omega

theorem spare_eq {main : Limits} (h : main.isNormalized = true) {total : Int}
    (ht : Extent.IsLength total) : spare main total = .ok (room main total) := by
  have hlo := Limits.isLength_lo h
  have hhi := Limits.isLength_hi h
  have hg : Extent.IsLength (goal main total) := by
    unfold goal
    split
    · exact hhi
    · split
      · exact hlo
      · exact Extent.isLength_zero
  have hr : Extent.InRange (goal main total - total) := by
    simp only [Extent.IsLength, Extent.InRange, Extent.least, Extent.inf] at *
    omega
  exact bind_eq_ok_iff.2 ⟨_, Extent.checked_of_inRange hr, rfl⟩

theorem brim_lt {main : Limits} (h : main.isNormalized = true) (hlo : main.lo < Extent.inf) :
    brim main < Extent.inf := by
  have := (Limits.isLength_hi h).2
  unfold brim
  split <;> omega

theorem add_room_le {main : Limits} (h : main.isNormalized = true) {total : Int} (ht : 0 ≤ total)
    (hr : 0 < room main total) : total + room main total ≤ main.hi := by
  have hl := Limits.isNormalized_iff.1 h
  have hg : goal main total ≤ main.hi ∨ goal main total = 0 := by
    unfold goal
    split
    · exact .inl (Int.le_refl _)
    · split
      · exact .inl hl.2.1
      · exact .inr rfl
  unfold room at *
  omega

theorem isLength_room {main : Limits} (h : main.isNormalized = true) {total : Int}
    (ht : 0 ≤ total) : Extent.IsLength (room main total) := by
  have hhi := (Limits.isLength_hi h).2
  refine ⟨by unfold room; omega, ?_⟩
  rcases Int.lt_or_le 0 (room main total) with hr | hr
  · have := add_room_le h ht hr; omega
  · simp only [Extent.inf] at *; omega

theorem extra_isOk (hn : given.isNormalized = true) (totalFlex : Nat) {sizes : List (Option Size)}
    (ht : Extent.IsLength (Extent.total (extentsAlong style.axis sizes))) :
    ∃ extra, style.extra given totalFlex sizes = .ok extra ∧ Extent.IsLength extra ∧
      (0 < extra → totalFlex ≠ 0 ∧
        Extent.total (extentsAlong style.axis sizes) + extra ≤ Extent.inf) := by
  have hmain := Constraints.isNormalized_iff.1 hn style.axis
  unfold extra
  split
  · exact ⟨0, rfl, Extent.isLength_zero, fun h => absurd h (Int.lt_irrefl 0)⟩
  · rename_i hf
    refine ⟨_, spare_eq hmain ht, isLength_room hmain ht.1, fun hr => ⟨hf, ?_⟩⟩
    have := add_room_le hmain ht.1 hr
    have := (Limits.isLength_hi hmain).2
    omega

/-- The share of a child of weight `flex` in the room `extra`. -/
def share (extra : Int) (flex totalFlex : Nat) : Int :=
  if extra = Extent.inf then Extent.inf else extra * flex / totalFlex

theorem share_of_ne {extra : Int} (h : extra ≠ Extent.inf) (flex totalFlex : Nat) :
    share extra flex totalFlex = extra * flex / totalFlex := if_neg h

theorem scale_share {extra : Int} (he : Extent.IsLength extra) {flex totalFlex : Nat}
    (hf : flex ≤ totalFlex) (hp : 0 < totalFlex) (hw : totalFlex ≤ maxFlex) :
    Extent.scale extra flex totalFlex = .ok (share extra flex totalFlex) ∧
      0 ≤ share extra flex totalFlex ∧ share extra flex totalFlex ≤ extra := by
  unfold share
  split
  · rename_i h
    exact ⟨h ▸ Extent.scale_inf _ _, Extent.isLength_inf.1, Int.le_of_eq h.symm⟩
  · rename_i h
    unfold maxFlex at hw
    exact ⟨Extent.scale_eq_ediv he h (by omega) (by omega) (by omega) (by omega),
      Extent.part_bounds he.1 (by omega) (by omega) (by omega)⟩

/-- The offer with the extent `v` asked for along the axis. -/
def enlarged (style : StackStyle) (offer : Constraints) (v : Int) : Constraints :=
  offer.setAlong style.axis (.exactly ((offer.along style.axis).nearest v))

theorem isNormalized_enlarged {offer : Constraints} (hn : offer.isNormalized = true) (v : Int) :
    (style.enlarged offer v).isNormalized = true := by
  obtain ⟨hmain, hcross⟩ := (Constraints.isNormalized_iff_along style.axis).1 hn
  rw [Constraints.isNormalized_iff_along style.axis]
  simpa [enlarged] using ⟨Limits.isNormalized_exactly (Limits.isLength_nearest hmain v), hcross⟩

/-- A child can be offered its share if there is room for it. -/
theorem enlarge_eq {offer : Constraints} (hn : offer.isNormalized = true) {extra old : Int}
    (he : Extent.IsLength extra) (ho : 0 ≤ old) (hs : old + extra ≤ Extent.inf)
    {flex totalFlex : Nat} (hf : flex ≤ totalFlex) (hp : 0 < totalFlex)
    (hw : totalFlex ≤ maxFlex) : style.enlarge offer extra totalFlex flex old =
      .ok (style.enlarged offer (old + share extra flex totalFlex)) := by
  obtain ⟨hsc, h₀, h₁⟩ := scale_share he hf hp hw
  have hr : Extent.InRange (old + share extra flex totalFlex) :=
    Extent.IsLength.inRange ⟨by omega, by omega⟩
  exact bind_eq_ok_iff.2 ⟨_, hsc, bind_eq_ok_iff.2 ⟨_, Extent.checked_of_inRange hr,
    Constraints.tightenAlong_eq (Constraints.isNormalized_iff.1 hn style.axis) _⟩⟩

section Children

variable {α : Type} {p : α → Bool} {flex : α → Nat} {size : α → Size} {xs : List α}

/-- If the room fits on top of each child, every child that shares in it gets an enlarged offer. -/
theorem secondOffers_eq {offer : Constraints} (hn : offer.isNormalized = true) {extra : Int}
    (he : Extent.IsLength extra) {totalFlex : Nat} (hw : 0 < extra → totalFlex ≤ maxFlex)
    (hs : 0 < extra → ∀ x ∈ xs, p x = true → 0 ≤ (size x).along style.axis ∧
      (size x).along style.axis + extra ≤ Extent.inf ∧ flex x ≤ totalFlex) :
    style.secondOffers offer extra totalFlex ((xs.map flex).zip (pick p size xs)) =
      .ok (pick (fun x => p x && sharesIn extra (flex x)) (fun x => style.enlarged offer
        ((size x).along style.axis + share extra (flex x) totalFlex)) xs) := by
  have hok : ∀ x ∈ xs, (p x && sharesIn extra (flex x)) = true →
      style.enlarge offer extra totalFlex (flex x) ((size x).along style.axis) =
        .ok (style.enlarged offer
          ((size x).along style.axis + share extra (flex x) totalFlex)) := by
    intro x hx hq
    simp only [sharesIn, Bool.and_eq_true, decide_eq_true_eq] at hq
    obtain ⟨hp, hpos, hflex⟩ := hq
    obtain ⟨ho, hroom, hle⟩ := hs hpos x hx hp
    exact enlarge_eq hn he ho hroom hle (by omega) (hw hpos)
  rw [secondOffers_pick, pickM_eq_ok_iff]
  exact ⟨_, hok, rfl⟩

end Children

/-! ## The total after sharing -/

/-- Children that change their extents one by one leave a total that is a length. -/
theorem replaceIn_isOk {changes : List (Int × Int)} {total : Int}
    (h : ∀ change ∈ changes, 0 ≤ change.1 ∧ Extent.IsLength change.2)
    (hs : List.sum (changes.map (·.1)) ≤ total) (ht : total ≤ Extent.inf) :
    ∃ extent, changes.foldlM replaceIn total = .ok extent := by
  induction changes generalizing total with
  | nil => exact ⟨total, rfl⟩
  | cons change rest ih =>
    obtain ⟨old, new⟩ := change
    obtain ⟨ho, hnew⟩ := h _ List.mem_cons_self
    have hrest : ∀ change ∈ rest, 0 ≤ change.1 ∧ Extent.IsLength change.2 :=
      fun change hc => h change (List.mem_cons_of_mem _ hc)
    have hnn : 0 ≤ List.sum (rest.map (·.1)) := List.sum_nonneg fun v hv => by
      obtain ⟨change, hc, rfl⟩ := List.mem_map.1 hv
      exact (hrest change hc).1
    rw [List.map_cons, List.sum_cons] at hs
    have hl : Extent.IsLength (total - old) := ⟨by omega, by omega⟩
    have hsub : Extent.sub total old = .ok (total - old) := hl.checked_eq
    obtain ⟨extent, he⟩ := @ih (Extent.saturatingAdd (total - old) new) hrest
      (by rw [Extent.saturatingAdd_eq_min hl.1 hnew.1]; have := hl.2; have := hnew.1; omega)
      (Extent.isLength_saturatingAdd hl.1 hnew.1).2
    exact ⟨extent, by rw [List.foldlM_cons, replaceIn, hsub]; exact he⟩

theorem extentOf_isOk (style : StackStyle) {α : Type} {p q : α → Bool}
    (hqp : ∀ x, q x = true → p x = true) {f g : α → Size} {xs : List α}
    (hf : ∀ x ∈ xs, p x = true → (f x).IsProper)
    (hg : ∀ x ∈ xs, q x = true → (g x).IsProper)
    (ht : ∀ x ∈ xs, q x = true →
      Extent.total (extentsAlong style.axis (pick p f xs)) < Extent.inf) :
    ∃ extent, style.extentOf (pick p f xs) (pick q g xs) = .ok extent := by
  rw [extentsAlong_pick] at ht
  have hl : ∀ v ∈ (xs.filter p).map fun x => (f x).along style.axis, 0 ≤ v :=
    forall_mem_map_filter.2 fun x hx hp => (hf x hx hp style.axis).1
  rw [extentOf_pick style hqp]
  refine replaceIn_isOk (forall_mem_map_filter.2 fun x hx hq =>
    ⟨(hf x hx (hqp x hq) style.axis).1, hg x hx hq style.axis⟩) ?_ (Extent.isLength_total hl).2
  have hsub := Extent.sum_filter_le (f := fun x => (f x).along style.axis)
    (fun x hx hp => (hf x hx hp style.axis).1) hqp
  have hmin := Extent.total_eq_min hl
  rw [List.map_map]
  rcases Classical.em (∃ x ∈ xs, q x = true) with ⟨x, hx, hq⟩ | hno
  · have := ht x hx hq
    simp only [Function.comp_def]
    omega
  · rw [List.filter_eq_nil_iff.2 fun x hx hq => hno ⟨x, hx, hq⟩]
    exact (Extent.isLength_total hl).1

/-- If no child shrinks, sharing adds what the children gain, until the total is unbounded. -/
theorem foldlM_replaceIn_eq {changes : List (Int × Int)} {total : Int}
    (h : ∀ change ∈ changes, 0 ≤ change.1 ∧ change.1 ≤ change.2)
    (hs : List.sum (changes.map (·.1)) ≤ total) (ht : total ≤ Extent.inf) :
    changes.foldlM replaceIn total =
      .ok (min (total + List.sum (changes.map fun change => change.2 - change.1)) Extent.inf) := by
  induction changes generalizing total with
  | nil => exact congrArg Except.ok (by rw [List.map_nil, List.sum_nil]; omega)
  | cons change rest ih =>
    obtain ⟨old, new⟩ := change
    obtain ⟨⟨ho, hle⟩, hrest⟩ := List.forall_mem_cons.1 h
    have hold : 0 ≤ List.sum (rest.map fun change => change.1) :=
      List.sum_nonneg (List.forall_mem_map.2 fun c hc => (hrest c hc).1)
    have hgain : 0 ≤ List.sum (rest.map fun change => change.2 - change.1) :=
      List.sum_nonneg (List.forall_mem_map.2 fun c hc => Int.sub_nonneg.2 (hrest c hc).2)
    simp only [List.map_cons, List.sum_cons] at hs ⊢
    simp only at ho hle
    have hsub : Extent.sub total old = .ok (total - old) :=
      Extent.IsLength.checked_eq ⟨by omega, by omega⟩
    have hadd : Extent.saturatingAdd (total - old) new = min (total + (new - old)) Extent.inf := by
      rw [Extent.saturatingAdd_eq_min (by omega) (by omega)]
      omega
    rw [List.foldlM_cons, replaceIn, hsub]
    refine (@ih (Extent.saturatingAdd (total - old) new) hrest ?_ ?_).trans ?_
    · rw [hadd]; omega
    · rw [hadd]; omega
    · rw [hadd]
      exact congrArg Except.ok (by omega)

theorem mul_sum_share_le {extra : Int} (hne : extra ≠ Extent.inf) {totalFlex : Nat}
    (hp : 0 < totalFlex) (flexes : List Nat) :
    (totalFlex : Int) * List.sum (flexes.map (share extra · totalFlex)) ≤
      extra * sumFlex flexes := by
  induction flexes with
  | nil => simp [sumFlex]
  | cons flex rest ih =>
    have hshare : (totalFlex : Int) * share extra flex totalFlex ≤ extra * flex := by
      rw [share, if_neg hne]
      exact Int.mul_ediv_self_le (by omega)
    rw [List.map_cons, List.sum_cons, sumFlex, Int.mul_add, Int.natCast_add, Int.mul_add]
    omega

/-- The shares of children whose weights are among those counted are no more than the room. -/
theorem sum_share_le {extra : Int} (he : 0 ≤ extra) (hne : extra ≠ Extent.inf) {totalFlex : Nat}
    (hp : 0 < totalFlex) {flexes : List Nat} (hf : sumFlex flexes ≤ totalFlex) :
    List.sum (flexes.map (share extra · totalFlex)) ≤ extra := by
  have hsum := mul_sum_share_le hne hp flexes
  have hle : extra * sumFlex flexes ≤ extra * totalFlex :=
    Int.mul_le_mul_of_nonneg_left (by omega) he
  rw [Int.mul_comm extra totalFlex] at hle
  exact Int.le_of_mul_le_mul_left (Int.le_trans hsum hle) (by omega)

theorem le_mul_sum_share {extra : Int} (hne : extra ≠ Extent.inf) {totalFlex : Nat}
    (hp : 0 < totalFlex) (flexes : List Nat) :
    extra * sumFlex flexes ≤ totalFlex * List.sum (flexes.map (share extra · totalFlex)) +
      flexes.countP (0 < ·) * (totalFlex - 1) := by
  induction flexes with
  | nil => simp [sumFlex]
  | cons flex rest ih =>
    have hloss : extra * flex ≤ totalFlex * share extra flex totalFlex +
        (if 0 < flex then 1 else 0) * (totalFlex - 1) := by
      rw [share, if_neg hne]
      split
      · have := Int.mul_ediv_add_emod (extra * flex) totalFlex
        have := Int.emod_lt_of_pos (extra * flex) (show 0 < (totalFlex : Int) by omega)
        omega
      · rename_i hz
        rw [Nat.eq_zero_of_not_pos hz]
        simp
    rw [List.map_cons, List.sum_cons, sumFlex, List.countP_cons, Int.natCast_add, Int.natCast_add,
      Int.mul_add, Int.mul_add, Int.add_mul]
    simp only [decide_eq_true_eq, Nat.cast_ite, Nat.cast_one, Nat.cast_zero]
    omega

theorem exists_pos_of_sumFlex {flexes : List Nat} (h : 0 < sumFlex flexes) :
    ∃ flex ∈ flexes, 0 < flex := by
  induction flexes with
  | nil => exact absurd h (Nat.lt_irrefl 0)
  | cons flex rest ih =>
    by_cases hf : 0 < flex
    · exact ⟨flex, List.mem_cons_self, hf⟩
    · rw [sumFlex] at h
      obtain ⟨other, hm, ho⟩ := ih (by omega)
      exact ⟨other, List.mem_cons_of_mem _ hm, ho⟩

/-- Less than one pixel is lost for each child that has a weight, and not one for all of them. -/
theorem le_sum_share {extra : Int} (hne : extra ≠ Extent.inf) {flexes : List Nat}
    (hp : 0 < sumFlex flexes) : extra - (flexes.countP (0 < ·) - 1) ≤
      List.sum (flexes.map (share extra · (sumFlex flexes))) := by
  obtain ⟨flex, hm, hf⟩ := exists_pos_of_sumFlex hp
  have hcount : 0 < flexes.countP (0 < ·) := List.countP_pos_iff.2 ⟨flex, hm, by simpa using hf⟩
  have hle := le_mul_sum_share hne hp flexes
  generalize List.sum (flexes.map (share extra · (sumFlex flexes))) = sum at *
  generalize flexes.countP (0 < ·) = count at *
  have hmul : (sumFlex flexes : Int) * 0 < sumFlex flexes * (sum - extra + count) := by
    rw [Int.mul_add, Int.mul_sub, Int.mul_zero, Int.mul_comm _ extra, Int.mul_comm _ (count : Int)]
    rw [Int.mul_sub] at hle
    omega
  have := Int.lt_of_mul_lt_mul_left hmul (by omega)
  omega

end StackStyle

end BoxLayout
