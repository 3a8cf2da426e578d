import BoxLayout.Proofs.Limits
import BoxLayout.Proofs.Arrange

/-!
# Exchanging the axes

The data of a layout with its two axes exchanged. Whatever takes an axis does the same on the other
one: `along_transpose` and its like rewrite with it, and every step of a stack, of a padding and of
an alignment that gives a result gives the transposed result on transposed data.
-/

namespace BoxLayout

def Size.transpose (size : Size) : Size := ⟨size.height, size.width⟩

def Point.transpose (point : Point) : Point := ⟨point.y, point.x⟩

def Rect.transpose (rect : Rect) : Rect := ⟨rect.origin.transpose, rect.size.transpose⟩

def Constraints.transpose (given : Constraints) : Constraints := ⟨given.height, given.width⟩

/-- Top and left are exchanged, and so are right and bottom. -/
def Insets.transpose (insets : Insets) : Insets :=
  ⟨insets.left, insets.bottom, insets.right, insets.top⟩

def Alignment.transpose (alignment : Alignment) : Alignment :=
  ⟨alignment.vertical, alignment.horizontal, alignment.height, alignment.width⟩

/-- A row becomes a column with the same style. -/
def StackStyle.transpose (style : StackStyle) : StackStyle := { style with axis := style.axis.flip }

def Frame.transpose (frame : Frame) : Frame := { frame with bounds := frame.bounds.transpose }

/-- A leaf that has a size of its own gets the transposed one; the others stay what they are. -/
def Leaf.transpose : Leaf → Leaf
  | spacer size => spacer size.transpose
  | canvas ideal visibility observer => canvas ideal.transpose visibility observer
  | button label visibility bounds => button label visibility bounds.transpose
  | text content visibility bounds => text content visibility bounds.transpose
  | portrait => portrait

def Slots.transpose : Slots → Slots
  | done => done
  | fault e => fault e
  | next slot rest => next (slot.map Rect.transpose) rest.transpose

/-! ## Sizes and rectangles -/

section Axis

variable (axis : Axis)

@[simp] theorem Size.along_transpose (size : Size) :
    size.transpose.along axis = size.along axis.flip := by cases axis <;> rfl

@[simp] theorem Size.transpose_ofAxis (main cross : Int) :
    (Size.ofAxis axis main cross).transpose = .ofAxis axis.flip main cross := by cases axis <;> rfl

@[simp] theorem Rect.start_transpose (rect : Rect) :
    rect.transpose.start axis = rect.start axis.flip := by cases axis <;> rfl

@[simp] theorem Rect.extent_transpose (rect : Rect) :
    rect.transpose.extent axis = rect.extent axis.flip := by cases axis <;> rfl

@[simp] theorem Rect.transpose_ofAxis (main cross length breadth : Int) :
    (Rect.ofAxis axis main cross length breadth).transpose =
      .ofAxis axis.flip main cross length breadth := by cases axis <;> rfl

@[simp] theorem Constraints.along_transpose (given : Constraints) :
    given.transpose.along axis = given.along axis.flip := by cases axis <;> rfl

@[simp] theorem Constraints.transpose_setAlong (given : Constraints) (limits : Limits) :
    (given.setAlong axis limits).transpose = given.transpose.setAlong axis.flip limits := by
  cases axis <;> rfl

@[simp] theorem Insets.total_transpose (insets : Insets) :
    insets.transpose.total axis = insets.total axis.flip := by cases axis <;> rfl

@[simp] theorem Insets.lead_transpose (insets : Insets) :
    insets.transpose.lead axis = insets.lead axis.flip := by cases axis <;> rfl

@[simp] theorem Insets.inner_transpose (insets : Insets) (v : Int) :
    insets.transpose.inner axis v = insets.inner axis.flip v := by
  rw [inner, inner, total_transpose]

@[simp] theorem Alignment.factor_transpose (alignment : Alignment) :
    alignment.transpose.factor axis = alignment.factor axis.flip := by cases axis <;> rfl

@[simp] theorem Alignment.anchor_transpose (alignment : Alignment) :
    alignment.transpose.anchor axis = alignment.anchor axis.flip := by cases axis <;> rfl

@[simp] theorem Alignment.position_transpose (alignment : Alignment) (bounds : Rect)
    (child : Size) : alignment.transpose.position axis bounds.transpose child.transpose =
      alignment.position axis.flip bounds child := by
  simp [position]

end Axis

@[simp] theorem StackStyle.axis_transpose (style : StackStyle) :
    style.transpose.axis = style.axis.flip := rfl

@[simp] theorem StackStyle.align_transpose (style : StackStyle) :
    style.transpose.align = style.align := rfl

@[simp] theorem StackStyle.justify_transpose (style : StackStyle) :
    style.transpose.justify = style.justify := rfl

@[simp] theorem StackStyle.isHomogeneous_transpose (style : StackStyle) :
    style.transpose.isHomogeneous = style.isHomogeneous := rfl

@[simp] theorem Leaf.visibility_transpose (leaf : Leaf) :
    leaf.transpose.visibility = leaf.visibility := by cases leaf <;> rfl

/-! ## Constraints, insets and alignments -/

namespace Constraints

variable {given : Constraints}

theorem isNormalized_transpose (h : given.isNormalized = true) :
    given.transpose.isNormalized = true :=
  isNormalized_iff.2 fun axis => by
    rw [along_transpose]
    exact isNormalized_iff.1 h axis.flip

theorem constrain_transpose {size answer : Size} (h : given.constrain size = .ok answer) :
    given.transpose.constrain size.transpose = .ok answer.transpose :=
  constrain_eq_ok_iff.2 fun axis => by
    rw [along_transpose, Size.along_transpose, Size.along_transpose]
    exact constrain_eq_ok_iff.1 h axis.flip

theorem inset_transpose {inner : Constraints} {width height : Int}
    (h : given.inset width height = .ok inner) :
    given.transpose.inset height width = .ok inner.transpose :=
  inset_eq_ok_iff.2 fun axis => by
    rw [along_transpose, along_transpose]
    refine Eq.trans (congrArg _ ?_) (inset_eq_ok_iff.1 h axis.flip)
    cases axis <;> rfl

theorem tightenAlong_transpose {axis : Axis} {v : Int} {tight : Constraints}
    (h : given.tightenAlong axis v = .ok tight) :
    given.transpose.tightenAlong axis.flip v = .ok tight.transpose := by
  obtain ⟨limits, hl, rfl⟩ := tightenAlong_eq_ok_iff.1 h
  refine tightenAlong_eq_ok_iff.2 ⟨limits, ?_, transpose_setAlong ..⟩
  rwa [along_transpose, Axis.flip_flip]

theorem loosenAlong_transpose (axis : Axis) :
    (given.loosenAlong axis).transpose = given.transpose.loosenAlong axis.flip := by
  simp [loosenAlong]

end Constraints

theorem Insets.around_transpose {insets : Insets} {size answer : Size}
    (h : insets.around size = .ok answer) :
    insets.transpose.around size.transpose = .ok answer.transpose :=
  around_eq_ok_iff.2 fun axis => by
    rw [total_transpose, Size.along_transpose, Size.along_transpose]
    exact around_eq_ok_iff.1 h axis.flip

theorem Rect.inset_transpose {rect inner : Rect} {insets : Insets}
    (h : rect.inset insets = .ok inner) :
    rect.transpose.inset insets.transpose = .ok inner.transpose :=
  inset_eq_ok_iff.2 fun axis => by
    rw [start_transpose, start_transpose, extent_transpose, extent_transpose,
      Insets.lead_transpose, Insets.total_transpose]
    exact inset_eq_ok_iff.1 h axis.flip

theorem Alignment.slot_transpose {alignment : Alignment} {bounds slot : Rect} {child : Size}
    (h : alignment.slot bounds child = .ok slot) :
    alignment.transpose.slot bounds.transpose child.transpose = .ok slot.transpose := by
  obtain ⟨rfl, hposition⟩ := slot_eq_ok_iff.1 h
  refine slot_eq_ok_iff.2 ⟨rfl, fun axis => ?_⟩
  rw [position_transpose, Rect.start_transpose]
  exact hposition axis.flip

theorem Alignment.scaled_transpose (alignment : Alignment) (size : Size) :
    alignment.transpose.scaled size.transpose = (alignment.scaled size).transpose := rfl

/-! ## Stacks -/

namespace StackStyle

variable {style : StackStyle} {given : Constraints}

theorem needsBreadth_transpose :
    style.transpose.needsBreadth given.transpose = style.needsBreadth given := by
  simp [needsBreadth]

theorem offerMain_transpose {count : Nat} {main : Constraints}
    (h : style.offerMain given count = .ok main) :
    style.transpose.offerMain given.transpose count = .ok main.transpose := by
  unfold offerMain at h ⊢
  simp only [axis_transpose, Constraints.along_transpose, Axis.flip_flip,
    isHomogeneous_transpose] at h ⊢
  split at h
  · rename_i hh
    obtain ⟨part, hp, h⟩ := bind_eq_ok_iff.1 h
    rw [if_pos hh]
    refine bind_eq_ok_iff.2 ⟨part, hp, ?_⟩
    rw [← Constraints.loosenAlong_transpose]
    exact Constraints.tightenAlong_transpose h
  · rename_i hh
    cases h
    rw [if_neg hh, Constraints.unbindAlong, Constraints.unbindAlong,
      Constraints.transpose_setAlong]
    rfl

theorem offer_transpose {count : Nat} {breadth : Int} {offer : Constraints}
    (h : style.offer given count breadth = .ok offer) :
    style.transpose.offer given.transpose count breadth = .ok offer.transpose := by
  obtain ⟨main, hm, h⟩ := bind_eq_ok_iff.1 h
  refine bind_eq_ok_iff.2 ⟨main.transpose, offerMain_transpose hm, ?_⟩
  by_cases ha : style.align = .stretch
  · rw [if_pos ha] at h
    exact (if_pos ha).trans (Constraints.tightenAlong_transpose h)
  · rw [if_neg ha] at h
    cases h
    refine (if_neg ha).trans ?_
    rw [Constraints.loosenAlong_transpose]
    rfl

theorem enlarge_transpose {offer enlarged : Constraints} {extra old : Int} {totalFlex flex : Nat}
    (h : style.enlarge offer extra totalFlex flex old = .ok enlarged) :
    style.transpose.enlarge offer.transpose extra totalFlex flex old =
      .ok enlarged.transpose := by
  obtain ⟨share, hs, h⟩ := bind_eq_ok_iff.1 h
  obtain ⟨v, hv, h⟩ := bind_eq_ok_iff.1 h
  exact bind_eq_ok_iff.2 ⟨share, hs, bind_eq_ok_iff.2 ⟨v, hv,
    Constraints.tightenAlong_transpose h⟩⟩

variable {bounds : Rect}

theorem slot_transpose (main : Span) (size : Size) :
    style.transpose.slot bounds.transpose main size.transpose =
      Rect.transpose <$> style.slot bounds main size := by
  simp only [slot, axis_transpose, align_transpose, Rect.start_transpose, Rect.extent_transpose,
    Size.along_transpose, Axis.flip_flip]
  cases style.align.span ⟨bounds.start style.axis.flip, bounds.extent style.axis.flip⟩
    (size.along style.axis.flip) with
  | error fault => rfl
  | ok cross => exact congrArg Except.ok (Rect.transpose_ofAxis ..).symm

end StackStyle

/-! ## Slots -/

namespace Slots

theorem after_transpose {α : Type} (result : Except Fault α) (rest : α → Slots) :
    (after result rest).transpose = after result fun a => (rest a).transpose := by
  cases result <;> rfl

theorem after_map {α β : Type} (f : α → β) (result : Except Fault α) (rest : β → Slots) :
    after (f <$> result) rest = after result fun a => rest (f a) := by
  cases result <;> rfl

end Slots

namespace StackStyle

variable {style : StackStyle} {bounds : Rect}

theorem spacing_transpose (totals : StackTotals) (count : Nat) :
    style.transpose.spacing bounds.transpose totals count = style.spacing bounds totals count := by
  simp only [spacing, axis_transpose, Rect.extent_transpose, Axis.flip_flip, justify_transpose]

theorem sliceSpan_transpose (count index : Nat) :
    style.transpose.sliceSpan bounds.transpose count index =
      style.sliceSpan bounds count index := by
  simp only [sliceSpan, axis_transpose, Rect.extent_transpose, Rect.start_transpose, Axis.flip_flip]

theorem pack_transpose (gap pos : Int) (sizes : List (Option Size)) :
    style.transpose.pack bounds.transpose gap pos (sizes.map (Option.map Size.transpose)) =
      (style.pack bounds gap pos sizes).transpose := by
  induction sizes generalizing pos with
  | nil => rfl
  | cons size rest ih =>
    cases size with
    | none => exact congrArg (Slots.next none) (ih pos)
    | some size =>
      rw [List.map_cons, Option.map_some, pack, pack]
      rw [Size.along_transpose, axis_transpose, Axis.flip_flip, slot_transpose, Slots.after_map,
        Slots.after_transpose]
      refine congrArg _ (funext fun slot => congrArg (Slots.next _) ?_)
      rw [Slots.after_transpose]
      exact congrArg _ (funext fun pos => ih pos)

theorem cut_transpose (count index : Nat) (sizes : List (Option Size)) :
    style.transpose.cut bounds.transpose count index (sizes.map (Option.map Size.transpose)) =
      (style.cut bounds count index sizes).transpose := by
  induction sizes generalizing index with
  | nil => rfl
  | cons size rest ih =>
    cases size with
    | none => exact congrArg (Slots.next none) (ih index)
    | some size =>
      rw [List.map_cons, Option.map_some, cut, cut, sliceSpan_transpose]
      cases style.sliceSpan bounds count index with
      | error fault => rfl
      | ok span =>
        refine Eq.trans ?_ (Slots.after_transpose (style.slot bounds span size) _).symm
        refine Eq.trans (congrArg (Slots.after · _) (slot_transpose span size)) ?_
        rw [Slots.after_map]
        exact congrArg _ (funext fun slot => congrArg (Slots.next _) (ih (index + 1)))

/-- The slots for children of transposed sizes in a transposed box are the transposed slots. -/
theorem slots_transpose (totals : StackTotals) (sizes : List (Option Size)) :
    style.transpose.slots bounds.transpose totals (sizes.map (Option.map Size.transpose)) =
      (style.slots bounds totals sizes).transpose := by
  have hcount : (sizes.map (Option.map Size.transpose)).countP Option.isSome =
      sizes.countP Option.isSome := by
    rw [List.countP_map]
    exact List.countP_congr fun size _ => by cases size <;> rfl
  unfold slots
  dsimp only
  rw [hcount, isHomogeneous_transpose, spacing_transpose]
  split
  · rfl
  · split
    · exact cut_transpose ..
    · rw [Slots.after_transpose]
      refine congrArg _ (funext fun spacing => ?_)
      rw [axis_transpose, Rect.start_transpose, Axis.flip_flip, Slots.after_transpose]
      exact congrArg _ (funext fun pos => pack_transpose ..)

end StackStyle

end BoxLayout
