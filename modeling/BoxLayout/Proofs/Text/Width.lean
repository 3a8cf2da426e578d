import Mathlib.Data.String.Lemmas
import BoxLayout.Proofs.Limits
import BoxLayout.Proofs.Text.Bounds

/-!
# A text that is given the width it takes

A limit changes nothing in how lines are filled while no line is wider than that (`fillFrom_eq`), so
a text keeps its lines at every width from that of the widest one up to the one it was wrapped at
(`Text.wrap_charLimit_eq`). It has the same size at every width from the one that it takes without a
limit (`Text.measure_of_width_le`), and the width that it chooses under constraints never calls for
other lines (`Leaf.measure_text_height`).
-/

namespace BoxLayout

namespace Text

/-- The open line is the start of a line. -/
theorem exists_le_of_fillFrom (limit line : Nat) (lengths : List Nat) :
    ∃ width ∈ fillFrom limit line lengths, line ≤ width := by
  induction lengths generalizing line with
  | nil => exact ⟨line, List.mem_singleton_self line, Nat.le_refl line⟩
  | cons word rest ih =>
    unfold fillFrom
    split
    · obtain ⟨width, hw, hle⟩ := ih (line + 1 + word)
      exact ⟨width, hw, by omega⟩
    · exact ⟨line, List.mem_cons_self, Nat.le_refl line⟩

/-- Lines are filled alike under two limits if those of the greater one keep within the smaller. -/
theorem fillFrom_eq {small large line : Nat} {lengths : List Nat} (hle : small ≤ large)
    (h : ∀ width ∈ fillFrom large line lengths, width ≤ small) :
    fillFrom small line lengths = fillFrom large line lengths := by
  induction lengths generalizing line with
  | nil => rfl
  | cons word rest ih =>
    rw [fillFrom] at h ⊢
    rw [fillFrom]
    split at h
    · rename_i hfits
      obtain ⟨width, hw, hline⟩ := exists_le_of_fillFrom large (line + 1 + word) rest
      have hsmall : line + 1 + word ≤ small := Nat.le_trans hline (h width hw)
      rw [if_pos hsmall, if_pos hfits, ih h]
    · rename_i hwide
      have hsmall : ¬ line + 1 + word ≤ small := fun hs => hwide (Nat.le_trans hs hle)
      obtain ⟨-, hrest⟩ := List.forall_mem_cons.1 h
      rw [if_neg hsmall, if_neg hwide, ih hrest]

theorem fill_eq {small large : Nat} {lengths : List Nat} (hle : small ≤ large)
    (h : ∀ width ∈ fill large lengths, width ≤ small) :
    fill small lengths = fill large lengths := by
  cases lengths with
  | nil => rfl
  | cons word rest => exact fillFrom_eq hle h

theorem lineWidths_eq {small large : Nat} {content : List Char} (hle : small ≤ large)
    (h : ∀ width ∈ lineWidths large content, width ≤ small) :
    lineWidths small content = lineWidths large content := by
  have hfill : ∀ paragraph ∈ paragraphs content,
      fill small ((words paragraph).map List.length) =
        fill large ((words paragraph).map List.length) := fun paragraph hp =>
    fill_eq hle fun width hw => h width (List.mem_flatMap.2 ⟨paragraph, hp, hw⟩)
  unfold lineWidths List.flatMap
  rw [List.map_congr_left hfill]

theorem le_widest {limit : Nat} {content : List Char} :
    ∀ width ∈ lineWidths limit content, width ≤ (wrap limit content).widest :=
  fun _ hw => List.le_max?_getD_of_mem hw

theorem wrap_eq {small large : Nat} {content : List Char} (hle : small ≤ large)
    (h : (wrap large content).widest ≤ small) : wrap small content = wrap large content := by
  have hlines := lineWidths_eq hle fun width hw => Nat.le_trans (le_widest width hw) h
  unfold wrap
  rw [hlines]

/-! ## Extents -/

/-- Fewer characters than this have the extent of their number or none at all: only a number from
here on wraps around to one that is small enough for an extent. -/
def countLimit : Nat := 4026531840

theorem isLength_of_mul {count : Nat} {factor v : Int} (hf : 0 ≤ factor) (hc : count < 4294967296)
    (hfar : Extent.inf + 1 < (4294967296 - count) * factor)
    (h : Extent.mul (Extent.wrap count) factor = .ok v) :
    v = count * factor ∧ Extent.IsLength v := by
  obtain ⟨hv, hmul⟩ := Extent.mul_eq_ok_iff.1 h
  have hwrap : Extent.wrap count = count := by
    by_cases hle : count ≤ Extent.inf
    · exact Extent.wrap_count hle
    · -- a count that wraps around is too far below zero to be multiplied
      have hneg : Extent.wrap count = -(4294967296 - count) := by
        simp only [Extent.wrap, Int.bmod_def, Extent.inf] at *
        omega
      rw [hneg, Int.neg_mul] at hv
      simp only [Extent.InRange, Extent.least, Extent.inf] at *
      omega
  rw [hwrap] at hv hmul
  rw [hmul]
  exact ⟨rfl, Int.mul_nonneg (Int.natCast_nonneg count) hf, hv.2⟩

theorem isLength_of_widthOf {count : Nat} {v : Int} (hc : count < countLimit)
    (h : widthOf count = .ok v) : v = count * charWidth ∧ Extent.IsLength v := by
  unfold countLimit at hc
  exact isLength_of_mul (by decide) (by omega) (by simp only [Extent.inf, charWidth]; omega) h

/-- The extents of a text whose characters can be counted are lengths. -/
theorem measure_eq_ok {content : String} (hc : content.length < countLimit) {width : Int}
    {size : Size} (h : measure content width = .ok size) : size.IsProper ∧
      size.width = (wrap (charLimit width) content.toList).widest * charWidth := by
  rw [← String.length_toList] at hc
  have hwidest : (wrap (charLimit width) content.toList).widest ≤ content.toList.length :=
    max?_getD_le fun n hn => le_length_of_mem_lineWidths hn
  have hlines : (wrap (charLimit width) content.toList).lines ≤ content.toList.length + 1 :=
    length_lineWidths_le _ _
  obtain ⟨x, hx, h⟩ := bind_eq_ok_iff.1 h
  obtain ⟨y, hy, h⟩ := bind_eq_ok_iff.1 h
  cases h
  obtain ⟨hxe, hxl⟩ := isLength_of_widthOf (Nat.lt_of_le_of_lt hwidest hc) hx
  unfold countLimit at hc
  obtain ⟨-, hyl⟩ := isLength_of_mul (by decide) (by omega)
    (by simp only [Extent.inf, lineHeight]; omega) hy
  refine ⟨fun axis => ?_, hxe⟩
  cases axis with
  | horizontal => exact hxl
  | vertical => exact hyl

/-! ## More characters than can be counted -/

/-- A text of line feeds alone is as many empty lines. -/
theorem wrap_lineFeeds (limit n : Nat) : wrap limit (List.replicate n '\n') = ⟨n + 1, 0⟩ := by
  have hparagraphs : paragraphs (List.replicate n '\n') = List.replicate (n + 1) [] := by
    induction n with
    | zero => rfl
    | succ n ih =>
      rw [paragraphs] at ih ⊢
      rw [List.replicate_succ, pieces_cons, if_pos (by decide), ih]
      rfl
  have hwidths : lineWidths limit (List.replicate n '\n') = List.replicate (n + 1) 0 := by
    rw [lineWidths, hparagraphs, List.flatMap_replicate]
    exact List.flatten_replicate_singleton
  rw [wrap, hwidths, List.length_replicate, List.max?_replicate_of_pos n.succ_pos]
  rfl

/-- Five lines short of where counting starts again, the height is that of five lines below zero. -/
theorem measure_lineFeeds (width : Int) :
    measure (String.replicate 4294967290 '\n') width = .ok ⟨0, -80⟩ := by
  rw [measure, String.replicate, String.toList_ofList, wrap_lineFeeds]
  rfl

/-! ## Widths and limits -/

/-- A line may have as many characters as fit in the width. -/
theorem le_charLimit_iff {width : Int} (h : 0 ≤ width) (hne : width ≠ Extent.inf) {count : Nat} :
    count ≤ charLimit width ↔ count * charWidth ≤ width := by
  have hdiv : width.tdiv charWidth = width / charWidth := Int.tdiv_eq_ediv_of_nonneg h
  rw [charLimit, if_neg hne, Int.max_eq_left h, hdiv]
  unfold charWidth
  omega

theorem charLimit_mono {narrow wide : Int} (h : narrow ≤ wide) (hi : wide ≤ Extent.inf) :
    charLimit narrow ≤ charLimit wide := by
  have htdiv := Int.tdiv_le_tdiv (c := charWidth) (by decide)
    (show max narrow 0 ≤ max wide 0 by omega)
  have hmax := Int.tdiv_le_tdiv (c := charWidth) (by decide)
    (show max narrow 0 ≤ Extent.inf by simp only [Extent.inf] at *; omega)
  rw [show Extent.inf.tdiv charWidth = 268435455 from rfl] at hmax
  unfold charLimit unlimited
  split
  · rw [if_pos (by omega)]
  · split <;> omega

/-- A text keeps its lines at every width from that of the widest one up to the one it was wrapped
at. -/
theorem wrap_charLimit_eq {content : List Char} {narrow wide : Int} (hle : narrow ≤ wide)
    (hi : wide ≤ Extent.inf)
    (h : (wrap (charLimit wide) content).widest * charWidth ≤ narrow) :
    wrap (charLimit narrow) content = wrap (charLimit wide) content := by
  by_cases hne : narrow = Extent.inf
  · rw [show narrow = wide by omega]
  · have hnonneg : 0 ≤ narrow := by
      have := Int.mul_nonneg (Int.natCast_nonneg (wrap (charLimit wide) content).widest)
        (show 0 ≤ charWidth by decide)
      omega
    exact wrap_eq (charLimit_mono hle hi) ((le_charLimit_iff hnonneg hne).2 h)

/-- A text that is given at least the width that it takes without a limit has the same size. -/
theorem measure_of_width_le {content : String} (hc : content.length < countLimit) {size : Size}
    (h : measure content Extent.inf = .ok size) {width : Int} (hw : Extent.IsLength width)
    (hle : size.width ≤ width) : measure content width = measure content Extent.inf := by
  have hwidest := (measure_eq_ok hc h).2
  have hwrap := wrap_charLimit_eq hw.2 (Int.le_refl _) (hwidest ▸ hle)
  rw [measure, measure, hwrap]

end Text

namespace Leaf

/-- The characters of a label or a text can be counted by an extent. -/
def IsCountable : Leaf → Prop
  | button label _ _ => label.length < Text.countLimit
  | text content _ _ => content.length < Text.countLimit
  | spacer _ | canvas .. | portrait => True

instance (leaf : Leaf) : Decidable leaf.IsCountable :=
  match leaf with
  | .button label _ _ => inferInstanceAs (Decidable (label.length < Text.countLimit))
  | .text content _ _ => inferInstanceAs (Decidable (content.length < Text.countLimit))
  | .spacer _ | .canvas .. | .portrait => isTrue trivial

/-- The extents of a button are lengths if the characters of its label can be counted. -/
theorem isProper_of_buttonSize {label : String} (hc : label.length < Text.countLimit)
    {size : Size} (h : buttonSize label = .ok size) : size.IsProper := by
  obtain ⟨width, hwidth, hrange, rfl⟩ := exists_of_buttonSize h
  have hl := (Text.isLength_of_widthOf hc hwidth).2.1
  intro axis
  cases axis with
  | horizontal => exact ⟨Int.add_nonneg hl (by decide), hrange.2⟩
  | vertical => exact (by decide : Extent.IsLength 24)

/-- Five characters short of where counting starts again, the width is that of five characters below
zero, and the insets. -/
theorem buttonSize_of_length_eq {label : String} (h : label.length = 4294967291) :
    buttonSize label = .ok ⟨-24, 24⟩ := by
  rw [buttonSize, Text.lineSize, h]
  rfl

end Leaf

/-! ## The width that a text chooses -/

/-- The width that a text takes under constraints, whether it is the one of its widest line or has
been held within the limits, is one at which it has the lines that it was measured with. -/
theorem Text.wrap_nearest_eq {limits : Limits} (h : limits.isNormalized = true)
    (content : List Char) :
    wrap (charLimit (limits.nearest ((wrap (charLimit limits.hi) content).widest * charWidth)))
        content =
      wrap (charLimit limits.hi) content := by
  obtain ⟨-, hle, hinf⟩ := Limits.isNormalized_iff.1 h
  unfold Limits.nearest
  generalize hwidth : (wrap (charLimit limits.hi) content).widest * charWidth = width
  by_cases hfits : width ≤ limits.hi
  · exact wrap_charLimit_eq (by omega) hinf (by omega)
  · -- a word is too long for the limits, and the text takes all that it may
    rw [Int.min_eq_right (by omega), Int.max_eq_right hle]

/-- A text is as high as it needs to be at the width that it has chosen, as far as the constraints
allow: at that width it has as many lines as at the greatest width that it was allowed. -/
theorem Leaf.measure_text_height {content : String} (hc : content.length < Text.shortLength)
    (visibility : Visibility) (bounds : Rect) {given : Constraints}
    (hn : given.isNormalized = true) :
    ∃ size, (Leaf.text content visibility bounds).measure given = .ok size ∧
      Text.wrap (Text.charLimit size.width) content.toList =
        Text.wrap (Text.charLimit given.width.hi) content.toList ∧
      ∃ height, (Leaf.text content visibility bounds).minExtent .vertical size.width =
          .ok height ∧ given.height.clamp height = .ok size.height := by
  have hwidth : given.width.isNormalized = true := Constraints.isNormalized_iff.1 hn .horizontal
  have hheight : given.height.isNormalized = true := Constraints.isNormalized_iff.1 hn .vertical
  have hmeasure := Text.measure_of_length_lt hc
  have hwrap := Text.wrap_nearest_eq hwidth content.toList
  refine ⟨_, bind_eq_ok_iff.2 ⟨_, hmeasure _, Constraints.constrain_eq hn _⟩, hwrap, _,
    bind_eq_ok_iff.2 ⟨_, hmeasure _, rfl⟩, ?_⟩
  dsimp only
  rw [hwrap]
  exact Limits.clamp_eq hheight _

/-- A long word leaves no choice but the greatest width, at which the text takes three lines. -/
theorem Leaf.measure_text_height_of_long_word :
    let text : Leaf := .text "an extravagance of" .visible default
    let given : Constraints := ⟨⟨30, 50⟩, ⟨0, 40⟩⟩
    text.measure given = .ok ⟨50, 40⟩ ∧ ∃ height, text.minExtent .vertical 50 = .ok height ∧
      given.height.clamp height = .ok 40 := by
  intro text given
  obtain ⟨size, hsize, -, hheight⟩ := @Leaf.measure_text_height "an extravagance of"
    (by decide +kernel) .visible default given (by decide)
  have hsize' : text.measure given = .ok ⟨50, 40⟩ := by decide +kernel
  rw [hsize] at hsize'
  cases hsize'
  exact ⟨hsize, hheight⟩

end BoxLayout
