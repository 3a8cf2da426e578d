import BoxLayout.Leaf

/-!
# A text is no larger than its characters allow

However a text is wrapped, it has at most one line more than characters (`length_lineWidths_le`),
and no line and no word is wider than the text is long (`le_length_of_mem_lineWidths`,
`longestWord_le`). The extents of a text with fewer than `shortLength` characters are therefore
computed without a fault.
-/

namespace BoxLayout

namespace Text

/-- What stretches of the given lengths take if a character follows each of them. -/
def charge : List Nat → Nat
  | [] => 0
  | n :: ns => n + 1 + charge ns

theorem charge_pieces (cut : Char → Bool) (cs : List Char) :
    charge ((pieces cut cs).map List.length) = cs.length + 1 := by
  induction cs with
  | nil => rfl
  | cons c cs ih =>
    rw [pieces_cons]
    split
    · simp only [List.map_cons, charge, ih, List.length_nil, List.length_cons]; omega
    · cases hp : pieces cut cs with
      | nil => exact absurd hp (pieces_ne_nil cut cs)
      | cons piece rest =>
        rw [hp] at ih
        simp only [List.modifyHead_cons, List.map_cons, charge, List.length_cons] at ih ⊢
        omega

theorem charge_filter_le (keep : List Char → Bool) (pieces : List (List Char)) :
    charge ((pieces.filter keep).map List.length) ≤ charge (pieces.map List.length) := by
  induction pieces with
  | nil => exact Nat.le_refl _
  | cons piece rest ih =>
    rw [List.filter_cons]
    split <;> simp only [List.map_cons, charge] <;> omega

theorem lt_charge {lengths : List Nat} {n : Nat} (h : n ∈ lengths) : n < charge lengths := by
  induction lengths with
  | nil => cases h
  | cons m lengths ih =>
    rw [charge]
    rcases List.mem_cons.1 h with rfl | h
    · omega
    · have := ih h; omega

theorem charge_words_le (content : List Char) :
    charge ((words content).map List.length) ≤ content.length + 1 := by
  have := charge_filter_le (fun word => !word.isEmpty) (pieces isBlank content)
  rwa [charge_pieces] at this

/-! ## Lines -/

theorem length_fillFrom_le (limit line : Nat) (lengths : List Nat) :
    (fillFrom limit line lengths).length ≤ charge lengths + 1 := by
  induction lengths generalizing line with
  | nil => exact Nat.le_refl _
  | cons word rest ih =>
    unfold fillFrom
    split
    · have := ih (line + 1 + word)
      rw [charge]; omega
    · have := ih word
      rw [List.length_cons, charge]; omega

theorem le_of_mem_fillFrom {limit line : Nat} {lengths : List Nat} {width : Nat}
    (h : width ∈ fillFrom limit line lengths) : width ≤ line + charge lengths := by
  induction lengths generalizing line with
  | nil =>
    rw [List.mem_singleton.1 h]
    exact Nat.le_add_right _ _
  | cons word rest ih =>
    unfold fillFrom at h
    rw [charge]
    split at h
    · have := ih h; omega
    · rcases List.mem_cons.1 h with rfl | h
      · omega
      · have := ih h; omega

theorem length_fill_le (limit : Nat) (paragraph : List Char) :
    (fill limit ((words paragraph).map List.length)).length ≤ paragraph.length + 1 := by
  have hw := charge_words_le paragraph
  cases hl : (words paragraph).map List.length with
  | nil => simp [fill]
  | cons word rest =>
    have := length_fillFrom_le limit word rest
    rw [hl, charge] at hw
    rw [fill]; omega

theorem le_of_mem_fill {limit : Nat} {paragraph : List Char} {width : Nat}
    (h : width ∈ fill limit ((words paragraph).map List.length)) : width ≤ paragraph.length := by
  have hw := charge_words_le paragraph
  cases hl : (words paragraph).map List.length with
  | nil =>
    rw [hl, fill, List.mem_singleton] at h
    omega
  | cons word rest =>
    rw [hl] at h hw
    have := le_of_mem_fillFrom (show width ∈ fillFrom limit word rest from h)
    rw [charge] at hw
    omega

theorem length_lineWidths_le (limit : Nat) (content : List Char) :
    (lineWidths limit content).length ≤ content.length + 1 := by
  have hall : ∀ paragraphs : List (List Char), (paragraphs.flatMap fun paragraph =>
      fill limit ((words paragraph).map List.length)).length ≤
        charge (paragraphs.map List.length) := by
    intro paragraphs
    induction paragraphs with
    | nil => exact Nat.le_refl _
    | cons paragraph rest ih =>
      have := length_fill_le limit paragraph
      rw [List.flatMap_cons, List.length_append, List.map_cons, charge]
      omega
  have := hall (paragraphs content)
  rwa [paragraphs, charge_pieces] at this

theorem le_length_of_mem_lineWidths {limit : Nat} {content : List Char} {width : Nat}
    (h : width ∈ lineWidths limit content) : width ≤ content.length := by
  obtain ⟨paragraph, hp, hw⟩ := List.mem_flatMap.1 h
  have := le_of_mem_fill hw
  have := lt_charge (List.mem_map_of_mem (f := List.length) hp)
  rw [paragraphs, charge_pieces] at this
  omega

theorem max?_getD_le {ns : List Nat} {bound : Nat} (h : ∀ n ∈ ns, n ≤ bound) :
    ns.max?.getD 0 ≤ bound := by
  cases hm : ns.max? with
  | none => exact Nat.zero_le _
  | some m => exact h m (List.max?_mem hm)

theorem longestWord_le (content : List Char) : longestWord content ≤ content.length := by
  refine max?_getD_le fun n hn => ?_
  have := lt_charge hn
  have := charge_words_le content
  omega

/-! ## Extents -/

/-- Texts with fewer characters have extents. -/
def shortLength : Nat := 67108864

theorem widthOf_of_lt {count : Nat} (h : count < shortLength) :
    widthOf count = .ok (count * charWidth) :=
  widthOf_eq (Nat.lt_trans h (by decide))

theorem measure_of_length_lt {content : String} (h : content.length < shortLength) (width : Int) :
    measure content width =
      .ok ⟨(wrap (charLimit width) content.toList).widest * charWidth,
        (wrap (charLimit width) content.toList).lines * lineHeight⟩ := by
  rw [← String.length_toList] at h
  have hw : (wrap (charLimit width) content.toList).widest ≤ content.toList.length :=
    max?_getD_le fun n hn => le_length_of_mem_lineWidths hn
  have hl := length_lineWidths_le (charLimit width) content.toList
  rw [measure, widthOf_of_lt (Nat.lt_of_le_of_lt hw h), heightOf_eq]
  · rfl
  · simp only [wrap, shortLength] at *; omega

theorem minWidth_of_length_lt {content : String} (h : content.length < shortLength) :
    minWidth content = .ok (longestWord content.toList * charWidth) := by
  rw [← String.length_toList] at h
  exact widthOf_of_lt (Nat.lt_of_le_of_lt (longestWord_le _) h)

end Text

/-! ## Buttons -/

namespace Leaf

theorem exists_of_buttonSize {label : String} {size : Size} (h : buttonSize label = .ok size) :
    ∃ width, Text.widthOf label.length = .ok width ∧ Extent.InRange (width + 16) ∧
      size = ⟨width + 16, 24⟩ := by
  obtain ⟨line, hline, h⟩ := bind_eq_ok_iff.1 h
  obtain ⟨width, hwidth, hline⟩ := bind_eq_ok_iff.1 hline
  cases hline
  obtain ⟨across, ha, h⟩ := bind_eq_ok_iff.1 h
  obtain ⟨outer, ho, h⟩ := bind_eq_ok_iff.1 h
  obtain ⟨down, hd, h⟩ := bind_eq_ok_iff.1 h
  obtain ⟨height, hh, h⟩ := bind_eq_ok_iff.1 h
  cases ha
  cases hd
  cases hh
  cases h
  obtain ⟨hrange, rfl⟩ := Extent.add_eq_ok_iff.1 ho
  exact ⟨width, hwidth, hrange, rfl⟩

theorem buttonSize_of_length_lt {label : String} (h : label.length < Text.shortLength) :
    buttonSize label = .ok ⟨label.length * Text.charWidth + 16, Text.lineHeight + 8⟩ := by
  have hr : Extent.InRange (label.length * Text.charWidth + 16) := by
    simp only [Extent.InRange, Extent.least, Extent.inf, Text.shortLength, Text.charWidth] at *
    omega
  unfold buttonSize
  simp only [bind_eq_ok_iff]
  exact ⟨_, by rw [Text.lineSize, Text.widthOf_of_lt h]; rfl, _, rfl, _,
    Extent.checked_of_inRange hr, _, rfl, _,
    Extent.checked_of_inRange (show Extent.InRange (16 + 8) by decide), rfl⟩

end Leaf

end BoxLayout
