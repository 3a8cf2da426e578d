import BoxLayout.Proofs.Text.Cuts

/-!
# The least width of a text

The words of a text are those of its paragraphs (`words_eq_flatMap`), and every word stands on a
line, so that lines keep a limit just if the words do (`forall_mem_fillFrom_le_iff`,
`widest_le_iff`). The width of the longest word is therefore the least one at which no line
overflows (`Leaf.least_width_of_text`).
-/

namespace BoxLayout

namespace Text

/-! ## The words of the paragraphs -/

/-- What is cut at some places and then at more is as if it had been cut at all of them at once. -/
theorem pieces_eq_flatMap {coarse fine : Char → Bool}
    (h : ∀ c, coarse c = true → fine c = true) (cs : List Char) :
    pieces fine cs = (pieces coarse cs).flatMap (pieces fine) := by
  induction cs with
  | nil => simp [pieces]
  | cons c cs ih =>
    rw [pieces_cons, pieces_cons, ih]
    by_cases hc : coarse c = true
    · rw [if_pos hc, if_pos (h c hc), List.flatMap_cons]
      rfl
    · rw [if_neg hc]
      cases hp : pieces coarse cs with
      | nil => exact absurd hp (pieces_ne_nil coarse cs)
      | cons piece rest =>
        rw [List.modifyHead_cons, List.flatMap_cons, List.flatMap_cons, pieces_cons]
        split
        · rfl
        · cases hf : pieces fine piece with
          | nil => exact absurd hf (pieces_ne_nil fine piece)
          | cons first others => rfl

theorem words_eq_flatMap (content : List Char) :
    words content = (paragraphs content).flatMap words := by
  have hblank (c : Char) (h : (c == '\n') = true) : isBlank c = true := by
    rw [beq_iff_eq] at h
    subst h
    decide
  rw [words, pieces_eq_flatMap hblank, List.filter_flatMap]
  rfl

/-! ## Lines and words -/

/-- The lines keep the limit if the open line and the words that follow do. -/
theorem forall_mem_fillFrom_le_iff {limit line : Nat} {lengths : List Nat} :
    (∀ width ∈ fillFrom limit line lengths, width ≤ limit) ↔
      line ≤ limit ∧ ∀ n ∈ lengths, n ≤ limit := by
  induction lengths generalizing line with
  | nil => simp [fillFrom]
  | cons word rest ih =>
    unfold fillFrom
    split
    · rename_i hfits
      rw [ih, List.forall_mem_cons]
      exact ⟨fun h => ⟨by omega, by omega, h.2⟩, fun h => ⟨hfits, h.2.2⟩⟩
    · rw [List.forall_mem_cons, List.forall_mem_cons, ih]

theorem forall_mem_fill_le_iff {limit : Nat} {lengths : List Nat} :
    (∀ width ∈ fill limit lengths, width ≤ limit) ↔ ∀ n ∈ lengths, n ≤ limit := by
  cases lengths with
  | nil => simp [fill]
  | cons word rest => rw [fill, forall_mem_fillFrom_le_iff, List.forall_mem_cons]

theorem max?_getD_le_iff {ns : List Nat} {bound : Nat} :
    ns.max?.getD 0 ≤ bound ↔ ∀ n ∈ ns, n ≤ bound :=
  ⟨fun h _ hn => Nat.le_trans (List.le_max?_getD_of_mem hn) h, max?_getD_le⟩

/-- A text keeps a limit if its longest word does. -/
theorem widest_le_iff {limit : Nat} {content : List Char} :
    (wrap limit content).widest ≤ limit ↔ longestWord content ≤ limit := by
  rw [wrap, longestWord, max?_getD_le_iff, max?_getD_le_iff, words_eq_flatMap, lineWidths]
  simp only [List.forall_mem_map, List.forall_mem_flatMap, forall_mem_fill_le_iff]

end Text

/-! ## The least width -/

/-- The least width of a text, which does not depend on its height, divides the widths at which all
of its lines fit from those at which some line overflows. -/
theorem Leaf.least_width_of_text {content : String} (hc : content.length < Text.shortLength)
    (visibility : Visibility) (bounds : Rect) :
    ∃ least, (∀ height, (Leaf.text content visibility bounds).minExtent .horizontal height =
        .ok least) ∧
      ∀ width, 0 ≤ width → width < Extent.inf →
        (∃ size, Text.measure content width = .ok size ∧ (size.width ≤ width ↔ least ≤ width)) ∧
        (least ≤ width → ∀ line ∈ Text.greedyLines (Text.charLimit width) content.toList,
          Text.lineLength line * Text.charWidth ≤ width) ∧
        (width < least → ∃ line ∈ Text.greedyLines (Text.charLimit width) content.toList,
          width < Text.lineLength line * Text.charWidth) := by
  refine ⟨_, fun height => Text.minWidth_of_length_lt hc, fun width hw hfinite => ?_⟩
  have hcount (count : Nat) : count ≤ Text.charLimit width ↔ count * Text.charWidth ≤ width :=
    Text.le_charLimit_iff hw (Int.ne_of_lt hfinite)
  have hwidest := @Text.widest_le_iff (Text.charLimit width) content.toList
  have hlines := Text.widest_wrap (Text.charLimit width) content.toList
  refine ⟨⟨_, Text.measure_of_length_lt hc width, ?_⟩, fun hleast => ?_, fun hleast => ?_⟩
  · rw [← hcount, ← hcount, hwidest]
  · rw [← hcount, ← hwidest, hlines, Text.max?_getD_le_iff, List.forall_mem_map] at hleast
    exact fun line hl => (hcount _).1 (hleast line hl)
  · rw [← Int.not_le, ← hcount, ← hwidest, hlines, Text.max?_getD_le_iff, List.forall_mem_map]
      at hleast
    simpa [hcount] using hleast

/-- The words of two paragraphs need forty pixels, and with one pixel less a word overflows. -/
theorem Leaf.least_width_of_paragraphs :
    let text : Leaf := .text "a quick\nbrown fox" .visible default
    text.minExtent .horizontal 7 = .ok 40 ∧
      (∀ line ∈ Text.greedyLines 5 "a quick\nbrown fox".toList,
        Text.lineLength line * Text.charWidth ≤ 40) ∧
      ∃ line ∈ Text.greedyLines 4 "a quick\nbrown fox".toList,
        39 < Text.lineLength line * Text.charWidth := by
  intro text
  obtain ⟨least, hleast, hwidths⟩ := @Leaf.least_width_of_text "a quick\nbrown fox"
    (by decide +kernel) .visible default
  have hforty : text.minExtent .horizontal 7 = .ok 40 := by decide +kernel
  rw [hleast] at hforty
  cases hforty
  exact ⟨hleast 7, (hwidths 40 (by decide) (by decide)).2.1 (by decide),
    (hwidths 39 (by decide) (by decide)).2.2 (by decide)⟩

end BoxLayout
