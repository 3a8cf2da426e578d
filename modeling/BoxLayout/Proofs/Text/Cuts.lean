import Mathlib.Algebra.Order.Group.Nat
import Mathlib.Order.Bounds.Defs
import BoxLayout.Node.MinExtent
import BoxLayout.Proofs.Text.Width

/-!
# Greedy lines are the fewest

To wrap a paragraph is to cut its sequence of words into lines (`IsCut`), and wrapping greedily
makes the one cut in which no line has room for the first word of the next (`isGreedy_iff`). The
fuller the open line, the more lines its paragraph may take, but at most one more
(`length_greedyFrom_mono`), so that nothing is saved by closing a line early: no cut has fewer lines
(`isLeast_greedyCut`). Hence a text never takes more lines when it gets more room
(`wrap_fewest_lines`).
-/

namespace BoxLayout

namespace Text

/-- The number of characters in a line of words that are one space apart. -/
def lineLength (line : List (List Char)) : Nat := ([' '].intercalate line).length

/-- A way to cut words into lines that have words, and at most `limit` characters unless there is
only one word. -/
structure IsCut (limit : Nat) (words : List (List Char)) (cut : List (List (List Char))) :
    Prop where
  flatten : cut.flatten = words
  ne_nil : ∀ line ∈ cut, line ≠ []
  admissible : ∀ line ∈ cut, lineLength line ≤ limit ∨ line.length = 1

/-- No line has room for the first word of the next. -/
def IsGreedy (limit : Nat) (cut : List (List (List Char))) : Prop :=
  cut.IsChain fun line next => limit < lineLength (line ++ next.take 1)

/-- The number of lines that a paragraph cut in this way takes; without words it takes one. -/
def lineCount (cut : List (List (List Char))) : Nat := max cut.length 1

/-- The numbers of lines that a paragraph of these words can take. -/
def lineCounts (limit : Nat) (words : List (List Char)) : Set Nat :=
  {n | ∃ cut, IsCut limit words cut ∧ lineCount cut = n}

/-- The lines that hold the words of the open line `line` and those that follow, where a word goes
on the open line if it fits there. -/
def greedyFrom (limit : Nat) (line : List (List Char)) :
    List (List Char) → List (List (List Char))
  | [] => [line]
  | word :: rest =>
    if lineLength (line ++ [word]) ≤ limit then greedyFrom limit (line ++ [word]) rest
    else line :: greedyFrom limit [word] rest

/-- The greedy cut of a paragraph. -/
def greedyCut (limit : Nat) : List (List Char) → List (List (List Char))
  | [] => []
  | word :: rest => greedyFrom limit [word] rest

/-- The lines of a text whose paragraphs are cut greedily. -/
def greedyLines (limit : Nat) (content : List Char) : List (List (List Char)) :=
  (paragraphs content).flatMap fun paragraph => greedyCut limit (words paragraph)

/-! ## Lines of words -/

@[simp] theorem lineLength_singleton (word : List Char) : lineLength [word] = word.length := by
  rw [lineLength, List.intercalate_singleton]

theorem lineLength_cons {line : List (List Char)} (h : line ≠ []) (word : List Char) :
    lineLength (word :: line) = word.length + 1 + lineLength line := by
  cases line with
  | nil => exact absurd rfl h
  | cons next rest =>
    simp only [lineLength, List.intercalate_cons_cons, List.length_append, List.length_singleton]

theorem lineLength_append {line more : List (List Char)} (h : line ≠ []) (hm : more ≠ []) :
    lineLength (line ++ more) = lineLength line + 1 + lineLength more := by
  induction line with
  | nil => exact absurd rfl h
  | cons word rest ih =>
    rcases rest.eq_nil_or_concat with rfl | ⟨_, _, rfl⟩
    · rw [List.singleton_append, lineLength_cons hm, lineLength_singleton]
    · rw [List.cons_append, lineLength_cons (by simp), ih (by simp), lineLength_cons (by simp)]
      omega

theorem lineLength_snoc {line : List (List Char)} (h : line ≠ []) (word : List Char) :
    lineLength (line ++ [word]) = lineLength line + 1 + word.length := by
  rw [lineLength_append h (by simp), lineLength_singleton]

/-- A line can take the next of its words as long as it can take them all. -/
theorem lineLength_snoc_le {line : List (List Char)} (h : line ≠ []) (word : List Char)
    (more : List (List Char)) :
    lineLength (line ++ [word]) ≤ lineLength (line ++ word :: more) := by
  rcases Classical.em (more = []) with rfl | hm
  · exact Nat.le_refl _
  · rw [lineLength_snoc h, lineLength_append h (by simp), lineLength_cons hm]
    omega

theorem IsCut.tail {limit : Nat} {words line : List (List Char)} {cut : List (List (List Char))}
    (h : IsCut limit words (line :: cut)) : IsCut limit cut.flatten cut :=
  ⟨rfl, fun l hl => h.ne_nil l (List.mem_cons_of_mem _ hl),
    fun l hl => h.admissible l (List.mem_cons_of_mem _ hl)⟩

/-! ## The greedy cut -/

theorem flatten_greedyFrom (limit : Nat) (line rest : List (List Char)) :
    (greedyFrom limit line rest).flatten = line ++ rest := by
  induction rest generalizing line with
  | nil => simp [greedyFrom]
  | cons word rest ih =>
    unfold greedyFrom
    split
    · rw [ih, List.append_assoc, List.singleton_append]
    · rw [List.flatten_cons, ih, List.singleton_append]

/-- The lines have words and keep the limit where they can, as the open line does. -/
theorem forall_mem_greedyFrom {limit : Nat} {line rest : List (List Char)} (h : line ≠ [])
    (ha : lineLength line ≤ limit ∨ line.length = 1) :
    ∀ l ∈ greedyFrom limit line rest, l ≠ [] ∧ (lineLength l ≤ limit ∨ l.length = 1) := by
  induction rest generalizing line with
  | nil => simpa [greedyFrom] using ⟨h, ha⟩
  | cons word rest ih =>
    unfold greedyFrom
    split
    · rename_i hfits
      exact ih (by simp) (.inl hfits)
    · exact List.forall_mem_cons.2 ⟨⟨h, ha⟩, ih (by simp) (.inr rfl)⟩

theorem isCut_greedyCut (limit : Nat) (words : List (List Char)) :
    IsCut limit words (greedyCut limit words) := by
  cases words with
  | nil => exact ⟨rfl, nofun, nofun⟩
  | cons word rest =>
    have hall := @forall_mem_greedyFrom limit [word] rest (by simp) (.inr rfl)
    exact ⟨flatten_greedyFrom limit [word] rest, fun l hl => (hall l hl).1,
      fun l hl => (hall l hl).2⟩

/-- The first of the lines goes on from the open line. -/
theorem exists_greedyFrom_eq (limit : Nat) (line rest : List (List Char)) :
    ∃ more cut, greedyFrom limit line rest = (line ++ more) :: cut := by
  induction rest generalizing line with
  | nil => exact ⟨[], [], by rw [greedyFrom, List.append_nil]⟩
  | cons word rest ih =>
    unfold greedyFrom
    split
    · obtain ⟨more, cut, h⟩ := ih (line ++ [word])
      exact ⟨word :: more, cut, by rw [h, List.append_assoc, List.singleton_append]⟩
    · exact ⟨[], _, by rw [List.append_nil]⟩

theorem isGreedy_greedyFrom (limit : Nat) (line rest : List (List Char)) :
    IsGreedy limit (greedyFrom limit line rest) := by
  induction rest generalizing line with
  | nil => exact .singleton _
  | cons word rest ih =>
    unfold greedyFrom
    split
    · exact ih _
    · rename_i hfull
      obtain ⟨more, cut, h⟩ := exists_greedyFrom_eq limit [word] rest
      have hrest := ih [word]
      rw [h] at hrest ⊢
      exact List.isChain_cons_cons.2 ⟨Nat.lt_of_not_le hfull, hrest⟩

/-- Words that a line can take are put on it. -/
theorem greedyFrom_append {limit : Nat} {line more : List (List Char)} (hl : line ≠ [])
    (ha : lineLength (line ++ more) ≤ limit ∨ (line ++ more).length = 1)
    (rest : List (List Char)) :
    greedyFrom limit line (more ++ rest) = greedyFrom limit (line ++ more) rest := by
  induction more generalizing line with
  | nil => rw [List.append_nil, List.nil_append]
  | cons word more ih =>
    have hwords : (line ++ word :: more).length ≠ 1 := by
      have := List.length_pos_iff.2 hl
      simp only [List.length_append, List.length_cons]
      omega
    have hfits := Nat.le_trans (lineLength_snoc_le hl word more) (ha.resolve_right hwords)
    have hsplit : line ++ word :: more = line ++ [word] ++ more := by simp
    rw [hsplit] at ha ⊢
    rw [List.cons_append, greedyFrom, if_pos hfits, ih (by simp) ha]

/-- A greedy wrap can start with any line of words that it may take. -/
theorem IsCut.greedyCut_eq {limit : Nat} {words line : List (List Char)}
    {cut : List (List (List Char))} (h : IsCut limit words (line :: cut)) :
    greedyCut limit words = greedyFrom limit line cut.flatten := by
  obtain ⟨word, more, rfl⟩ := List.exists_cons_of_ne_nil (h.ne_nil line List.mem_cons_self)
  obtain rfl : word :: (more ++ cut.flatten) = words := h.flatten
  exact @greedyFrom_append limit [word] more (by simp) (h.admissible _ List.mem_cons_self) _

theorem IsCut.eq_greedyFrom {limit : Nat} {words line : List (List Char)}
    {cut : List (List (List Char))} (h : IsCut limit words (line :: cut))
    (hg : IsGreedy limit (line :: cut)) : line :: cut = greedyFrom limit line cut.flatten := by
  induction cut generalizing line words with
  | nil => rfl
  | cons next cut ih =>
    obtain ⟨hfull, hrest⟩ := List.isChain_cons_cons.1 hg
    obtain ⟨word, more, rfl⟩ := List.exists_cons_of_ne_nil (h.tail.ne_nil next List.mem_cons_self)
    have hclose : ¬ lineLength (line ++ [word]) ≤ limit := Nat.not_le_of_lt hfull
    have hnext : greedyFrom limit [word] (more ++ cut.flatten) =
        greedyFrom limit (word :: more) cut.flatten := h.tail.greedyCut_eq
    rw [List.flatten_cons, List.cons_append, greedyFrom, if_neg hclose, hnext, ← ih h.tail hrest]

/-- There is one greedy cut. -/
theorem isGreedy_iff {limit : Nat} {words : List (List Char)} {cut : List (List (List Char))} :
    IsCut limit words cut ∧ IsGreedy limit cut ↔ cut = greedyCut limit words := by
  constructor
  · rintro ⟨hc, hg⟩
    cases cut with
    | nil =>
      obtain rfl : [] = words := hc.flatten
      rfl
    | cons line cut => rw [hc.greedyCut_eq, hc.eq_greedyFrom hg]
  · rintro rfl
    refine ⟨isCut_greedyCut limit words, ?_⟩
    cases words with
    | nil => exact .nil
    | cons word rest => exact isGreedy_greedyFrom limit [word] rest

/-! ## Fewest lines -/

/-- From a fuller line on the same words take as many lines, or one more. -/
theorem length_greedyFrom_mono {limit : Nat} {line fuller : List (List Char)} (hl : line ≠ [])
    (hf : fuller ≠ []) (hle : lineLength line ≤ lineLength fuller) (rest : List (List Char)) :
    (greedyFrom limit line rest).length ≤ (greedyFrom limit fuller rest).length ∧
      (greedyFrom limit fuller rest).length ≤ (greedyFrom limit line rest).length + 1 := by
  induction rest generalizing line fuller with
  | nil => simp [greedyFrom]
  | cons word rest ih =>
    have hline := lineLength_snoc hl word
    have hfuller := lineLength_snoc hf word
    simp only [greedyFrom]
    by_cases hfits : lineLength (line ++ [word]) ≤ limit
    · rw [if_pos hfits]
      by_cases hfits' : lineLength (fuller ++ [word]) ≤ limit
      · rw [if_pos hfits']
        exact ih (by simp) (by simp) (by omega)
      · -- the fuller line is closed and falls behind the other: its next line has only this word
        obtain ⟨h₁, h₂⟩ := @ih [word] (line ++ [word]) (by simp) (by simp)
          (by rw [lineLength_singleton]; omega)
        rw [if_neg hfits', List.length_cons]
        omega
    · rw [if_neg hfits, if_neg (by omega), List.length_cons, List.length_cons]
      omega

/-- However full the open line is, it can be closed. -/
theorem length_greedyFrom_le_succ (limit : Nat) {line : List (List Char)} (hl : line ≠ [])
    (words : List (List Char)) :
    (greedyFrom limit line words).length ≤ (greedyCut limit words).length + 1 := by
  cases words with
  | nil => exact Nat.le_refl _
  | cons word rest =>
    rw [greedyFrom, greedyCut]
    split
    · refine (length_greedyFrom_mono (by simp) (by simp) ?_ rest).2
      rw [lineLength_singleton, lineLength_snoc hl]
      omega
    · exact Nat.le_refl _

/-- No cut has fewer lines than the greedy one. -/
theorem length_greedyCut_le {limit : Nat} {words : List (List Char)}
    {cut : List (List (List Char))} (h : IsCut limit words cut) :
    (greedyCut limit words).length ≤ cut.length := by
  induction cut generalizing words with
  | nil =>
    obtain rfl : [] = words := h.flatten
    exact Nat.le_refl _
  | cons line cut ih =>
    rw [h.greedyCut_eq, List.length_cons]
    exact Nat.le_trans
      (length_greedyFrom_le_succ limit (h.ne_nil line List.mem_cons_self) cut.flatten)
      (Nat.succ_le_succ (ih h.tail))

theorem isLeast_greedyCut (limit : Nat) (words : List (List Char)) :
    IsLeast (lineCounts limit words) (lineCount (greedyCut limit words)) := by
  refine ⟨⟨_, isCut_greedyCut limit words, rfl⟩, ?_⟩
  rintro n ⟨cut, hc, rfl⟩
  have := length_greedyCut_le hc
  unfold lineCount
  omega

/-- More room never takes more lines: a cut for less room will do. -/
theorem lineCount_greedyCut_mono {small large : Nat} (h : small ≤ large)
    (words : List (List Char)) :
    lineCount (greedyCut large words) ≤ lineCount (greedyCut small words) := by
  have hc := isCut_greedyCut small words
  exact (isLeast_greedyCut large words).2
    ⟨_, ⟨hc.flatten, hc.ne_nil, fun l hl => (hc.admissible l hl).imp_left (Nat.le_trans · h)⟩, rfl⟩

/-! ## Wrapping -/

theorem map_lineLength_greedyFrom {line : List (List Char)} (hl : line ≠ []) (limit : Nat)
    (rest : List (List Char)) : (greedyFrom limit line rest).map lineLength =
      fillFrom limit (lineLength line) (rest.map List.length) := by
  induction rest generalizing line with
  | nil => rfl
  | cons word rest ih =>
    rw [greedyFrom, List.map_cons, fillFrom, ← lineLength_snoc hl]
    split
    · exact ih (by simp)
    · rw [List.map_cons, ih (by simp), lineLength_singleton]

/-- The widths that are recorded are those of the greedy lines, or that of an empty line. -/
theorem fill_eq_map_lineLength (limit : Nat) (words : List (List Char)) :
    fill limit (words.map List.length) =
      if words = [] then [0] else (greedyCut limit words).map lineLength := by
  cases words with
  | nil => rfl
  | cons word rest =>
    rw [if_neg (by simp), greedyCut, map_lineLength_greedyFrom (by simp), lineLength_singleton,
      List.map_cons, fill]

theorem length_fill (limit : Nat) (words : List (List Char)) :
    (fill limit (words.map List.length)).length = lineCount (greedyCut limit words) := by
  cases words with
  | nil => rfl
  | cons word rest =>
    have hne := fillFrom_ne_nil limit word.length (rest.map List.length)
    have hpos := List.length_pos_iff.2 hne
    rw [← lineLength_singleton, ← map_lineLength_greedyFrom (by simp), List.length_map] at hpos
    rw [fill_eq_map_lineLength, if_neg (by simp), List.length_map, lineCount]
    exact (Nat.max_eq_left hpos).symm

theorem lines_wrap (limit : Nat) (content : List Char) : (wrap limit content).lines =
    ((paragraphs content).map fun paragraph =>
      lineCount (greedyCut limit (words paragraph))).sum := by
  show (lineWidths limit content).length = _
  rw [lineWidths, List.length_flatMap]
  exact congrArg List.sum (List.map_congr_left fun paragraph _ => length_fill limit _)

theorem widest_wrap (limit : Nat) (content : List Char) : (wrap limit content).widest =
    ((greedyLines limit content).map lineLength).max?.getD 0 := by
  have hfill (paragraph : List Char) := fill_eq_map_lineLength limit (words paragraph)
  refine Nat.le_antisymm (max?_getD_le fun width hw => ?_) (max?_getD_le fun width hw => ?_)
  · obtain ⟨paragraph, hp, hw⟩ := List.mem_flatMap.1 hw
    rw [hfill] at hw
    split at hw
    · rw [List.mem_singleton.1 hw]
      exact Nat.zero_le _
    · obtain ⟨line, hl, rfl⟩ := List.mem_map.1 hw
      exact List.le_max?_getD_of_mem
        (List.mem_map_of_mem (List.mem_flatMap.2 ⟨paragraph, hp, hl⟩))
  · obtain ⟨line, hl, rfl⟩ := List.mem_map.1 hw
    obtain ⟨paragraph, hp, hl⟩ := List.mem_flatMap.1 hl
    have hwords : words paragraph ≠ [] := fun h => by
      rw [h] at hl
      cases hl
    refine le_widest _ (List.mem_flatMap.2 ⟨paragraph, hp, ?_⟩)
    rw [hfill, if_neg hwords]
    exact List.mem_map_of_mem hl

theorem lines_wrap_mono {small large : Nat} (h : small ≤ large) (content : List Char) :
    (wrap large content).lines ≤ (wrap small content).lines := by
  rw [lines_wrap, lines_wrap]
  exact List.sum_le_sum fun paragraph _ => lineCount_greedyCut_mono h (words paragraph)

/-- For every paragraph word wrap finds the least number of lines in which its words can be set, and
the width of the widest line of the greedy cut. So a text takes no more lines where the limit is
greater, and a text that is short enough to be measured needs no more height where it is wider. -/
theorem wrap_fewest_lines (content : String) :
    (∀ limit,
      (∀ paragraph ∈ paragraphs content.toList,
        IsCut limit (words paragraph) (greedyCut limit (words paragraph)) ∧
        IsGreedy limit (greedyCut limit (words paragraph)) ∧
        IsLeast (lineCounts limit (words paragraph))
          (lineCount (greedyCut limit (words paragraph)))) ∧
      (wrap limit content.toList).lines = ((paragraphs content.toList).map fun paragraph =>
        lineCount (greedyCut limit (words paragraph))).sum ∧
      (wrap limit content.toList).widest =
        ((greedyLines limit content.toList).map lineLength).max?.getD 0) ∧
    (∀ small large, small ≤ large →
      (wrap large content.toList).lines ≤ (wrap small content.toList).lines) ∧
    (content.length < shortLength →
      ∀ frame visibility bounds narrow wide, narrow ≤ wide → wide ≤ Extent.inf →
        ∃ high low,
          (Node.leaf frame (.text content visibility bounds)).minExtent .vertical narrow =
            .ok high ∧
          (Node.leaf frame (.text content visibility bounds)).minExtent .vertical wide = .ok low ∧
          low ≤ high) := by
  refine ⟨fun limit => ⟨fun paragraph _ => ?_, lines_wrap limit _, widest_wrap limit _⟩,
    fun small large h => lines_wrap_mono h _,
    fun hshort frame visibility bounds narrow wide h hi => ?_⟩
  · obtain ⟨hcut, hgreedy⟩ := isGreedy_iff.2 (rfl : greedyCut limit (words paragraph) = _)
    exact ⟨hcut, hgreedy, isLeast_greedyCut limit _⟩
  · have hmeasure := measure_of_length_lt hshort
    have hheight (width : Int) :
        (Node.leaf frame (.text content visibility bounds)).minExtent .vertical width =
          .ok ((wrap (charLimit width) content.toList).lines * lineHeight) := by
      rw [Node.minExtent, Leaf.minExtent, hmeasure]
      rfl
    have hlines := lines_wrap_mono (charLimit_mono h hi) content.toList
    refine ⟨_, _, hheight narrow, hheight wide, ?_⟩
    exact Int.mul_le_mul_of_nonneg_right (Int.ofNat_le.2 hlines) (by decide)

/-- Three paragraphs, of which one has no words: three words take two lines of six characters and
one of eight, the others take one line each. -/
theorem wrap_fewest_lines_of_paragraphs :
    let content := "aa bb cc\n\ndd"
    IsLeast (lineCounts 6 (words "aa bb cc".toList)) 2 ∧
      (wrap 6 content.toList).lines = 2 + 1 + 1 ∧ (wrap 6 content.toList).widest = 5 ∧
      (wrap 8 content.toList).lines ≤ (wrap 6 content.toList).lines ∧
      ∃ high low,
        (Node.leaf default (.text content .visible default)).minExtent .vertical 48 = .ok high ∧
        (Node.leaf default (.text content .visible default)).minExtent .vertical Extent.inf =
          .ok low ∧ low ≤ high := by
  intro content
  obtain ⟨hcuts, hmono, hheight⟩ := wrap_fewest_lines content
  obtain ⟨hleast, hlines, hwidest⟩ := hcuts 6
  refine ⟨?_, hlines.trans (by decide +kernel), hwidest.trans (by decide +kernel),
    hmono 6 8 (by decide), hheight (by decide +kernel) _ _ _ _ _ (by decide) (by decide)⟩
  have hfirst := (hleast "aa bb cc".toList (by decide +kernel)).2.2
  have hcount : lineCount (greedyCut 6 (words "aa bb cc".toList)) = 2 := by decide +kernel
  rwa [hcount] at hfirst

end Text

end BoxLayout
