import BoxLayout.Text.Blank

/-!
# Word wrap

A text is a sequence of paragraphs, which end at line feeds, and a paragraph a sequence of words.
Lines are filled greedily: a word goes on the open line if one space and the word still fit there,
and on a new line otherwise. A word that is longer than a line stands alone on one.

* `fill_ne_nil`, `length_pieces`: every paragraph has a line, and there is one more paragraph than
  there are line feeds.
* `ne_nil_of_mem_words`: no word is empty.
-/

namespace BoxLayout

namespace Text

/-- What stands before, between and after the characters that `cut` accepts. -/
def pieces (cut : Char → Bool) (content : List Char) : List (List Char) :=
  content.foldr (fun c pieces => if cut c then [] :: pieces else pieces.modifyHead (c :: ·)) [[]]

/-- The paragraphs of a text. -/
def paragraphs (content : List Char) : List (List Char) := pieces (· == '\n') content

/-- The words of a paragraph or a text. -/
def words (content : List Char) : List (List Char) :=
  (pieces isBlank content).filter fun word => !word.isEmpty

/-- The widths of the lines that hold the open line, of width `line`, and words of the given
lengths. -/
def fillFrom (limit line : Nat) : List Nat → List Nat
  | [] => [line]
  | word :: rest =>
    if line + 1 + word ≤ limit then fillFrom limit (line + 1 + word) rest
    else line :: fillFrom limit word rest

/-- The widths of the lines that hold words of the given lengths; no words make one empty line. -/
def fill (limit : Nat) : List Nat → List Nat
  | [] => [0]
  | word :: rest => fillFrom limit word rest

/-- The widths of the lines of a text, at most `limit` characters each where words allow it. -/
def lineWidths (limit : Nat) (content : List Char) : List Nat :=
  (paragraphs content).flatMap fun paragraph => fill limit ((words paragraph).map List.length)

/-- The number of lines and the width of the widest one. -/
structure Wrapped where
  lines : Nat
  widest : Nat
  deriving DecidableEq, Repr

/-- Wraps a text at `limit` characters. -/
def wrap (limit : Nat) (content : List Char) : Wrapped :=
  let widths := lineWidths limit content
  ⟨widths.length, widths.max?.getD 0⟩

/-- The length of the longest word, zero if there is none. -/
def longestWord (content : List Char) : Nat := ((words content).map List.length).max?.getD 0

/-! ## Pieces, words and lines -/

theorem pieces_cons (cut : Char → Bool) (c : Char) (cs : List Char) :
    pieces cut (c :: cs) =
      if cut c then [] :: pieces cut cs else (pieces cut cs).modifyHead (c :: ·) := rfl

theorem pieces_ne_nil (cut : Char → Bool) (cs : List Char) : pieces cut cs ≠ [] := by
  induction cs with
  | nil => simp [pieces]
  | cons c cs ih =>
    rw [pieces_cons]
    split
    · simp
    · cases h : pieces cut cs with
      | nil => exact absurd h ih
      | cons piece rest => simp

theorem length_pieces (cut : Char → Bool) (cs : List Char) :
    (pieces cut cs).length = cs.countP cut + 1 := by
  induction cs with
  | nil => rfl
  | cons c cs ih =>
    rw [pieces_cons]
    split <;> simp [*]

theorem ne_nil_of_mem_words {content word : List Char} (h : word ∈ words content) : word ≠ [] := by
  have := (List.mem_filter.1 h).2
  intro he
  simp [he] at this

theorem fillFrom_ne_nil (limit line : Nat) (lengths : List Nat) :
    fillFrom limit line lengths ≠ [] := by
  induction lengths generalizing line with
  | nil => simp [fillFrom]
  | cons word rest ih =>
    unfold fillFrom
    split
    · exact ih _
    · simp

theorem fill_ne_nil (limit : Nat) (lengths : List Nat) : fill limit lengths ≠ [] := by
  cases lengths with
  | nil => simp [fill]
  | cons word rest => exact fillFrom_ne_nil limit word rest

end Text

end BoxLayout
