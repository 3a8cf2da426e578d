import BoxLayout.Extent.Checked
import BoxLayout.Size
import BoxLayout.Text.Wrap

/-!
# Text metrics

Text is set in a face whose characters all have the same width. Counts of characters and lines are
turned into extents here; a count enters an extent through its low 32 bits.
-/

namespace BoxLayout

namespace Text

/-- The width of a character. -/
def charWidth : Int := 8

/-- The height of a line. -/
def lineHeight : Int := 16

/-- The number of characters that a line may have where no width is set. -/
def unlimited : Nat := 18446744073709551615

/-- The number of characters that fit in `width`. -/
def charLimit (width : Int) : Nat :=
  if width = Extent.inf then unlimited else ((max width 0).tdiv charWidth).toNat

/-- The extent of `count` characters in a line. -/
def widthOf (count : Nat) : Except Fault Int := Extent.mul (Extent.wrap count) charWidth

/-- The extent of `count` lines. -/
def heightOf (count : Nat) : Except Fault Int := Extent.mul (Extent.wrap count) lineHeight

/-- The size of a text wrapped at `width`. -/
def measure (content : String) (width : Int) : Except Fault Size := do
  let wrapped := wrap (charLimit width) content.toList
  return ⟨← widthOf wrapped.widest, ← heightOf wrapped.lines⟩

/-- The width of the longest word. -/
def minWidth (content : String) : Except Fault Int := widthOf (longestWord content.toList)

/-- The size of a text on one line, whatever it holds. -/
def lineSize (content : String) : Except Fault Size :=
  return ⟨← widthOf content.length, lineHeight⟩

theorem widthOf_eq {count : Nat} (h : count < 268435456) :
    widthOf count = .ok (count * charWidth) := by
  have hc : Extent.InRange (count : Int) := by
    simp only [Extent.InRange, Extent.least, Extent.inf]; omega
  rw [widthOf, Extent.wrap_of_inRange hc]
  refine Extent.checked_of_inRange ?_
  simp only [Extent.InRange, Extent.least, Extent.inf, charWidth]; omega

theorem heightOf_eq {count : Nat} (h : count < 134217728) :
    heightOf count = .ok (count * lineHeight) := by
  have hc : Extent.InRange (count : Int) := by
    simp only [Extent.InRange, Extent.least, Extent.inf]; omega
  rw [heightOf, Extent.wrap_of_inRange hc]
  refine Extent.checked_of_inRange ?_
  simp only [Extent.InRange, Extent.least, Extent.inf, lineHeight]; omega

end Text

end BoxLayout
