import BoxLayout.Constraints.Basic

/-!
# Faults

Everything that can stop an operation, by cause. A fault that a caller could have avoided by
looking first has a message (`Fault.message?`); one of the arithmetic or of the memory has none.

* `bind_eq_ok_iff`, `bind_eq_error_iff`: a sequence of operations gives a result if each of them
  does, and otherwise the first fault.
-/

namespace BoxLayout

/-- Why an operation gave no result. -/
inductive Fault where
  /-- A sum, difference, product or quotient left the range of its numbers. -/
  | overflow
  /-- A value was to be held between limits that exclude everything. -/
  | emptyClamp
  /-- A table has more tracks or cells than memory can hold. -/
  | capacity
  /-- A stack has no child at the given index, or a table is without its cells. -/
  | indexOutOfRange
  /-- A path leads to no node, or to one of another kind. -/
  | noSuchNode
  /-- An anchor lies past the end of its scale. -/
  | anchorOutOfRange (value : Nat)
  /-- A table that has its size was given another. -/
  | alreadySized (rows cols : Nat)
  /-- A table of `rows` by `cols` has no such cell. -/
  | cellOutOfRange (row col rows cols : Nat)
  /-- A table was placed without having been measured. -/
  | notMeasured
  /-- A node was measured under constraints that are not normalized. -/
  | notNormalized (given : Constraints)
  deriving DecidableEq, Repr

namespace Fault

/-- What a fault has to say, if anything. -/
def message? : Fault → Option String
  | overflow | emptyClamp | capacity | indexOutOfRange | noSuchNode => none
  | anchorOutOfRange value => some ("anchor " ++ toString value ++ " out of range 0..=100")
  | alreadySized rows cols =>
    some ("table already sized to " ++ toString rows ++ "x" ++ toString cols)
  | cellOutOfRange row col rows cols =>
    some ("cell (" ++ toString row ++ ", " ++ toString col ++ ") out of range for " ++
      toString rows ++ "x" ++ toString cols ++ " table")
  | notMeasured => some "TableLayout::set_bounds called before layout"
  | notNormalized given => some ("non-normalized constraints " ++ given.text)

end Fault

/-! ## Sequences of operations -/

theorem bind_eq_ok_iff {α β : Type} {first : Except Fault α} {next : α → Except Fault β} {b : β} :
    first >>= next = .ok b ↔ ∃ a, first = .ok a ∧ next a = .ok b := by
  cases first with
  | error fault =>
    constructor
    · intro h; cases h
    · rintro ⟨_, h, _⟩; cases h
  | ok a =>
    constructor
    · intro h; exact ⟨a, rfl, h⟩
    · rintro ⟨_, h, hb⟩; cases h; exact hb

theorem bind_eq_error_iff {α β : Type} {first : Except Fault α} {next : α → Except Fault β}
    {fault : Fault} :
    first >>= next = .error fault ↔
      first = .error fault ∨ ∃ a, first = .ok a ∧ next a = .error fault := by
  cases first with
  | error other =>
    constructor
    · intro h; cases h; exact .inl rfl
    · rintro (h | ⟨_, h, _⟩) <;> cases h; rfl
  | ok a =>
    constructor
    · intro h; exact .inr ⟨a, rfl, h⟩
    · rintro (h | ⟨_, h, hn⟩) <;> cases h; exact hn

theorem map_eq_error_iff {α β : Type} {first : Except Fault α} {f : α → β} {fault : Fault} :
    f <$> first = .error fault ↔ first = .error fault := by
  cases first with
  | error other => exact ⟨fun h => by cases h; rfl, fun h => by cases h; rfl⟩
  | ok a => exact ⟨nofun, nofun⟩

theorem map_eq_ok_iff {α β : Type} {first : Except Fault α} {f : α → β} {b : β} :
    f <$> first = .ok b ↔ ∃ a, first = .ok a ∧ f a = b := by
  cases first with
  | error fault =>
    constructor
    · intro h; cases h
    · rintro ⟨_, h, _⟩; cases h
  | ok a =>
    constructor
    · intro h; cases h; exact ⟨a, rfl, rfl⟩
    · rintro ⟨_, h, rfl⟩; cases h; rfl

/-- A result found before the others goes in front of them. -/
theorem map_reverse_cons {α : Type} (done : List α) (a : α) (others : Except Fault (List α)) :
    ((a :: done).reverse ++ ·) <$> others =
      (done.reverse ++ ·) <$> (others >>= fun rest => pure (a :: rest)) := by
  cases others with
  | error _ => rfl
  | ok rest =>
    show Except.ok ((a :: done).reverse ++ rest) = .ok (done.reverse ++ a :: rest)
    simp

end BoxLayout
