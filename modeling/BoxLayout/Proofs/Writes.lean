import BoxLayout.Proofs.History
import BoxLayout.Session

/-!
# What the two passes write

Measuring writes what it finds out and placing writes places, so that neither touches what the other
one leaves in a tree (`retain_of_measure`, `retain_of_place`). Placing reads no places either:
placed twice a tree is as if it had been placed the second time only, whatever was measured before
and however long ago (`Node.place_of_place`).
-/

namespace BoxLayout

namespace Node

/-- An earlier placing has no influence on a later one. -/
theorem place_of_place {node : Node} {first : Rect} {p : Placed} (h : node.place first = .ok p)
    (second : Rect) : p.node.place second = node.place second := by
  have hsame : p.node.retain .onlySizes .everything = node.retain .onlySizes .everything :=
    retain_of_place h
  exact ((agree_place_of_retain_eq hsame second).mono fun _ _ => Placed.IsLike.eq).eq

end Node

namespace Session

theorem reports_of_measure {session next : Session} {path : Path} {given : Constraints}
    {pass : Pass} (h : session.measure path given = .ok (next, pass)) : pass.reports = [] := by
  obtain ⟨_, -, h⟩ := bind_eq_ok_iff.1 h
  cases h
  rfl

end Session

/-- Measuring changes no place of a node or a leaf, nothing that a host has set and nothing below a
collapsed child, and tells no observer. Placing changes nothing that measuring found out, nothing
that a host has set and nothing below a collapsed child. And after one placing the next one gives
the same tree, calls and reports, or stops with the same fault, as without it. -/
theorem passes_write_apart :
    (∀ (node : Node) (given : Constraints) (m : Measured), node.measure given = .ok m →
      m.node.retain .onlyPlaces .everything = node.retain .onlyPlaces .everything) ∧
    (∀ (session next : Session) (path : Path) (given : Constraints) (pass : Pass),
      session.measure path given = .ok (next, pass) → pass.reports = []) ∧
    (∀ (node : Node) (bounds : Rect) (p : Placed), node.place bounds = .ok p →
      p.node.retain .onlySizes .everything = node.retain .onlySizes .everything) ∧
    ∀ (node : Node) (first second : Rect) (p : Placed), node.place first = .ok p →
      p.node.place second = node.place second := by
  refine ⟨?_, ?_, ?_, ?_⟩
  · intro node given m h
    exact Node.retain_of_measure h
  · intro session next path given pass h
    exact Session.reports_of_measure h
  · intro node bounds p h
    exact Node.retain_of_place h
  · intro node first second p h
    exact Node.place_of_place h second

/-- A row that has been placed somewhere else before, with a table in it, is measured and placed. -/
theorem passes_write_apart_in_row :
    let grid : Grid := { rows := 1, cols := 2, sized := true }
    let row := Node.stack ⟨.visible, ⟨⟨3, 4⟩, ⟨5, 6⟩⟩⟩ { axis := .horizontal, align := .stretch }
      .zero [⟨.table {} grid [some (.ofLeaf (.button "Ok" .visible default)), none], 1, ⟨1, 1⟩⟩,
        ⟨.ofLeaf (.canvas ⟨9, 9⟩ .visible (some "a")), 0, ⟨2, 2⟩⟩]
    ∃ m p, row.measure (.exactly ⟨100, 30⟩) = .ok m ∧
      m.node.retain .onlyPlaces .everything = row.retain .onlyPlaces .everything ∧
      m.node.place ⟨⟨10, 20⟩, ⟨100, 30⟩⟩ = .ok p ∧
      p.node.retain .onlySizes .everything = m.node.retain .onlySizes .everything ∧
      p.node.place ⟨⟨-5, 7⟩, ⟨50, 8⟩⟩ = m.node.place ⟨⟨-5, 7⟩, ⟨50, 8⟩⟩ ∧
      ∃ next pass, (Session.mk row {} .trace).measure [] (.exactly ⟨100, 30⟩) = .ok (next, pass) ∧
        pass.reports = [] := by
  intro grid row
  obtain ⟨hmeasure, hreports, hplace, htwice⟩ := passes_write_apart
  obtain ⟨m, hm, hplaced⟩ := map_eq_ok_iff.1 (by decide +kernel : (fun m : Measured =>
      (m.node.place ⟨⟨10, 20⟩, ⟨100, 30⟩⟩).toOption.isSome) <$>
    row.measure (.exactly ⟨100, 30⟩) = .ok true)
  cases hp : m.node.place ⟨⟨10, 20⟩, ⟨100, 30⟩⟩ with
  | error fault => rw [hp] at hplaced; cases hplaced
  | ok p =>
    obtain ⟨next, pass, hpass⟩ : ∃ next pass,
        (Session.mk row {} .trace).measure [] (.exactly ⟨100, 30⟩) = .ok (next, pass) := by
      rw [Session.measure, Session.modify, Node.modify, hm]
      exact ⟨_, _, rfl⟩
    exact ⟨m, p, hm, hmeasure row _ m hm, hp, hplace m.node _ p hp, htwice m.node _ _ p hp,
      next, pass, hpass, hreports _ _ _ _ _ hpass⟩

end BoxLayout
