import BoxLayout.Node.Outline
import BoxLayout.Proofs.Lines
import BoxLayout.Text.Wrap

/-!
# Reading outlines back

The lines of an outline say how deep each node lies and come in pre-order, so that the nodes below a
node are those that follow it, up to the first one that is no deeper. Going through the lines from
the last one to the first, `plant` puts each node in front of the trees that are complete so far
(`Outline.foldr_plant_entries`). Together with a reader for single lines
(`OutlineLabel.read?_lineChars`) this gives the outline back from its text (`Outline.read?_text`),
so that trees with the same text look alike (`Node.outline_loses_nothing`).
-/

namespace BoxLayout

/-! ## Readers for the parts of a line -/

/-- Where a list is divided at the first element that fails the test. -/
theorem takeWhile_dropWhile_append {α : Type} {p : α → Bool} {xs ys : List α}
    (hx : ∀ x ∈ xs, p x = true) (hy : ∀ y ∈ ys.head?, p y = false) :
    (xs ++ ys).takeWhile p = xs ∧ (xs ++ ys).dropWhile p = ys := by
  rw [List.takeWhile_append_of_pos hx, List.dropWhile_append_of_pos hx]
  cases ys with
  | nil => simp
  | cons y ys => simp [hy y rfl]

/-- What stands before the first `stop`, and what stands behind it. -/
def cutAt (stop : Char) : List Char → Option (List Char × List Char)
  | [] => none
  | c :: cs =>
    if c = stop then some ([], cs)
    else (cutAt stop cs).map fun (before, after) => (c :: before, after)

theorem cutAt_append_cons {stop : Char} {before : List Char} (h : stop ∉ before)
    (after : List Char) : cutAt stop (before ++ stop :: after) = some (before, after) := by
  induction before with
  | nil => simp [cutAt]
  | cons c before ih =>
    obtain ⟨hc, hbefore⟩ := List.ne_and_not_mem_of_not_mem_cons h
    rw [List.cons_append, cutAt, if_neg hc.symm, ih hbefore]
    rfl

/-- Reads a number. -/
def readNumber? (text : List Char) : Option Int := (String.ofList text).toInt?

theorem readNumber?_toString (v : Int) : readNumber? (toString v).toList = some v := by
  rw [readNumber?, String.ofList_toList]
  exact Int.toInt?_repr v

/-- Reads an extent. -/
def Extent.read? (text : List Char) : Option Int :=
  if text = "inf".toList then some inf else readNumber? text

theorem Extent.read?_text (v : Int) : Extent.read? (Extent.text v).toList = some v := by
  unfold Extent.read? Extent.text
  split
  · rename_i hinf
    rw [if_pos rfl, hinf]
  · have hword : (toString v).toList ≠ "inf".toList := fun h =>
      absurd (mem_toString (show 'i' ∈ (toString v).toList by rw [h]; decide)) (by decide)
    rw [if_neg hword, readNumber?_toString]

/-- Reads a place at the start of a line; the second result is the rest of the line. -/
def Rect.read? (line : List Char) : Option (Rect × List Char) := do
  let (_, line) ← cutAt '(' line
  let (x, line) ← cutAt ',' line
  let (y, line) ← cutAt ' ' line
  let (width, line) ← cutAt 'x' line
  let (height, line) ← cutAt ')' line
  return (⟨⟨← readNumber? x, ← readNumber? y⟩, ⟨← Extent.read? width, ← Extent.read? height⟩⟩,
    line)

theorem Rect.read?_text (rect : Rect) (rest : List Char) :
    Rect.read? (rect.text.toList ++ rest) = some (rect, rest) := by
  have hline : rect.text.toList ++ rest = [] ++ '(' :: ((toString rect.origin.x).toList ++
      ',' :: ((toString rect.origin.y).toList ++ ' ' :: ((Extent.text rect.size.width).toList ++
        'x' :: ((Extent.text rect.size.height).toList ++ ')' :: rest)))) := by
    simp [toList_text, Size.toList_text]
  have hnumber {stop : Char} (h : isExtentChar stop = false) (v : Int) (after : List Char) :
      cutAt stop ((toString v).toList ++ stop :: after) = some ((toString v).toList, after) :=
    cutAt_append_cons (not_mem_toString h) after
  have hextent {stop : Char} (h : isExtentChar stop = false) (v : Int) (after : List Char) :
      cutAt stop ((Extent.text v).toList ++ stop :: after) =
        some ((Extent.text v).toList, after) :=
    cutAt_append_cons (Extent.not_mem_text h) after
  rw [Rect.read?, hline]
  refine Option.bind_eq_some_iff.2 ⟨_, cutAt_append_cons List.not_mem_nil _, ?_⟩
  refine Option.bind_eq_some_iff.2 ⟨_, hnumber rfl _ _, ?_⟩
  refine Option.bind_eq_some_iff.2 ⟨_, hnumber rfl _ _, ?_⟩
  refine Option.bind_eq_some_iff.2 ⟨_, hextent rfl _ _, ?_⟩
  refine Option.bind_eq_some_iff.2 ⟨_, hextent rfl _ _, ?_⟩
  simp only [readNumber?_toString, Extent.read?_text]
  rfl

namespace OutlineLabel

/-- What stands behind the place of a node. -/
def remark (collapsed : Bool) : List Char := if collapsed then " collapsed".toList else []

/-- The line for a node at `depth`, without its end. -/
def lineChars (label : OutlineLabel) (depth : Nat) : List Char :=
  List.replicate (depth * 2) ' ' ++
    (label.name.toList ++ ' ' :: (label.bounds.text.toList ++ remark label.collapsed))

/-- Reads the line for a node, without its end: the depth of the node and what is told of it. -/
def read? (line : List Char) : Option (Nat × OutlineLabel) := do
  let depth := (line.takeWhile (· == ' ')).length / 2
  let (name, rest) ← cutAt ' ' (line.dropWhile (· == ' '))
  let (bounds, rest) ← Rect.read? rest
  let collapsed ← [false, true].find? fun collapsed => rest == remark collapsed
  return (depth, ⟨String.ofList name, bounds, collapsed⟩)

theorem toList_line (label : OutlineLabel) (depth : Nat) :
    (label.line depth).toList = label.lineChars depth ++ ['\n'] := by
  unfold line lineChars remark indentation
  split <;> simp

theorem read?_lineChars {label : OutlineLabel} (h : IsWord label.name) (depth : Nat) :
    read? (label.lineChars depth) = some (depth, label) := by
  have hblanks : ∀ c ∈ List.replicate (depth * 2) ' ', (c == ' ') = true := fun c hc => by
    rw [List.eq_of_mem_replicate hc]; rfl
  have hhead := h.head?_ne (' ' :: (label.bounds.text.toList ++ remark label.collapsed))
  obtain ⟨htake, hdrop⟩ := takeWhile_dropWhile_append hblanks (fun c hc => by
    rw [beq_eq_false_iff_ne]
    rintro rfl
    exact hhead hc)
  have hremark : ([false, true].find? fun collapsed => remark label.collapsed == remark collapsed) =
      some label.collapsed := by cases label.collapsed <;> rfl
  rw [read?, lineChars, htake, hdrop]
  refine Option.bind_eq_some_iff.2 ⟨_, cutAt_append_cons h.2 _, ?_⟩
  refine Option.bind_eq_some_iff.2 ⟨_, Rect.read?_text _ _, ?_⟩
  refine Option.bind_eq_some_iff.2 ⟨_, hremark, ?_⟩
  rw [String.ofList_toList, List.length_replicate, Nat.mul_div_cancel _ (by decide)]
  rfl

theorem newline_not_mem_lineChars {label : OutlineLabel} (h : '\n' ∉ label.name.toList)
    (depth : Nat) : '\n' ∉ label.lineChars depth := by
  have hremark : '\n' ∉ remark label.collapsed := by cases label.collapsed <;> decide
  simp [lineChars, h, hremark, Rect.newline_not_mem_text]

end OutlineLabel

/-! ## From lines to trees -/

theorem mapM_map_eq_some {α β : Type} {f : α → β} {g : β → Option α} {xs : List α}
    (h : ∀ x ∈ xs, g (f x) = some x) : (xs.map f).mapM g = some xs := by
  induction xs with
  | nil => rfl
  | cons x xs ih =>
    obtain ⟨hx, hxs⟩ := List.forall_mem_cons.1 h
    rw [List.map_cons, List.mapM_cons, hx, ih hxs]
    rfl

/-- The lines of a text, each of which has an end. -/
def linesOf (text : String) : List (List Char) := (Text.paragraphs text.toList).dropLast

theorem paragraphs_append_cons {line : List Char} (h : '\n' ∉ line) (rest : List Char) :
    Text.paragraphs (line ++ '\n' :: rest) = line :: Text.paragraphs rest := by
  induction line with
  | nil => rfl
  | cons c line ih =>
    obtain ⟨hc, hline⟩ := List.ne_and_not_mem_of_not_mem_cons h
    have hcut : (c == '\n') = false := beq_eq_false_iff_ne.2 hc.symm
    rw [List.cons_append, Text.paragraphs, Text.pieces_cons, hcut, if_neg Bool.false_ne_true]
    rw [← Text.paragraphs, ih hline, List.modifyHead_cons]

namespace Outline

/-- Puts a node in front of trees, each with its depth: the first ones that are deeper than the node
are what is below it. -/
def plant (entry : Nat × OutlineLabel) (trees : List (Nat × Outline)) : List (Nat × Outline) :=
  let isBelow := fun tree : Nat × Outline => decide (entry.1 < tree.1)
  (entry.1, mk entry.2 ((trees.takeWhile isBelow).map Prod.snd)) :: trees.dropWhile isBelow

/-- Reads an outline. -/
def read? (text : String) : Option Outline := do
  match (← (linesOf text).mapM OutlineLabel.read?).foldr plant [] with
  | [(0, outline)] => some outline
  | _ => none

theorem foldr_plant_entriesAll {outlines : List Outline}
    (ih : ∀ outline ∈ outlines, ∀ depth trees, (∀ tree ∈ trees.head?, tree.1 ≤ depth) →
      (outline.entries depth).foldr plant trees = (depth, outline) :: trees)
    {depth : Nat} {trees : List (Nat × Outline)} (h : ∀ tree ∈ trees.head?, tree.1 ≤ depth) :
    (entriesAll depth outlines).foldr plant trees = outlines.map (depth, ·) ++ trees := by
  induction outlines with
  | nil => rfl
  | cons outline rest irest =>
    obtain ⟨hfirst, hrest⟩ := List.forall_mem_cons.1 ih
    rw [entriesAll, List.foldr_append, irest hrest, hfirst]
    · rfl
    · cases rest with
      | nil => exact h
      | cons next others => simp

/-- The entries of a tree grow into this tree, next to those that follow it. -/
theorem foldr_plant_entries (outline : Outline) (depth : Nat) (trees : List (Nat × Outline))
    (h : ∀ tree ∈ trees.head?, tree.1 ≤ depth) :
    (outline.entries depth).foldr plant trees = (depth, outline) :: trees := by
  induction outline generalizing depth trees with
  | mk label children ih =>
    have hbelow := foldr_plant_entriesAll ih fun tree ht => Nat.le_succ_of_le (h tree ht)
    obtain ⟨htake, hdrop⟩ := @takeWhile_dropWhile_append _
      (fun tree : Nat × Outline => decide (depth < tree.1)) (children.map (depth + 1, ·)) trees
      (by simp) (by simpa using h)
    rw [entries, List.foldr_cons, hbelow, plant, htake, hdrop, List.map_map]
    simp [Function.comp_def]

/-- The nodes go by words on one line. -/
inductive IsNamed : Outline → Prop
  | mk {label : OutlineLabel} {children : List Outline} : IsWord label.name →
      '\n' ∉ label.name.toList → (∀ child ∈ children, IsNamed child) → IsNamed (.mk label children)

theorem forall_mem_entries {outline : Outline} (h : outline.IsNamed) {depth : Nat} :
    ∀ entry ∈ outline.entries depth, IsWord entry.2.name ∧ '\n' ∉ entry.2.name.toList := by
  induction h generalizing depth with
  | mk hword hline hchildren ih =>
    rw [entries, List.forall_mem_cons, entriesAll_eq, List.forall_mem_flatMap]
    exact ⟨⟨hword, hline⟩, fun child hc => ih child hc⟩

theorem paragraphs_lines {entries : List (Nat × OutlineLabel)}
    (h : ∀ entry ∈ entries, '\n' ∉ entry.2.name.toList) :
    Text.paragraphs (entries.flatMap fun entry => (entry.2.line entry.1).toList) =
      (entries.map fun entry => entry.2.lineChars entry.1) ++ [[]] := by
  induction entries with
  | nil => rfl
  | cons entry rest ih =>
    obtain ⟨hentry, hrest⟩ := List.forall_mem_cons.1 h
    rw [List.flatMap_cons, OutlineLabel.toList_line, List.append_assoc, List.singleton_append,
      paragraphs_append_cons (OutlineLabel.newline_not_mem_lineChars hentry _), ih hrest]
    rfl

/-- The text has one line for each node. -/
theorem linesOf_text {outline : Outline} (h : outline.IsNamed) :
    linesOf outline.text = (outline.entries 0).map fun entry => entry.2.lineChars entry.1 := by
  have htext : outline.text.toList =
      (outline.entries 0).flatMap fun entry => (entry.2.line entry.1).toList := by
    rw [text, String.toList_join, List.flatMap_map]
  rw [linesOf, htext, paragraphs_lines fun entry he => (forall_mem_entries h entry he).2,
    List.dropLast_concat]

theorem read?_text {outline : Outline} (h : outline.IsNamed) :
    read? outline.text = some outline := by
  have hread : (linesOf outline.text).mapM OutlineLabel.read? = some (outline.entries 0) := by
    rw [linesOf_text h]
    exact mapM_map_eq_some fun entry he =>
      OutlineLabel.read?_lineChars (forall_mem_entries h entry he).1 entry.1
  have hplant : (outline.entries 0).foldr plant [] = [(0, outline)] :=
    foldr_plant_entries outline 0 [] nofun
  refine Option.bind_eq_some_iff.2 ⟨_, hread, ?_⟩
  rw [hplant]
  rfl

/-- Negative coordinates and unbounded extents are read back. -/
example : (read? "HBox (-3,0 5xinf) collapsed\n  Text (-2147483648,7 0x0)\n").map (entries 0) =
    some [(0, ⟨"HBox", ⟨⟨-3, 0⟩, ⟨5, Extent.inf⟩⟩, true⟩),
      (1, ⟨"Text", ⟨⟨-2147483648, 7⟩, ⟨0, 0⟩⟩, false⟩)] := by cbv

end Outline

/-! ## Outlines of trees -/

namespace Node

theorem isNamed_outline (node : Node) : node.outline.IsNamed := by
  generalize h : node.outline = outline
  induction outline generalizing node with
  | mk label children ih =>
    rw [outline_eq, Outline.mk.injEq] at h
    obtain ⟨rfl, rfl⟩ := h
    refine .mk (isWord_name node) (newline_not_mem_name node) fun outline ho => ?_
    obtain ⟨child, -, rfl⟩ := List.mem_map.1 ho
    exact ih _ ho child rfl

/-- The trees agree node by node and in order: in names, in places, and in which nodes are
collapsed. -/
inductive LooksLike : Node → Node → Prop
  | intro {a b : Node} (name : a.name = b.name) (bounds : a.bounds = b.bounds)
      (collapsed : a.isCollapsed = b.isCollapsed)
      (children : List.Forall₂ LooksLike a.children b.children) : LooksLike a b

theorem map_eq_map_iff_forall₂ {α β : Type} {f : α → β} {R : α → α → Prop} {xs ys : List α}
    (h : ∀ x ∈ xs, ∀ y, f x = f y ↔ R x y) : xs.map f = ys.map f ↔ List.Forall₂ R xs ys := by
  induction xs generalizing ys with
  | nil => cases ys <;> simp
  | cons x xs ih =>
    obtain ⟨hx, hxs⟩ := List.forall_mem_cons.1 h
    cases ys with
    | nil => simp
    | cons y ys =>
      rw [List.map_cons, List.map_cons, List.cons.injEq, List.forall₂_cons, hx, ih hxs]

theorem outline_eq_iff {a b : Node} : a.outline = b.outline ↔ a.LooksLike b := by
  generalize h : a.outline = outline
  induction outline generalizing a b with
  | mk label children ih =>
    rw [outline_eq, Outline.mk.injEq] at h
    obtain ⟨rfl, rfl⟩ := h
    have hbelow : a.children.map outline = b.children.map outline ↔
        List.Forall₂ LooksLike a.children b.children :=
      map_eq_map_iff_forall₂ fun child hc other => ih _ (List.mem_map_of_mem hc) rfl
    have hlabel : a.outlineLabel = b.outlineLabel ↔
        a.name = b.name ∧ a.bounds = b.bounds ∧ a.isCollapsed = b.isCollapsed := by
      rw [outlineLabel, outlineLabel, OutlineLabel.mk.injEq]
    rw [outline_eq b, Outline.mk.injEq, hbelow, hlabel]
    constructor
    · rintro ⟨⟨hname, hbounds, hcollapsed⟩, hchildren⟩
      exact .intro hname hbounds hcollapsed hchildren
    · rintro ⟨hname, hbounds, hcollapsed, hchildren⟩
      exact ⟨⟨hname, hbounds, hcollapsed⟩, hchildren⟩

/-- An outline has one line for each node, with the children of a node in order behind it and one
step further in. From its text the tree of names, places and remarks is read back, so that trees
have the same outline if and only if they look alike. -/
theorem outline_loses_nothing :
    (∀ node : Node,
      linesOf node.outline.text =
        (node.outline.entries 0).map fun (depth, label) => label.lineChars depth) ∧
    (∀ (node : Node) (depth : Nat),
      node.outline.entries depth = (depth, ⟨node.name, node.bounds, node.isCollapsed⟩) ::
        node.children.flatMap fun child => child.outline.entries (depth + 1)) ∧
    (∀ node : Node, Outline.read? node.outline.text = some node.outline) ∧
    ∀ a b : Node, a.outline.text = b.outline.text ↔ a.LooksLike b := by
  have hread (node : Node) : Outline.read? node.outline.text = some node.outline :=
    Outline.read?_text node.isNamed_outline
  refine ⟨fun node => Outline.linesOf_text node.isNamed_outline, fun node depth => ?_, hread,
    fun a b => ?_⟩
  · rw [outline_eq, Outline.entries, Outline.entriesAll_eq, List.flatMap_map]
    rfl
  · rw [← outline_eq_iff]
    refine ⟨fun h => ?_, congrArg Outline.text⟩
    have hsame := hread a
    rw [h, hread b] at hsame
    exact (Option.some.inj hsame).symm

end Node

end BoxLayout
