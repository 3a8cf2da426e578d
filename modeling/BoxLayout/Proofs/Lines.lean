import BoxLayout.Node.Basic
import BoxLayout.Record
import Mathlib

/-!
# Lines of the log

A record is written as one line, whose parts end at the first character that cannot stand in them:
an indentation at the first letter, a name at a blank, an extent at an `x`, a blank or a bracket. So
the line about a visit of a node determines the record (`Record.eq_of_text_eq`), provided that nodes
go by names without blanks.
-/

namespace BoxLayout

/-- What stands before the first `stop` can be told from what stands behind it. -/
theorem append_cons_inj {stop : Char} {a b c d : List Char} (ha : stop ∉ a) (hb : stop ∉ b) :
    a ++ stop :: c = b ++ stop :: d ↔ a = b ∧ c = d := by
  induction a generalizing b with
  | nil =>
    cases b with
    | nil => simp
    | cons y b => simp [(List.ne_and_not_mem_of_not_mem_cons hb).1]
  | cons x a ih =>
    have ha' := List.ne_and_not_mem_of_not_mem_cons ha
    cases b with
    | nil => simp [ha'.1.symm]
    | cons y b => simp [ih ha'.2 (List.ne_and_not_mem_of_not_mem_cons hb).2, and_assoc]

/-! ## Numbers and extents -/

/-- A character that can stand in an extent. -/
def isExtentChar (c : Char) : Bool := c == 'i' || c == 'n' || c == 'f' || c == '-' || c.isDigit

theorem mem_toString {v : Int} {c : Char} (h : c ∈ (toString v).toList) :
    c = '-' ∨ c.isDigit = true := by
  have hdigit {n : Nat} (h : c ∈ n.repr.toList) : c.isDigit = true :=
    Nat.isDigit_of_mem_toDigits (by decide) (by decide) (Nat.toList_repr ▸ h)
  cases v with
  | ofNat n => exact .inr (hdigit h)
  | negSucc n =>
    rw [show toString (Int.negSucc n) = "-" ++ n.succ.repr from rfl, String.toList_append] at h
    exact (List.mem_append.1 h).imp List.mem_singleton.1 hdigit

theorem not_mem_toString {v : Int} {c : Char} (h : isExtentChar c = false) :
    c ∉ (toString v).toList := by
  intro hc
  rcases mem_toString hc with rfl | hdigit
  · cases h
  · simp [isExtentChar, hdigit] at h

namespace Extent

theorem not_mem_text {v : Int} {c : Char} (h : isExtentChar c = false) :
    c ∉ (text v).toList := by
  unfold text
  split
  · rintro hc
    simp only [String.reduceToList, List.mem_cons, List.not_mem_nil, or_false] at hc
    rcases hc with rfl | rfl | rfl <;> cases h
  · exact not_mem_toString h

theorem text_inj {v w : Int} : text v = text w ↔ v = w := by
  refine ⟨fun h => ?_, congrArg text⟩
  have hinf (n : Int) : toString n ≠ "inf" := fun h =>
    absurd (mem_toString (show 'i' ∈ (toString n).toList by rw [h]; decide)) (by decide)
  unfold text at h
  split at h <;> split at h <;> rename_i hv hw
  · exact hv.trans hw.symm
  · exact absurd h.symm (hinf w)
  · exact absurd h (hinf v)
  · exact Int.repr_injective h

end Extent

/-! ## Sizes, constraints and places -/

namespace Size

theorem toList_text (size : Size) : size.text.toList =
    (Extent.text size.width).toList ++ 'x' :: (Extent.text size.height).toList := by
  simp [text]

theorem not_mem_text {size : Size} {c : Char} (h : isExtentChar c = false) (hx : c ≠ 'x') :
    c ∉ size.text.toList := by
  rw [toList_text, List.mem_append, List.mem_cons, not_or, not_or]
  exact ⟨Extent.not_mem_text h, hx, Extent.not_mem_text h⟩

theorem text_inj {a b : Size} : a.text = b.text ↔ a = b := by
  rw [← String.toList_inj, toList_text, toList_text,
    append_cons_inj (Extent.not_mem_text rfl) (Extent.not_mem_text rfl), String.toList_inj,
    String.toList_inj, Extent.text_inj, Extent.text_inj, Size.mk.injEq]

end Size

theorem Constraints.text_inj {a b : Constraints} : a.text = b.text ↔ a = b := by
  have htext (given : Constraints) : given.text.toList = '[' :: (given.min.text.toList ++
      ' ' :: ('.' :: '.' :: ' ' :: given.max.text.toList ++ [']'])) := by simp [text]
  refine ⟨fun h => ?_, congrArg text⟩
  rw [← String.toList_inj, htext, htext, List.cons.injEq,
    append_cons_inj (Size.not_mem_text rfl (by decide)) (Size.not_mem_text rfl (by decide)),
    List.append_left_inj] at h
  obtain ⟨-, hmin, hmax⟩ := h
  have hlo : a.min = b.min := Size.text_inj.1 (String.toList_inj.1 hmin)
  have hhi : a.max = b.max := Size.text_inj.1 (String.toList_inj.1 (by simpa using hmax))
  simp only [min, max, Size.mk.injEq] at hlo hhi
  obtain ⟨⟨lo, hi⟩, ⟨lo', hi'⟩⟩ := a
  obtain ⟨rfl, rfl⟩ := hlo
  obtain ⟨rfl, rfl⟩ := hhi
  rfl

namespace Rect

theorem toList_text (rect : Rect) : rect.text.toList =
    '(' :: ((toString rect.origin.x).toList ++ ',' :: ((toString rect.origin.y).toList ++
      ' ' :: (rect.size.text.toList ++ [')']))) := by
  simp [text]

theorem newline_not_mem_text (rect : Rect) : '\n' ∉ rect.text.toList := by
  have hnumber (v : Int) : '\n' ∉ v.repr.toList := not_mem_toString rfl
  have hsize : '\n' ∉ rect.size.text.toList := Size.not_mem_text rfl (by decide)
  rw [toList_text]
  simp [hnumber, hsize]

theorem text_inj {a b : Rect} : a.text = b.text ↔ a = b := by
  refine ⟨fun h => ?_, congrArg text⟩
  rw [← String.toList_inj, toList_text, toList_text, List.cons.injEq,
    append_cons_inj (not_mem_toString rfl) (not_mem_toString rfl),
    append_cons_inj (not_mem_toString rfl) (not_mem_toString rfl), List.append_left_inj] at h
  obtain ⟨-, hx, hy, hsize⟩ := h
  obtain ⟨⟨x, y⟩, size⟩ := a
  cases Int.repr_injective (String.toList_inj.1 hx)
  cases Int.repr_injective (String.toList_inj.1 hy)
  cases Size.text_inj.1 (String.toList_inj.1 hsize)
  rfl

end Rect

/-! ## Words -/

/-- A text without blanks that is not empty. -/
def IsWord (name : String) : Prop := name ≠ "" ∧ ' ' ∉ name.toList

/-- An indentation ends where another character stands. -/
theorem replicate_append_inj {stop : Char} {m n : Nat} {a b : List Char}
    (ha : a.head? ≠ some stop) (hb : b.head? ≠ some stop) :
    List.replicate m stop ++ a = List.replicate n stop ++ b ↔ m = n ∧ a = b := by
  induction m generalizing n with
  | zero =>
    cases n with
    | zero => simp
    | succ n =>
      refine ⟨fun h => absurd ?_ ha, fun h => by cases h.1⟩
      rw [List.replicate_zero, List.nil_append, List.replicate_succ] at h
      rw [h]
      rfl
  | succ m ih =>
    cases n with
    | zero =>
      refine ⟨fun h => absurd ?_ hb, fun h => by cases h.1⟩
      rw [List.replicate_zero, List.nil_append, List.replicate_succ] at h
      rw [← h]
      rfl
    | succ n => simp [List.replicate_succ, ih]

theorem IsWord.head?_ne {name : String} (h : IsWord name) (rest : List Char) :
    (name.toList ++ rest).head? ≠ some ' ' := by
  obtain ⟨hne, hblank⟩ := h
  cases hname : name.toList with
  | nil => exact absurd (String.toList_eq_nil_iff.1 hname) hne
  | cons c cs =>
    rw [hname] at hblank
    exact fun hc => (List.ne_and_not_mem_of_not_mem_cons hblank).1 (Option.some.inj hc).symm

/-! ## Names of nodes -/

namespace Node

theorem isWord_name (node : Node) : IsWord node.name := by
  cases node with
  | leaf frame content => cases content <;> (simp [name, Leaf.name, IsWord])
  | stack frame style totals items =>
    rw [name]
    cases style.axis <;> simp [IsWord]
  | padding | align | table => simp [name, IsWord]

theorem newline_not_mem_name (node : Node) : '\n' ∉ node.name.toList := by
  cases node with
  | leaf frame content => cases content <;> simp [name, Leaf.name]
  | stack frame style totals items =>
    rw [name]
    cases style.axis <;> simp
  | padding | align | table => simp [name]

end Node

/-! ## Records -/

namespace Record

theorem toList_traceHead (depth : Nat) (name : String) : (traceHead depth name).toList =
    "TRACE trellis::layout ".toList ++ List.replicate (depth * 2) ' ' ++ name.toList := by
  -- for any text in front, as a literal unfolds into its characters under `rw`
  have h (front : String) : (front ++ indentation depth ++ name).toList =
      front.toList ++ List.replicate (depth * 2) ' ' ++ name.toList := by
    rw [String.toList_append, String.toList_append, indentation, String.toList_ofList]
  exact h _

theorem traceHead_inj {m n : Nat} {a b : String} {c d : List Char} (ha : IsWord a)
    (hb : IsWord b) (h : (traceHead m a).toList ++ ' ' :: c = (traceHead n b).toList ++ ' ' :: d) :
    m = n ∧ a = b ∧ c = d := by
  rw [toList_traceHead, toList_traceHead] at h
  simp only [List.append_assoc, List.append_cancel_left_eq] at h
  obtain ⟨hdepth, hrest⟩ := (replicate_append_inj (ha.head?_ne _) (hb.head?_ne _)).1 h
  obtain ⟨hname, hrest⟩ := (append_cons_inj ha.2 hb.2).1 hrest
  exact ⟨by omega, String.toList_inj.1 hname, hrest⟩

/-- The depth of the node that the record is about. -/
def depth : Record → Nat
  | opened depth _ _ | closed depth _ _ | placed depth _ _ => depth
  | relaid .. => 0

/-- The name of the node that the record is about. -/
def name : Record → String
  | opened _ name _ | closed _ name _ | placed _ name _ => name
  | relaid .. => ""

/-- What the line says about the node. -/
def body : Record → List Char
  | opened _ _ given => given.text.toList
  | closed _ _ answer => '-' :: '>' :: ' ' :: answer.text.toList
  | placed _ _ bounds => 'b' :: 'o' :: 'u' :: 'n' :: 'd' :: 's' :: ' ' :: bounds.text.toList
  | relaid .. => []

theorem toList_text {record : Record} (h : IsWord record.name) : record.text.toList =
    (traceHead record.depth record.name).toList ++ ' ' :: record.body := by
  have happend (head middle tail : String) : (head ++ middle ++ tail).toList =
      head.toList ++ (middle.toList ++ tail.toList) := by
    rw [String.toList_append, String.toList_append, List.append_assoc]
  cases record with
  | opened depth name given => exact happend (traceHead depth name) " " given.text
  | closed depth name answer => exact happend (traceHead depth name) " -> " answer.text
  | placed depth name bounds => exact happend (traceHead depth name) " bounds " bounds.text
  | relaid client calls measured => exact absurd rfl h.1

theorem eq_of_text_eq {a b : Record} (ha : IsWord a.name) (hb : IsWord b.name)
    (h : a.text = b.text) : a = b := by
  rw [← String.toList_inj, toList_text ha, toList_text hb] at h
  obtain ⟨hdepth, hname, hbody⟩ := traceHead_inj ha hb h
  have hconstraints (given : Constraints) (rest : List Char) (c : Char) (hc : c ≠ '[') :
      given.text.toList ≠ c :: rest := by
    simp [Constraints.text, hc.symm]
  cases a with
  | opened m name given =>
    cases b with
    | opened n name' given' =>
      cases hdepth
      cases hname
      rw [Constraints.text_inj.1 (String.toList_inj.1 hbody)]
    | closed n name' answer' => exact absurd hbody (hconstraints _ _ _ (by decide))
    | placed n name' bounds' => exact absurd hbody (hconstraints _ _ _ (by decide))
    | relaid client calls measured => exact absurd rfl hb.1
  | closed m name answer =>
    cases b with
    | opened n name' given' => exact absurd hbody.symm (hconstraints _ _ _ (by decide))
    | closed n name' answer' =>
      cases hdepth
      cases hname
      simp only [body, List.cons.injEq, true_and] at hbody
      rw [Size.text_inj.1 (String.toList_inj.1 hbody)]
    | placed n name' bounds' => simp [body] at hbody
    | relaid client calls measured => exact absurd rfl hb.1
  | placed m name bounds =>
    cases b with
    | opened n name' given' => exact absurd hbody.symm (hconstraints _ _ _ (by decide))
    | closed n name' answer' => simp [body] at hbody
    | placed n name' bounds' =>
      cases hdepth
      cases hname
      simp only [body, List.cons.injEq, true_and] at hbody
      rw [Rect.text_inj.1 (String.toList_inj.1 hbody)]
    | relaid client calls measured => exact absurd rfl hb.1
  | relaid client calls measured => exact absurd rfl ha.1

end Record

end BoxLayout
