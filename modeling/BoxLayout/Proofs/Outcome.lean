import BoxLayout.Fault

/-!
# Outcomes of operations

`Outcome cause post result`: the operation gives a value with `post`, or a fault for which there is
a `cause`. The rule for sequences (`Outcome.bind`) carries it through the passes over a tree. A pass
that can only overflow has the cause `overflowIf p`.

* `mapM_eq_ok_iff`: a successful traversal is a `map`, so that what was found out about the
  children of a container is a function of the child.
-/

namespace BoxLayout

/-- `result` is a value with `post`, or a fault with a `cause`. -/
inductive Outcome {α : Type} (cause : Fault → Prop) (post : α → Prop) : Except Fault α → Prop
  | ok {a : α} : post a → Outcome cause post (.ok a)
  | fault {fault : Fault} : cause fault → Outcome cause post (.error fault)

/-- The fault is an overflow, on account of `p`. -/
def overflowIf (p : Prop) (fault : Fault) : Prop := fault = .overflow ∧ p

namespace Outcome

variable {α β : Type} {cause cause' : Fault → Prop} {p : Prop} {P : α → Prop} {Q : β → Prop}

theorem overflow (h : p) : Outcome (overflowIf p) P (.error .overflow) := .fault ⟨rfl, h⟩

theorem bind {first : Except Fault α} {next : α → Except Fault β} (h : Outcome cause P first)
    (hn : ∀ a, P a → Outcome cause Q (next a)) : Outcome cause Q (first >>= next) := by
  cases h with
  | ok ha => exact hn _ ha
  | fault hc => exact .fault hc

theorem mono {P' : α → Prop} {result : Except Fault α} (h : Outcome cause P result)
    (hc : ∀ fault, cause fault → cause' fault) (hp : ∀ a, P a → P' a) :
    Outcome cause' P' result := by
  cases h with
  | ok ha => exact .ok (hp _ ha)
  | fault h => exact .fault (hc _ h)

theorem map {result : Except Fault α} {f : α → β} (h : Outcome cause P result)
    (hf : ∀ a, P a → Q (f a)) : Outcome cause Q (f <$> result) := by
  cases h with
  | ok ha => exact .ok (hf _ ha)
  | fault hc => exact .fault hc

theorem bind_ok {first : Except Fault α} {next : α → Except Fault β} {a : α}
    (h : first = .ok a) (hn : Outcome cause Q (next a)) :
    Outcome cause Q (first >>= next) := h ▸ hn

theorem of_ok {a : α} (h : Outcome cause P (.ok a)) : P a := by
  cases h with
  | ok ha => exact ha

theorem eq_ok {result : Except Fault α} (h : Outcome cause P result)
    (hc : ∀ fault, ¬ cause fault) : ∃ a, result = .ok a ∧ P a := by
  cases h with
  | ok ha => exact ⟨_, rfl, ha⟩
  | fault h => exact absurd h (hc _)

theorem of_error {fault : Fault} (h : Outcome cause P (.error fault)) : cause fault := by
  cases h with
  | fault hc => exact hc

end Outcome

/-! ## Traversals -/

theorem mapM_cons_eq_ok_iff {α β : Type} {f : α → Except Fault β} {x : α} {xs : List α}
    {ys : List β} : (x :: xs).mapM f = .ok ys ↔
      ∃ y rest, f x = .ok y ∧ xs.mapM f = .ok rest ∧ ys = y :: rest := by
  rw [List.mapM_cons, bind_eq_ok_iff]
  constructor
  · rintro ⟨y, hy, h⟩
    obtain ⟨rest, hr, h⟩ := bind_eq_ok_iff.1 h
    cases h
    exact ⟨y, rest, hy, hr, rfl⟩
  · rintro ⟨y, rest, hy, hr, rfl⟩
    exact ⟨y, hy, bind_eq_ok_iff.2 ⟨rest, hr, rfl⟩⟩

/-- The value of a successful operation. -/
def value {α : Type} [Inhabited α] : Except Fault α → α
  | .ok a => a
  | .error _ => default

@[simp] theorem value_ok {α : Type} [Inhabited α] (a : α) : value (.ok a) = a := rfl

theorem mapM_eq_ok_iff {α β : Type} [Inhabited β] {f : α → Except Fault β} {xs : List α}
    {ys : List β} : xs.mapM f = .ok ys ↔
      (∀ x ∈ xs, f x = .ok (value (f x))) ∧ ys = xs.map fun x => value (f x) := by
  induction xs generalizing ys with
  | nil => exact ⟨fun h => by cases h; simp, fun h => by rw [h.2]; rfl⟩
  | cons x xs ih =>
    rw [mapM_cons_eq_ok_iff]
    constructor
    · rintro ⟨y, rest, hy, hr, rfl⟩
      obtain ⟨hxs, rfl⟩ := ih.1 hr
      exact ⟨by simpa [hy] using hxs, by simp [hy]⟩
    · rintro ⟨h, rfl⟩
      exact ⟨_, _, h x List.mem_cons_self,
        ih.2 ⟨fun x hx => h x (List.mem_cons_of_mem _ hx), rfl⟩, rfl⟩

theorem mapM_isOk {α β : Type} {f : α → Except Fault β} {xs : List α}
    (h : ∀ x ∈ xs, ∃ y, f x = .ok y) : ∃ ys, xs.mapM f = .ok ys := by
  induction xs with
  | nil => exact ⟨[], rfl⟩
  | cons x xs ih =>
    obtain ⟨y, hy⟩ := h x List.mem_cons_self
    obtain ⟨rest, hr⟩ := ih fun x hx => h x (List.mem_cons_of_mem _ hx)
    exact ⟨y :: rest, mapM_cons_eq_ok_iff.2 ⟨y, rest, hy, hr, rfl⟩⟩

theorem exists_of_mapM_eq_error {α β : Type} {f : α → Except Fault β} {xs : List α}
    {fault : Fault} (h : xs.mapM f = .error fault) : ∃ x ∈ xs, f x = .error fault := by
  induction xs with
  | nil => cases h
  | cons x xs ih =>
    rw [List.mapM_cons] at h
    rcases bind_eq_error_iff.1 h with hx | ⟨y, -, h⟩
    · exact ⟨x, List.mem_cons_self, hx⟩
    · rcases bind_eq_error_iff.1 h with hrest | ⟨rest, -, h⟩
      · obtain ⟨x', hx', hf⟩ := ih hrest
        exact ⟨x', List.mem_cons_of_mem _ hx', hf⟩
      · cases h

theorem exists_of_isSome {α : Type} {result : Except Fault α}
    (h : result.toOption.isSome = true) : ∃ a, result = .ok a := by
  cases result with
  | error fault => cases h
  | ok a => exact ⟨a, rfl⟩

end BoxLayout
