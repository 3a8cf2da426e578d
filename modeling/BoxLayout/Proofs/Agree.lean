import BoxLayout.Proofs.Children

/-!
# Operations that agree

`Agree R first second`: both operations stop with the same fault, or both give a result and the
results are related by `R`. The rules follow two runs of a pass step by step (`Agree.bind`,
`Agree.pickM`), and two runs that agree with the same third one agree with each other
(`Agree.join`).
-/

namespace BoxLayout

/-- The same fault, or results related by `R`. -/
inductive Agree {α β : Type} (R : α → β → Prop) : Except Fault α → Except Fault β → Prop
  | ok {a : α} {b : β} : R a b → Agree R (.ok a) (.ok b)
  | error (fault : Fault) : Agree R (.error fault) (.error fault)

namespace Agree

variable {α β γ δ : Type} {R : α → β → Prop} {S : γ → δ → Prop} {first : Except Fault α}
  {second : Except Fault β}

theorem exists_of_ok {a : α} (h : Agree R first second) (ha : first = .ok a) :
    ∃ b, second = .ok b ∧ R a b := by
  subst ha
  cases h with
  | ok hr => exact ⟨_, rfl, hr⟩

theorem refl (result : Except Fault α) : Agree Eq result result := by
  cases result with
  | ok a => exact .ok rfl
  | error fault => exact .error fault

theorem bind {next : α → Except Fault γ} {next' : β → Except Fault δ} (h : Agree R first second)
    (hn : ∀ a b, R a b → Agree S (next a) (next' b)) :
    Agree S (first >>= next) (second >>= next') := by
  cases h with
  | ok hr => exact hn _ _ hr
  | error fault => exact .error fault

/-- Both runs start with the same step. -/
theorem bind_left {result : Except Fault α} {next : α → Except Fault γ}
    {next' : α → Except Fault δ} (hn : ∀ a, result = .ok a → Agree S (next a) (next' a)) :
    Agree S (result >>= next) (result >>= next') := by
  cases result with
  | ok a => exact hn a rfl
  | error fault => exact .error fault

theorem map {f : α → γ} {g : β → δ} (h : Agree R first second)
    (hf : ∀ a b, R a b → S (f a) (g b)) : Agree S (f <$> first) (g <$> second) := by
  cases h with
  | ok hr => exact .ok (hf _ _ hr)
  | error fault => exact .error fault

/-- Only the first run goes on. -/
theorem map_left {S : γ → β → Prop} {f : α → γ} (h : Agree R first second)
    (hf : ∀ a b, R a b → S (f a) b) : Agree S (f <$> first) second := by
  cases h with
  | ok hr => exact .ok (hf _ _ hr)
  | error fault => exact .error fault

theorem mono {R' : α → β → Prop} (h : Agree R first second) (hr : ∀ a b, R a b → R' a b) :
    Agree R' first second := by
  cases h with
  | ok h => exact .ok (hr _ _ h)
  | error fault => exact .error fault

theorem and_of_ok {P : α → Prop} (h : Agree R first second) (hp : ∀ a, first = .ok a → P a) :
    Agree (fun a b => P a ∧ R a b) first second := by
  cases h with
  | ok h => exact .ok ⟨hp _ rfl, h⟩
  | error fault => exact .error fault

theorem join {R' : γ → β → Prop} {T : α → γ → Prop} {third : Except Fault γ}
    (h : Agree R first second) (h' : Agree R' third second)
    (ht : ∀ a b c, R a b → R' c b → T a c) : Agree T first third := by
  cases h with
  | ok hr =>
    cases h' with
    | ok hr' => exact .ok (ht _ _ _ hr hr')
  | error fault =>
    cases h' with
    | error => exact .error fault

theorem eq {second : Except Fault α} (h : Agree Eq first second) : first = second := by
  cases h with
  | ok h => rw [h]
  | error fault => rfl

/-- Two traversals agree if their steps do, and give functions of the element. The second one may
leave out elements where the first one does nothing. -/
theorem pickM_filter [Inhabited γ] [Inhabited δ] {p l : α → Bool}
    (hpl : ∀ x, p x = true → l x = true) {f : α → Except Fault γ} {g : α → Except Fault δ}
    {R : α → γ → δ → Prop} {xs : List α} (h : ∀ x ∈ xs, p x = true → Agree (R x) (f x) (g x)) :
    Agree (fun ys zs => ∃ a b, ys = pick p a xs ∧ zs = pick p b (xs.filter l) ∧
      ∀ x ∈ xs, p x = true → f x = .ok (a x) ∧ R x (a x) (b x))
      (pickM p f xs) (pickM p g (xs.filter l)) := by
  refine mono (R := fun ys zs => ys = pick p (fun x => value (f x)) xs ∧
    zs = pick p (fun x => value (g x)) (xs.filter l) ∧ ∀ x ∈ xs, p x = true →
      f x = .ok (value (f x)) ∧ R x (value (f x)) (value (g x))) ?_ fun ys zs h => ⟨_, _, h⟩
  induction xs with
  | nil => exact .ok ⟨rfl, rfl, nofun⟩
  | cons x xs ih =>
    obtain ⟨hx, hxs⟩ := List.forall_mem_cons.1 h
    simp only [pickM_cons, pick_cons, List.forall_mem_cons, List.filter_cons]
    by_cases hp : p x = true
    · simp only [if_pos hp, if_pos (hpl x hp), pickM_cons, pick_cons]
      have hx := hx hp
      generalize f x = fx at hx ⊢
      generalize g x = gx at hx ⊢
      cases hx with
      | error fault => exact .error fault
      | ok hr =>
        refine (ih hxs).map ?_
        rintro _ _ ⟨rfl, rfl, hrest⟩
        exact ⟨rfl, rfl, fun _ => ⟨rfl, hr⟩, hrest⟩
    · simp only [if_neg hp]
      by_cases hx' : l x = true
      · simp only [if_pos hx', pickM_cons, pick_cons, if_neg hp]
        refine (ih hxs).map ?_
        rintro _ _ ⟨rfl, rfl, hrest⟩
        exact ⟨rfl, rfl, fun h => absurd h hp, hrest⟩
      · simp only [if_neg hx']
        refine (ih hxs).map_left ?_
        rintro _ _ ⟨rfl, rfl, hrest⟩
        exact ⟨rfl, rfl, fun h => absurd h hp, hrest⟩

theorem pickM [Inhabited γ] [Inhabited δ] {p : α → Bool} {f : α → Except Fault γ}
    {g : α → Except Fault δ} {R : α → γ → δ → Prop} {xs : List α}
    (h : ∀ x ∈ xs, p x = true → Agree (R x) (f x) (g x)) :
    Agree (fun ys zs => ∃ a b, ys = pick p a xs ∧ zs = pick p b xs ∧
      ∀ x ∈ xs, p x = true → f x = .ok (a x) ∧ R x (a x) (b x)) (pickM p f xs) (pickM p g xs) := by
  have hall := pickM_filter (l := fun _ => true) (fun _ _ => rfl) h
  rwa [List.filter_true] at hall

end Agree

end BoxLayout
