import BoxLayout.Proofs.Remeasure
import BoxLayout.Proofs.Replace
import BoxLayout.Window

/-!
# Layouts do not depend on earlier layouts

Trees that differ in caches only are measured alike, and placed alike after that
(`Node.agree_measure_of_retain_eq`, `Node.agree_place_of_retain_eq`). Measuring a tree again is
therefore the same as measuring it for the first time (`Node.measure_of_measure`). A full layout
leaves the tree ready for the next one as if it were the first (`Window.resize_of_resize`), and
however often a window has been resized, the outcome is that of its last size alone
(`Window.resizeAll_forgets`).
-/

namespace BoxLayout

namespace Node

variable {places : Bool} {unreached : Keep} {a b : Node}

theorem agree_measure_of_retain_eq
    (h : a.retain ⟨places, false⟩ unreached = b.retain ⟨places, false⟩ unreached)
    (given : Constraints) :
    Agree (Measured.IsLike places unreached) (a.measure given) (b.measure given) := by
  have hb : b.Remeasures places unreached := agree_measure b
  have ha : a.Remeasures places unreached := agree_measure a
  refine (ha given).join (h ▸ hb given) fun _ _ _ hac hbc => ⟨?_, ?_⟩
  · exact hac.retain.trans hbc.retain.symm
  · exact hac.visit.trans hbc.visit.symm

/-- An earlier measuring has no influence on a later one. -/
theorem measure_of_measure {node : Node} {first : Constraints} {m : Measured}
    (h : node.measure first = .ok m) (second : Constraints) :
    m.node.measure second = node.measure second := by
  have hsame : m.node.retain ⟨true, false⟩ .everything =
      node.retain ⟨true, false⟩ .everything := retain_of_measure h
  exact ((agree_measure_of_retain_eq hsame second).mono fun _ _ => Measured.IsLike.eq).eq

theorem agree_place_of_retain_eq
    (h : a.retain .onlySizes unreached = b.retain .onlySizes unreached) (bounds : Rect) :
    Agree (Placed.IsLike unreached) (a.place bounds) (b.place bounds) := by
  have hb : b.Replaces unreached := agree_place b
  have ha : a.Replaces unreached := agree_place a
  refine (ha bounds).join (h ▸ hb bounds) fun _ _ _ hac hbc => ⟨?_, ?_⟩
  · exact hac.retain.trans hbc.retain.symm
  · exact hac.visit.trans hbc.visit.symm

/-- A full layout changes nothing but caches of nodes that it reaches. -/
theorem retain_of_fit {node : Node} {size : Size} {fitted : Fitted}
    (h : node.fit size = .ok fitted) :
    fitted.node.retain .nothing unreached = node.retain .nothing unreached := by
  obtain ⟨m, hm, h⟩ := bind_eq_ok_iff.1 h
  obtain ⟨p, hp, h⟩ := bind_eq_ok_iff.1 h
  cases h
  exact (retain_of_place hp).trans (retain_of_measure hm)

/-- A full layout does not depend on caches of nodes that it reaches. -/
theorem fit_eq_of_retain_eq (h : a.retain .nothing .everything = b.retain .nothing .everything)
    (size : Size) : a.fit size = b.fit size := by
  refine Agree.eq ((agree_measure_of_retain_eq h _).bind fun m m' hm => ?_)
  refine (agree_place_of_retain_eq hm.retain _).bind fun p p' hp => .ok ?_
  rw [hp.eq, hm.size, hm.visit]

end Node

namespace Window

/-- Lays the tree out for one client area after the other. -/
def resizeAll (window : Window) (level : LogLevel) :
    List (Nat × Nat) → Except Fault (List (Window × Resized))
  | [] => return []
  | (width, height) :: rest => do
    let resized ← window.resize level width height
    return resized :: (← resized.1.resizeAll level rest)

variable {window next : Window} {level : LogLevel} {width height : Nat} {resized : Resized}

theorem resize_of_resize (h : window.resize level width height = .ok (next, resized))
    (level' : LogLevel) (width' height' : Nat) :
    next.resize level' width' height' = window.resize level' width' height' := by
  obtain ⟨fitted, hf, h⟩ := bind_eq_ok_iff.1 h
  cases h
  have hfit := Node.fit_eq_of_retain_eq (Node.retain_of_fit hf) (clientSize width' height')
  rw [resize, resize, hfit]

/-- Trees that differ in caches only are measured with the same calls and answers, and placed after
that with the same calls and reports, which leaves the same caches wherever a call came to. And
each of many layouts of a window leaves and reports what it would as the first one. -/
theorem resizeAll_forgets :
    (∀ (a b : Node) (given : Constraints) (rect : Rect), a.CacheEqual b →
      Agree (fun m m' => m.visit = m'.visit ∧
        Agree (fun p p' => p.visit = p'.visit ∧
          p.node.retain .everything .nothing = p'.node.retain .everything .nothing)
          (m.node.place rect) (m'.node.place rect))
        (a.measure given) (b.measure given)) ∧
    ∀ (window : Window) (level : LogLevel) (sizes : List (Nat × Nat))
      (results : List (Window × Resized)), window.resizeAll level sizes = .ok results →
      ∀ (k : Nat) (width height : Nat), sizes[k]? = some (width, height) →
        ∃ result, results[k]? = some result ∧ window.resize level width height = .ok result := by
  refine ⟨fun a b given rect h => ?_, fun window level sizes results h k width height hk => ?_⟩
  · refine (Node.agree_measure_of_retain_eq h given).mono fun m m' hm => ⟨hm.visit, ?_⟩
    exact (Node.agree_place_of_retain_eq hm.retain rect).mono fun p p' hp => ⟨hp.visit, hp.retain⟩
  · induction sizes generalizing window results k with
    | nil => cases hk
    | cons first rest ih =>
      obtain ⟨⟨next, resized⟩, hfirst, h⟩ := bind_eq_ok_iff.1 h
      obtain ⟨others, hothers, h⟩ := bind_eq_ok_iff.1 h
      cases h
      cases k with
      | zero =>
        cases hk
        exact ⟨_, rfl, hfirst⟩
      | succ k =>
        obtain ⟨result, hresult, hresize⟩ := ih next others hothers k hk
        exact ⟨result, hresult, resize_of_resize hfirst .. ▸ hresize⟩

/-- A button that was aligned at some other size before, and a window that is resized twice. -/
theorem resize_button_eq :
    (∃ m m', (Node.align {} default ⟨7, 7⟩
        (.ofLeaf (.button "Ok" .visible default))).measure .free = .ok m ∧
      (Node.alignChild default (.ofLeaf (.button "Ok" .visible default))).measure .free = .ok m' ∧
      m.visit = m'.visit) ∧
    ∃ results result, (Window.mk (.ofLeaf (.button "Ok" .visible default)) true).resizeAll .trace
        [(40, 10), (32, 24)] = .ok results ∧ results[1]? = some result ∧
      (Window.mk (.ofLeaf (.button "Ok" .visible default)) true).resize .trace 32 24 =
        .ok result := by
  constructor
  · have hsame : (Node.align {} default ⟨7, 7⟩ (.ofLeaf (.button "Ok" .visible default))).CacheEqual
      (Node.alignChild default (.ofLeaf (.button "Ok" .visible default))) := rfl
    obtain ⟨m, hm⟩ : ∃ m, (Node.align {} default ⟨7, 7⟩
      (.ofLeaf (.button "Ok" .visible default))).measure .free = .ok m := ⟨_, rfl⟩
    obtain ⟨m', hm'⟩ : ∃ m', (Node.alignChild default
      (.ofLeaf (.button "Ok" .visible default))).measure .free = .ok m' := ⟨_, rfl⟩
    have h := resizeAll_forgets.1 _ _ .free default hsame
    rw [hm, hm'] at h
    cases h with
    | ok h => exact ⟨m, m', hm, hm', h.1⟩
  · obtain ⟨results, h⟩ : ∃ results, (Window.mk (.ofLeaf (.button "Ok" .visible default))
      true).resizeAll .trace [(40, 10), (32, 24)] = .ok results := ⟨_, rfl⟩
    obtain ⟨result, hr, hsame⟩ := resizeAll_forgets.2 _ _ _ _ h 1 32 24 rfl
    exact ⟨results, result, h, hr, hsame⟩

end Window

end BoxLayout
