import BoxLayout.Rect

/-!
# Slots

A stack places its children by handing out slots, one per child and in order. It may fail on the
way, and then the children before that have their slots already: `Slots` is the list of slots
together with the way it ends.
-/

namespace BoxLayout

/-- Slots for the children of a stack in order, none for a child that takes no part. -/
inductive Slots where
  /-- No slots are left; further children take no part. -/
  | done
  /-- The next slot could not be computed. -/
  | fault (fault : Fault)
  | next (slot : Option Rect) (rest : Slots)

namespace Slots

/-- The slots that follow a computation, or its fault. -/
def after {α : Type} (result : Except Fault α) (rest : α → Slots) : Slots :=
  match result with
  | .ok a => rest a
  | .error e => fault e

/-- The slots before the list ends. -/
def toList : Slots → List (Option Rect)
  | done | fault _ => []
  | next slot rest => slot :: rest.toList

/-- The fault in which the list ends. -/
def fault? : Slots → Option Fault
  | done => none
  | fault e => some e
  | next _ rest => rest.fault?

@[simp] theorem after_ok {α : Type} (a : α) (rest : α → Slots) : after (.ok a) rest = rest a := rfl

@[simp] theorem after_error {α : Type} (e : Fault) (rest : α → Slots) :
    after (.error e) rest = fault e := rfl

end Slots

end BoxLayout
