import BoxLayout.Rect

/-!
# Visits

What a pass over a tree did: the call on each node with the calls that it led to on its children, in
the order in which they were made. A measuring visit holds the question and the answer
(`Measuring`), a placing visit the place and who is told of it (`Placing`). Counts, traces and
reports are read off a visit, so that the passes themselves need not keep any of them.

* `size_eq`: the number of calls is one more than that of the calls on children.
-/

namespace BoxLayout

/-- A call on a node and the calls below it, each with the index of the child it was made on. -/
inductive Visit (α : Type) where
  | mk (name : String) (event : α) (calls : List (Nat × Visit α))

/-- A node was asked for its size. -/
structure Measuring where
  given : Constraints
  answer : Size
  deriving DecidableEq, Repr

/-- A node was given its place. -/
structure Placing where
  bounds : Rect
  observer : Option String
  deriving DecidableEq, Repr

namespace Visit

variable {α : Type}

/-- The name of the node that was called. -/
def name : Visit α → String
  | mk name _ _ => name

/-- What happened in the call itself. -/
def event : Visit α → α
  | mk _ event _ => event

/-- The calls on children. -/
def calls : Visit α → List (Nat × Visit α)
  | mk _ _ calls => calls

/-- The calls on the children of a container in order, where a child may have been left out. -/
def ofChildren (visits : List (Option (Visit α))) : List (Nat × Visit α) :=
  visits.zipIdx.filterMap fun (visit, i) => visit.map (i, ·)

mutual
/-- The number of calls. -/
def size : Visit α → Nat
  | mk _ _ calls => 1 + sizeAll calls
/-- The number of calls in a list of visits. -/
def sizeAll : List (Nat × Visit α) → Nat
  | [] => 0
  | (_, visit) :: rest => visit.size + sizeAll rest
end

mutual
/-- What happened in each call, a node before its children. -/
def events : Visit α → List α
  | mk _ event calls => event :: eventsAll calls
/-- What happened in the calls of a list of visits. -/
def eventsAll : List (Nat × Visit α) → List α
  | [] => []
  | (_, visit) :: rest => visit.events ++ eventsAll rest
end

@[elab_as_elim, induction_eliminator]
theorem induct {motive : Visit α → Prop}
    (mk : ∀ name event calls, (∀ call ∈ calls, motive call.2) → motive (.mk name event calls))
    (visit : Visit α) : motive visit :=
  Visit.rec (motive_1 := motive) (motive_2 := fun calls => ∀ call ∈ calls, motive call.2)
    (motive_3 := fun call => motive call.2)
    (fun name event calls ih => mk name event calls ih)
    (fun _ h => nomatch h)
    (fun _ _ head tail call h => by
      cases h with
      | head => exact head
      | tail _ h => exact tail call h)
    (fun _ _ ih => ih)
    visit

theorem sizeAll_append (a b : List (Nat × Visit α)) :
    sizeAll (a ++ b) = sizeAll a + sizeAll b := by
  induction a with
  | nil => exact (Nat.zero_add _).symm
  | cons call rest ih => rw [List.cons_append, sizeAll, sizeAll, ih, Nat.add_assoc]

theorem size_eq (visit : Visit α) :
    visit.size = 1 + sizeAll visit.calls := by
  cases visit; rfl

theorem eventsAll_eq (calls : List (Nat × Visit α)) :
    eventsAll calls = calls.flatMap fun call => call.2.events := by
  induction calls with
  | nil => rfl
  | cons call rest ih => simp [eventsAll, ih]

theorem length_events (visit : Visit α) : visit.events.length = visit.size := by
  induction visit with
  | mk name event calls ih =>
    have hall : (eventsAll calls).length = sizeAll calls := by
      induction calls with
      | nil => rfl
      | cons call rest irest =>
        rw [eventsAll, sizeAll, List.length_append, ih call List.mem_cons_self,
          irest fun c hc => ih c (List.mem_cons_of_mem _ hc)]
    rw [events, size, List.length_cons, hall, Nat.add_comm]

/-- The reports to observers, in the order in which they were made. -/
def reports (visit : Visit Placing) : List (String × Rect) :=
  visit.events.filterMap fun event => event.observer.map (·, event.bounds)

end Visit

end BoxLayout
