import TraitInference.Constraint
import TraitInference.Queue

/-!
# TraitInference — the agenda

The constraints still to be worked off: one queue for each stage, first in,
first out. `Agenda.lane` lists those of one stage, `Agenda.toList` all of them
in the order in which they leave.
-/

namespace TraitInference

/-- The waiting constraints, by stage. -/
structure Agenda where
  group : Queue Constraint := {}
  type : Queue Constraint := {}
  call : Queue Constraint := {}
  bound : Queue Constraint := {}
  fallback : Queue Constraint := {}

namespace Agenda

/-- The queue of one stage. -/
def queue (q : Agenda) : Stage → Queue Constraint
  | .group => q.group
  | .type => q.type
  | .call => q.call
  | .bound => q.bound
  | .fallback => q.fallback

/-- Replaces the queue of one stage. -/
def setQueue (q : Agenda) (s : Stage) (cs : Queue Constraint) : Agenda :=
  match s with
  | .group => { q with group := cs }
  | .type => { q with type := cs }
  | .call => { q with call := cs }
  | .bound => { q with bound := cs }
  | .fallback => { q with fallback := cs }

@[simp]
theorem queue_setQueue (q : Agenda) (s s' : Stage) (cs : Queue Constraint) :
    (q.setQueue s cs).queue s' = if s' = s then cs else q.queue s' := by
  cases s <;> cases s' <;> rfl

/-- The constraints of one stage, oldest first. -/
def lane (q : Agenda) (s : Stage) : List Constraint :=
  (q.queue s).toList

/-- Adds a constraint behind the others of its stage. -/
def push (q : Agenda) (c : Constraint) : Agenda :=
  q.setQueue c.stage ((q.queue c.stage).push c)

@[simp]
theorem lane_push (q : Agenda) (c : Constraint) (s : Stage) :
    (q.push c).lane s = if s = c.stage then q.lane c.stage ++ [c] else q.lane s := by
  rw [lane, push, queue_setQueue]
  split
  · exact Queue.toList_push _ c
  · rfl

/-- Adds constraints one after the other. -/
def extend (q : Agenda) (cs : List Constraint) : Agenda :=
  cs.foldl push q

/-- The oldest constraint of the first stage before `limit` that has any, and
what is left. -/
def popBefore (q : Agenda) (limit : Option Stage) : Option (Constraint × Agenda) :=
  Stage.all.findSome? fun s =>
    if s.isBefore limit then (q.queue s).pop.map fun (c, rest) => (c, q.setQueue s rest)
    else none

/-- The next constraint of any stage, and what is left. -/
def pop (q : Agenda) : Option (Constraint × Agenda) :=
  q.popBefore none

/-- All waiting constraints, in the order in which they leave. -/
def toList (q : Agenda) : List Constraint :=
  Stage.all.flatMap q.lane

/-- The number of waiting constraints. -/
def size (q : Agenda) : Nat :=
  q.group.size + q.type.size + q.call.size + q.bound.size + q.fallback.size

theorem size_eq_length (q : Agenda) : q.size = q.toList.length := by
  simp [size, toList, Stage.all, lane, queue, Queue.size_eq_length, Nat.add_assoc]

end Agenda

end TraitInference
