import TraitInference.Agenda
import TraitInference.Copier
import TraitInference.Program
import TraitInference.Trace.Event
import TraitInference.Unification.Group
import TraitInference.Unification.Unify

/-!
# TraitInference — solving sessions

The constraints of one definition, or those outside any, are solved in a
**session**: a state of unification, an agenda, the instances that may be
assumed, and the fate of each bound so far. A session is a value; trying a
candidate instance works on a fork of it.

What all sessions and all their forks share is the **world**: the arena, which
only grows, and the log. `SolveM` is the monad of steps that use the world and
may halt, either at a fault or at one of the two **limits**: a definition that
calls itself can keep a session busy for ever, and so can unification on
recursive types.
-/

namespace TraitInference

-- ---------------------------------------------------------------------------
-- The world
-- ---------------------------------------------------------------------------

/-- What is shared by all sessions and their forks. -/
structure World where
  arena : Arena
  /-- What has happened so far, newest first. -/
  log : List Trace.Entry := []

/-- How far solving may go. Raising a limit never changes a result. -/
structure Limits where
  /-- How many constraints may be worked off. -/
  steps : Nat
  /-- How deep a unification may go. -/
  depth : Nat

/-- Why there is no result. -/
inductive Halt
  /-- More constraints came up than `Limits.steps` allows. -/
  | tooLong
  /-- A unification went deeper than `Limits.depth` allows. -/
  | tooDeep
  | fault (f : Fault)
deriving DecidableEq

/-- Steps of solving. The world outlives a halt. -/
abbrev SolveM := ExceptT Halt (StateM World)

namespace SolveM

/-- The result of a step, and the world it leaves. -/
def runIn {α : Type} (x : SolveM α) (w : World) : Except Halt α × World :=
  (ExceptT.run x).run w

/-- A question to the arena. -/
def ask {α : Type} (question : Arena → Except Fault α) : SolveM α := do
  let w ← get
  match question w.arena with
  | .ok v => return v
  | .error f => throw (.fault f)

/-- Logs an event. -/
def emit (e : Trace.Event) : SolveM Unit :=
  modify fun w => { w with log := .event e w.arena.size :: w.log }

/-- Logs that the work of `x` happens inside a span. -/
def within {α : Type} (s : Trace.Span) (x : SolveM α) : SolveM α := do
  modify fun w => { w with log := .enter s :: w.log }
  let v ← x
  modify fun w => { w with log := .leave :: w.log }
  return v

/-- Copies with `copier`; gives it back with the counterparts it has chosen. -/
def copy {α : Type} (copier : Copier) (x : CopyM α) : SolveM (α × Copier) := do
  let w ← get
  let (result, s) := (ExceptT.run x).run ⟨copier, w.arena⟩
  set { w with arena := s.arena }
  match result with
  | .ok v => return (v, s.copier)
  | .error f => throw (.fault f)

end SolveM

-- ---------------------------------------------------------------------------
-- Sessions
-- ---------------------------------------------------------------------------

/-- What became of a bound. -/
inductive Outcome
  | resolved (node : Point) (isError : Bool)
  | unresolved
deriving DecidableEq

/-- A bound that was worked off. The types given for its parameters wait, at
place `deferred`, for the end of the session. -/
structure Resolution where
  bound : Bound
  deferred : Nat
  outcome : Outcome

/-- The state of solving one definition. -/
structure Session where
  unification : Unification := {}
  agenda : Agenda := {}
  /-- The instances that may be assumed. -/
  implied : List Instance := []
  /-- What became of the bounds, oldest first. -/
  resolutions : List Resolution := []

namespace Session

/-- A copy to try something out on, whose errors are its own. -/
def fork (s : Session) : Session :=
  { s with unification := s.unification.fork }

/-- Goes on with a fork in place of `s`, keeping the errors that `s` had. -/
def commit (s branch : Session) : Session :=
  { branch with unification := s.unification.commit branch.unification }

/-- Unifies two types, and logs what is noted on the way. -/
def unify (depth : Nat) (left right : Ty) (s : Session) : SolveM Session :=
  SolveM.within .unify do
    match s.unification.unify depth left right with
    | none => throw .tooDeep
    | some (notes, unification) =>
      notes.forM fun n => SolveM.emit (.noted n)
      return { s with unification }

/-- Gives a point a type that yields to any it has already. -/
def ascribeDefault (depth : Nat) (node : Point) (type : Ty) (s : Session) : SolveM Session :=
  match s.unification.isOpen node with
  | (true, unification) => { s with unification }.unify depth (.point node) type
  | (false, unification) => do
    SolveM.emit (.defaultSkipped node)
    return { s with unification }

/-- Works off an ascription. -/
def ascribe (depth : Nat) (a : Ascription) (s : Session) : SolveM Session :=
  if a.onlyCopies && !a.copied then return s
  else do
    SolveM.emit (.ascribe a.node a.type)
    if a.isDefault then s.ascribeDefault depth a.node a.type
    else s.unify depth (.point a.node) a.type

end Session

/-- The constraints of a definition, copied for a call; also gives the copier,
by which other things can be put in the same terms. -/
def Call.unfold (program : Program) (c : Call) : SolveM (List Constraint × Copier) :=
  SolveM.within (.call c.source c.definition) do
    let cs := program.definition c.definition
    SolveM.emit (.copying cs.length)
    SolveM.copy (.ofCall c) (CopyM.constraints cs)

/-- Works off a call: what it unfolds to joins the agenda. -/
def Session.call (program : Program) (c : Call) (s : Session) : SolveM Session := do
  let (cs, _) ← c.unfold program
  return { s with agenda := s.agenda.extend cs }

end TraitInference
