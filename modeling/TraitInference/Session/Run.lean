import TraitInference.Session.Resolve

/-!
# TraitInference — running a session

Constraints leave the agenda one by one, each is worked off, and what it adds
to the agenda waits its turn. A trial of an instance runs its fork in the same
way, up to the bounds.
-/

namespace TraitInference.Session

/-- Works off a constraint. A trial of an instance uses `settle` to work off
what comes before bounds. -/
def work (depth : Nat) (program : Program) (settle : Session → SolveM Session) :
    Constraint → Session → SolveM Session
  | .ascribe a, s => s.ascribe depth a
  | .fallback a, s => s.ascribe depth a
  | .call c, s => s.call program c
  | .require b, s => s.resolve depth program settle b
  | .scoped c, s => work depth program settle c s

/-- Works off all constraints of the stages before `limit`. -/
def runBefore (program : Program) (depth : Nat) (limit : Option Stage) :
    Nat → Session → SolveM Session
  | 0, _ => throw .tooLong
  | steps + 1, s =>
    match s.agenda.popBefore limit with
    | none => return s
    | some (c, agenda) => do
      SolveM.emit (.run c.stage agenda.size)
      let settle := runBefore program depth (some .bound) steps
      let s ← { s with agenda }.work depth program settle c
      runBefore program depth limit steps s

/-- A session that is about to start on some constraints. -/
def start (implied : List Instance) (cs : List Constraint) : Session :=
  { implied, agenda := Agenda.extend {} cs }

/-- Works off all constraints. -/
def run (program : Program) (limits : Limits) (s : Session) : SolveM Session :=
  s.runBefore program limits.depth none limits.steps

/-- Works off a constraint that is not on the agenda. -/
def execute (program : Program) (limits : Limits) (c : Constraint) (s : Session) :
    SolveM Session :=
  s.work limits.depth program (runBefore program limits.depth (some .bound) limits.steps) c

/-- Works off the next constraint, if there is one. -/
def step (program : Program) (limits : Limits) (s : Session) :
    SolveM (Option Constraint × Session) :=
  match s.agenda.pop with
  | none => return (none, s)
  | some (c, agenda) => do
    let s ← { s with agenda }.execute program limits c
    return (some c, s)

end TraitInference.Session
