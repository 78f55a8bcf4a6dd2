import TraitInference.Session.Run
import TraitInference.Solution
import TraitInference.Trace.Printer

/-!
# TraitInference — solving a program

Every generic definition is solved in a session of its own, in the order of
their points, with its hypotheses as instances that may be assumed; the
constraints outside any definition come last. A call is solved in the session
of the caller.
-/

namespace TraitInference.Program

/-- The name of a session. -/
def sessionName (definition : Option Point) : SolveM String :=
  match definition with
  | none => return "<top level>"
  | some d => SolveM.ask (·.source d)

/-- Solves one session and adds its results. -/
def solveSession (program : Program) (limits : Limits) (definition : Option Point)
    (implied : List Instance) (cs : List Constraint) (solution : Solution) : SolveM Solution := do
  let name ← sessionName definition
  SolveM.within (.session definition name) do
    let s ← (Session.start implied cs).run program limits
    let finished ← SolveM.ask s.unification.finish
    SolveM.emit (.finished finished.groups.length s.resolutions.length)
    SolveM.ask fun _ => Solution.checkSession finished s.resolutions
    return solution.addSession finished s.resolutions

/-- Solves the definitions one after the other. -/
def solveDefinitions (program : Program) (limits : Limits) :
    List (Point × List Constraint) → Solution → SolveM Solution
  | [], solution => return solution
  | (d, cs) :: rest, solution => do
    let implied := (cs.filterMap Constraint.hypothesis).map Instance.ofHypothesis
    let solution ← program.solveSession limits (some d) implied cs solution
    program.solveDefinitions limits rest solution

/-- Solves a program; fresh points go into the arena of the world. -/
def solve (program : Program) (limits : Limits) : SolveM Solution := do
  let solution ← program.solveDefinitions limits program.definitions.toList {}
  program.solveSession limits none [] program.topLevel solution

/-- A solution, the arena it speaks of, and the trace if one was asked for. -/
structure Solved where
  solution : Solution
  arena : Arena
  trace : List String

/-- Solves a program and writes the trace of it. A trace shows what happened
before the end, so a fault in writing it comes before one that ended solving. -/
def solveTraced (program : Program) (limits : Limits) (arena : Arena) (limit : Option Trace.Level) :
    Except Halt Solved := do
  let (result, world) := (program.solve limits).runIn { arena }
  let trace ← match limit with
    | none => .ok []
    | some level => (Trace.lines level world.arena world.log).mapError Halt.fault
  let solution ← result
  return { solution, arena := world.arena, trace }

end TraitInference.Program
