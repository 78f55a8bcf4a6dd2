import TraitInference.Solution

/-!
# TraitInference — reports

A solution as text: a line for each group that has types, for each resolved
bound in source order, and for each error.
-/

namespace TraitInference.Solution

/-- The line of a group; none if nothing is known of it. -/
def groupLine (a : Arena) (g : Group) : Except Fault String :=
  match g.types with
  | [] => .ok ""
  | _ => do
    let nodes ← g.nodes.mapM a.name
    let types ← g.types.mapM (·.print a.source)
    return ", ".intercalate nodes ++ " :: " ++ " | ".intercalate types ++ "\n"

/-- The line of a bound resolved at `p`. -/
def resolvedLine (a : Arena) (p : Point) (r : ResolvedBound) : Except Fault String := do
  let bound ← r.bound.print a.source
  let node ← a.name r.node
  let place ← a.name p
  return place ++ ": " ++ bound ++ " => " ++ node ++ "\n"

/-- What is said of an error, after its place. -/
def errorText (a : Arena) : SolveError → Except Fault String
  | .conflictingTypes .. => .ok "conflicting types"
  | .unresolvedBound _ b => do
    let bound ← b.print a.source
    return "unresolved " ++ bound
  | .errorInstance _ b node => do
    let bound ← b.print a.source
    let node ← a.name node
    return bound ++ " => " ++ node

/-- The line of an error. -/
def errorLine (a : Arena) (e : SolveError) : Except Fault String := do
  let place ← a.name e.point
  let text ← errorText a e
  return "error at " ++ place ++ ": " ++ text ++ "\n"

/-- The whole report. -/
def report (s : Solution) (a : Arena) : Except Fault String := do
  let groups ← s.groups.toList.mapM (groupLine a)
  let entries ← a.inSourceOrder (·.1) s.resolved.toList
  let resolved ← entries.mapM fun (p, rs) => rs.mapM (resolvedLine a p)
  let errors ← s.errors.mapM (errorLine a)
  return String.join (groups ++ resolved.flatten ++ errors)

end TraitInference.Solution
