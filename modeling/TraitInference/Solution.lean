import TraitInference.Session.Basic

/-!
# TraitInference — solutions

What the solver says about each point once all sessions are over: its group and
types, the bounds resolved and unresolved at it, and the errors, in the order in
which they were found.
-/

namespace TraitInference

/-- A bound and the instance that was chosen for it. -/
structure ResolvedBound where
  bound : Bound
  node : Point
  isError : Bool

/-- What the user has to be told. -/
inductive SolveError
  /-- The group with this number has several types. -/
  | conflictingTypes (point : Point) (group : Nat)
  /-- No tier had exactly one candidate that fits. -/
  | unresolvedBound (point : Point) (b : Bound)
  /-- The instance chosen was declared to be an error. -/
  | errorInstance (point : Point) (b : Bound) (node : Point)

/-- The point at which an error is reported. -/
def SolveError.point : SolveError → Point
  | .conflictingTypes p _ | .unresolvedBound p _ | .errorInstance p _ _ => p

/-- What is known about the points of a program. -/
structure Solution where
  /-- The groups of all sessions; a group's number is its place here. -/
  groups : Array Group := #[]
  groupOf : PointMap Nat := ∅
  types : PointMap (List Ty) := ∅
  resolved : PointMap (List ResolvedBound) := ∅
  unresolved : PointMap (List Bound) := ∅
  errors : List SolveError := []

namespace Solution

/-- Adds items behind those already filed under `p`. -/
def fileUnder {α : Type} (table : PointMap (List α)) (p : Point) (items : List α) :
    PointMap (List α) :=
  table.alter p fun known => some (known.getD [] ++ items)

/-- The types found for `p`; several are a conflict. -/
def typesOf (s : Solution) (p : Point) : List Ty :=
  s.types[p]?.getD []

/-- The group of `p`. -/
def group? (s : Solution) (p : Point) : Option Group :=
  s.groupOf[p]?.bind fun n => s.groups[n]?

/-- The bounds resolved at `p`. -/
def resolvedAt (s : Solution) (p : Point) : List ResolvedBound :=
  s.resolved[p]?.getD []

/-- The bounds left unresolved at `p`. -/
def unresolvedAt (s : Solution) (p : Point) : List Bound :=
  s.unresolved[p]?.getD []

/-- Adds a group. -/
def addGroup (s : Solution) (g : Group) : Solution :=
  let number := s.groups.size
  { s with
    groups := s.groups.push g
    groupOf := g.nodes.foldl (fun table p => table.insert p number) s.groupOf
    types := g.nodes.foldl (fun table p => fileUnder table p g.types) s.types
    errors := match g.isConflicting, g.nodes with
      | true, p :: _ => s.errors ++ [.conflictingTypes p number]
      | _, _ => s.errors }

/-- Adds what became of a bound, whose types are now known. -/
def addResolution (deferred : List Substitution) (s : Solution) (r : Resolution) : Solution :=
  let b := { r.bound with args := deferred[r.deferred]?.getD r.bound.args }
  match r.outcome with
  | .resolved node isError =>
    { s with
      resolved := fileUnder s.resolved b.source [⟨b, node, isError⟩]
      errors := if isError then s.errors ++ [.errorInstance b.source b node] else s.errors }
  | .unresolved =>
    { s with
      unresolved := fileUnder s.unresolved b.source [b]
      errors := s.errors ++ [.unresolvedBound b.source b] }

/-- Makes sure that each conflict has a point to be reported at, and that the types of every
bound are known. -/
def checkSession (f : Finished) (resolutions : List Resolution) : Except Fault Unit := do
  discard ((f.groups.filter Group.isConflicting).mapM Group.first)
  discard (resolutions.mapM fun r => fetch f.deferred r.deferred)

/-- Adds the results of a session, which have been checked. -/
def addSession (s : Solution) (f : Finished) (resolutions : List Resolution) : Solution :=
  resolutions.foldl (addResolution f.deferred) (f.groups.foldl addGroup s)

end Solution

end TraitInference
