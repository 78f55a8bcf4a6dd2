import TraitInference.Constraint

/-!
# TraitInference — copying a definition for a call site

A call replays the constraints of a definition under fresh identity. Points
that the definition owns get a fresh copy each; any other point is shared with
the call site. A parameter becomes the type that the call site gives for it or,
failing that, a fresh copy of the point that declares it. A **copier** remembers
every copy, so that all mentions of a parameter, or of a point that the definition
owns, agree within one call.
-/

namespace TraitInference

/-- The counterparts chosen so far for one call. -/
structure Copier where
  /-- The call site. -/
  source : Point
  definition : Point
  points : PointMap Point := ∅
  args : Substitution := ∅

/-- The copier of a call, which starts from what the call fixes. -/
def Copier.ofCall (c : Call) : Copier :=
  { source := c.source, definition := c.definition, points := c.points, args := c.args }

/-- Copying in progress: the counterparts so far and the arena they live in. -/
structure Copying where
  copier : Copier
  arena : Arena

/-- Steps of copying. What was copied outlives a fault. -/
abbrev CopyM := ExceptT Fault (StateM Copying)

namespace CopyM

/-- The counterpart of a point, which is copied if it has none, whoever owns it. -/
def fresh (p : Point) : CopyM Point := do
  let s ← get
  match s.copier.points[p]? with
  | some q => return q
  | none =>
    let (q, arena) ← s.arena.copy p s.copier.source
    set { s with
      copier := { s.copier with points := s.copier.points.insert p q }, arena : Copying }
    return q

/-- The counterpart of a point. -/
def point (p : Point) : CopyM Point := do
  let s ← get
  match s.copier.points[p]? with
  | some q => return q
  | none =>
    let owner ← s.arena.owner p
    if owner = some s.copier.definition then fresh p else return p

/-- The type that takes the place of a parameter. -/
def parameter (q : Parameter) : CopyM Ty := do
  let s ← get
  match s.copier.args[q]? with
  | some t => return t
  | none =>
    let p ← fresh q.source
    modify fun s =>
      { s with copier := { s.copier with args := s.copier.args.insert q (.point p) } }
    return .point p

mutual

/-- The counterpart of a type: points and parameters are replaced, from left to
right, and all else stays. -/
def type : Ty → CopyM Ty
  | .point p => return .point (← point p)
  | .con (.parameter q) _ _ => parameter q
  | .con tag children emit => return .con tag (← types children) emit

/-- The counterparts of a row of types. -/
def types : List Ty → CopyM (List Ty)
  | [] => return []
  | t :: ts => return (← type t) :: (← types ts)

end

/-- The counterparts of the types in a list of entries; the parameters stay. -/
def entries : List (Parameter × Ty) → CopyM (List (Parameter × Ty))
  | [] => return []
  | (q, t) :: rest => return (q, ← type t) :: (← entries rest)

/-- The counterpart of a substitution. -/
def substitution (s : Substitution) : CopyM Substitution :=
  return .ofList (← entries s.toList)

/-- The counterpart of an ascription. -/
def ascription (a : Ascription) : CopyM Ascription := do
  let node ← point a.node
  let type ← type a.type
  return { a with node, type, copied := true }

/-- The counterpart of a bound: what was assumed is now to be shown. -/
def bound (b : Bound) : CopyM Bound := do
  let source ← point b.source
  let args ← substitution b.args
  return { b with source, args, copied := true }

/-- The counterpart of a call inside the definition. -/
def call (c : Call) : CopyM Call := do
  let source ← point c.source
  let args ← substitution c.args
  return .ofSource source c.definition args

/-- The counterpart of a constraint, if it has one outside its definition. -/
def constraint : Constraint → CopyM (Option Constraint)
  | .ascribe a => return some (.ascribe (← ascription a))
  | .call c => return some (.call (← call c))
  | .require b => return some (.require (← bound b))
  | .fallback a => return some (.fallback (← ascription a))
  | .scoped _ => return none

/-- The counterparts of the constraints of a definition. -/
def constraints : List Constraint → CopyM (List Constraint)
  | [] => return []
  | c :: cs => do
    let copy ← constraint c
    let copies ← constraints cs
    return copy.toList ++ copies

end CopyM

end TraitInference
