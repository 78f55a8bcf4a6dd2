import TraitInference.Bound

/-!
# TraitInference — constraints

What the solver is asked to make true. An **ascription** says that a point has
a type; a **call** replays the constraints of a definition for a call site; a
bound asks for an instance. Each constraint belongs to a **stage**, and earlier
stages are worked off first: an ascription that links points comes before one
that only pins a point down, and a fallback comes last of all.
-/

namespace TraitInference

/-- The statement that `node` has type `type`. -/
structure Ascription where
  node : Point
  type : Ty
  /-- Holds only in copies, not in the definition itself. -/
  onlyCopies : Bool := false
  /-- Yields to any type that the point already has. -/
  isDefault : Bool := false
  /-- Set on the copies made for a call site. -/
  copied : Bool := false

/-- The use of `definition` at the call site `source`. -/
structure Call where
  source : Point
  definition : Point
  /-- The points whose counterparts are already fixed. -/
  points : PointMap Point
  /-- The types that the call site gives for the definition's parameters. -/
  args : Substitution

/-- A call in which the definition's own point becomes the call site. -/
def Call.ofSource (source definition : Point) (args : Substitution) : Call :=
  { source, definition, points := .ofList [(definition, source)], args }

/-- What the solver is asked to make true. -/
inductive Constraint
  | ascribe (a : Ascription)
  | call (c : Call)
  | require (b : Bound)
  /-- An ascription for a point that nothing else has pinned down. -/
  | fallback (a : Ascription)
  /-- Holds in the definition itself and is left out of every copy. -/
  | scoped (c : Constraint)

/-- The order in which kinds of constraints are worked off. -/
inductive Stage
  | group
  | type
  | call
  | bound
  | fallback
deriving DecidableEq, Inhabited

namespace Stage

/-- The stages from first to last. -/
def all : List Stage :=
  [.group, .type, .call, .bound, .fallback]

/-- The place of a stage in their order. -/
def rank : Stage → Nat
  | .group => 0
  | .type => 1
  | .call => 2
  | .bound => 3
  | .fallback => 4

/-- Whether a stage comes before the limit, if there is one. -/
def isBefore (s : Stage) : Option Stage → Bool
  | none => true
  | some limit => s.rank < limit.rank

/-- The name of a stage in traces. -/
def label : Stage → String
  | .group => "Group"
  | .type => "Type"
  | .call => "Instantiate"
  | .bound => "Bound"
  | .fallback => "Default"

end Stage

/-- Whether two ascriptions agree in everything but emission templates. -/
def Ascription.same (a a' : Ascription) : Bool :=
  a.node == a'.node && a.type.same a'.type && a.onlyCopies == a'.onlyCopies &&
    a.isDefault == a'.isDefault && a.copied == a'.copied

/-- Whether two calls agree in everything but emission templates. -/
def Call.same (c c' : Call) : Bool :=
  c.source == c'.source && c.definition == c'.definition &&
    decide (c.points = c'.points) && c.args.same c'.args

namespace Constraint

/-- The stage of a constraint. -/
def stage : Constraint → Stage
  | .ascribe a => if a.type.mentionsPoint then .group else .type
  | .call _ => .call
  | .require _ => .bound
  | .fallback _ => .fallback
  | .scoped c => c.stage

/-- The bound that the constraint lets its definition assume, if any. -/
def hypothesis : Constraint → Option Bound
  | .require b => if b.isHypothesis then some b else none
  | .scoped c => c.hypothesis
  | _ => none

/-- Whether two constraints agree in everything but emission templates. -/
def same : Constraint → Constraint → Bool
  | .ascribe a, .ascribe a' => a.same a'
  | .call c, .call c' => c.same c'
  | .require b, .require b' => b.same b'
  | .fallback a, .fallback a' => a.same a'
  | .scoped c, .scoped c' => c.same c'
  | _, _ => false

end Constraint

end TraitInference
