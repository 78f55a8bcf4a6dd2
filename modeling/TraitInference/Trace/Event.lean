import TraitInference.Constraint
import TraitInference.Unification.Basic

/-!
# TraitInference — what a trace records

The solver keeps a log of what it does: **events**, and the **spans** of work
inside which they happen. The log holds the things themselves; how they are
written, and which of them are shown, is decided when the log is read
(`Trace.lines`).
-/

namespace TraitInference

/-- The groups of candidates for a bound, in the order in which they are tried. -/
inductive Tier
  /-- What the current definition assumes. -/
  | implied
  | ordinary
  | default
deriving DecidableEq

namespace Tier

/-- The name of a tier in traces. -/
def label : Tier → String
  | .implied => "Implied"
  | .ordinary => "NonDefault"
  | .default => "Default"

end Tier

namespace Trace

/-- A stretch of work. -/
inductive Span
  /-- All the constraints of a definition, or those outside any. -/
  | session (definition : Option Point) (name : String)
  /-- The search for an instance. -/
  | bound (source : Point)
  /-- The copying of a definition. -/
  | call (source definition : Point)
  | unify

/-- Something that happened. -/
inductive Event
  /-- A constraint left the agenda. -/
  | run (stage : Stage) (remaining : Nat)
  | ascribe (node : Point) (type : Ty)
  | defaultSkipped (node : Point)
  | noted (n : Note)
  /-- A definition of `count` constraints is about to be copied. -/
  | copying (count : Nat)
  | selfReference
  | hypothesis
  | seek (b : Bound)
  | rejected (node : Point)
  | tried (tier : Tier) (candidates : Nat)
  | resolved (tier : Tier) (node : Point)
  | unresolved
  | finished (groups bounds : Nat)

/-- An entry of the log. -/
inductive Entry
  | enter (s : Span)
  | leave
  /-- An event, with the number of points that were allocated then. -/
  | event (e : Event) (size : Nat)

end Trace

end TraitInference
