import TraitInference.Arena
import TraitInference.Ty.Printer
import TraitInference.Ty.Substitution

/-!
# TraitInference — bounds and instances

A **bound** is the obligation that a trait holds at a point, for the types
given for its parameters. An **instance** is an implementation of a trait. A
bound that a definition assumes about its own parameters (a *hypothesis*) is,
inside that definition, as good as an instance.
-/

namespace TraitInference

/-- The obligation that `trait` be implemented at `source`. -/
structure Bound where
  source : Point
  trait : Point
  args : Substitution
  /-- Set when a definition assumes the bound instead of requiring it. -/
  assumed : Bool
  /-- Set on the copies made for a call site. -/
  copied : Bool

/-- An implementation of `trait`. -/
structure Instance where
  node : Point
  trait : Point
  args : Substitution
  /-- Considered only when no ordinary instance fits. -/
  isDefault : Bool
  /-- Choosing this instance is reported as an error. -/
  isError : Bool

namespace Bound

/-- Whether the bound is assumed here: a copy of an assumed bound has to be shown. -/
def isHypothesis (b : Bound) : Bool :=
  b.assumed && !b.copied

/-- Whether two bounds agree in everything but emission templates. -/
def same (b b' : Bound) : Bool :=
  b.source == b'.source && b.trait == b'.trait && b.args.same b'.args &&
    b.assumed == b'.assumed && b.copied == b'.copied

/-- The name of the trait followed by the types given, in parameter order. -/
def print (name : Point → Except Fault String) (b : Bound) : Except Fault String := do
  let head ← name b.trait
  let texts ← Ty.writeAll name .atom b.args.values
  return head ++ String.ofList (Ty.spaced texts)

end Bound

/-- A hypothesis, taken as an instance that is known to hold. -/
def Instance.ofHypothesis (b : Bound) : Instance :=
  { node := b.source, trait := b.trait, args := b.args, isDefault := false, isError := false }

end TraitInference
