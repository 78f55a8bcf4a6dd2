import TraitInference.Ty.Basic

/-!
# TraitInference — substitutions

What a bound, an instance or a call site gives for the parameters it fixes: a
finite table from parameters to types, in the order of the parameters.
-/

namespace TraitInference

/-- The types given for some parameters. -/
abbrev Substitution := Std.ExtTreeMap Parameter Ty

namespace Substitution

/-- Applies `f` to every type; the parameters stay. -/
def mapTypes (f : Ty → Ty) (s : Substitution) : Substitution :=
  s.map fun _ t => f t

/-- The part that the call site supplies. -/
def supplied (s : Substitution) : Substitution :=
  s.filter fun q _ => !q.infer

/-- The part that the chosen instance determines. -/
def inferred (s : Substitution) : Substitution :=
  s.filter fun q _ => q.infer

/-- Whether two substitutions give the same types for the same parameters. -/
def same (s s' : Substitution) : Bool :=
  s.keys == s'.keys && Ty.sameAll s.values s'.values

end Substitution

end TraitInference
