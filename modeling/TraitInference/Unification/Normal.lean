import TraitInference.Unification.Basic

/-!
# TraitInference — normal forms

Once all merging is done, the type of a point is read off the state: every
point becomes the first type of its class, and so on inside that type. A class
whose types are recursive is not unfolded again inside itself; there its
representative stands for it.
-/

namespace TraitInference.Unification

/-- What a point stands for, with the classes in `visiting` left folded. Each
unfolding visits another class that has types, so `fuel` unfoldings suffice once
it is the number of such classes. -/
def expand (u : Unification) : Nat → List Point → Point → Ty
  | 0, _, p => .point (u.representative p)
  | fuel + 1, visiting, p =>
    let root := u.representative p
    if root ∈ visiting then .point root
    else match (u.typesAt root).head? with
      | none => .point root
      | some t => t.bind (u.expand fuel (root :: visiting))

/-- A type with every point replaced by what it stands for. -/
def apply (u : Unification) (t : Ty) : Ty :=
  t.bind (u.expand u.types.size [])

/-- A substitution with every type in normal form. -/
def applyAll (u : Unification) (s : Substitution) : Substitution :=
  s.mapTypes u.apply

end TraitInference.Unification
