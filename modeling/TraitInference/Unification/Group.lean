import TraitInference.Arena
import TraitInference.Unification.Normal

/-!
# TraitInference — groups

The answer read off a state of unification. Every class that has types becomes
one **group** with all its points; every other recorded point is a group of its
own. Points and groups stand in source order.
-/

namespace TraitInference

/-- Points of one class, with the types found for it. -/
structure Group where
  nodes : List Point
  types : List Ty
deriving Inhabited

/-- A group of several types is in conflict. -/
def Group.isConflicting (g : Group) : Bool :=
  g.types.length > 1

/-- The point by which a group is placed and at which its conflict is reported. -/
def Group.first (g : Group) : Except Fault Point :=
  fetch g.nodes 0

/-- Puts groups into the source order of their first points. -/
def Arena.arrange (a : Arena) (groups : List Group) : Except Fault (List Group) := do
  let placed ← groups.mapM fun g => do return (← g.first, g)
  return (← a.inSourceOrder (·.1) placed).map (·.2)

/-- What is left of a state when all merging is done. -/
structure Finished where
  groups : List Group
  deferred : List Substitution

namespace Unification

/-- The recorded points of each class, in order, under its representative. -/
def members (u : Unification) : PointMap (List Point) :=
  u.classes.points.foldr
    (fun p classes => classes.alter (u.representative p) fun ps => some (p :: ps.getD [])) ∅

/-- The groups of one class. -/
def groupsOf (u : Unification) (root : Point) (nodes : List Point) : List Group :=
  match u.typesAt root with
  | [] => nodes.map fun p => ⟨[p], []⟩
  | ts => [⟨nodes, Ty.distinct (ts.map u.apply)⟩]

/-- All groups and the substitutions kept for the end, in normal form. -/
def finish (u : Unification) (a : Arena) : Except Fault Finished := do
  let groups ← u.members.toList.mapM fun (root, nodes) => do
    return u.groupsOf root (← a.inSourceOrder id nodes)
  let groups ← a.arrange groups.flatten
  return { groups, deferred := u.deferred.map u.applyAll }

end Unification

end TraitInference
