import TraitInference.Unification.Basic

/-!
# TraitInference — the occurs check

A class that occurred inside one of its own types would have an infinite type.
Whether it would is a question of reachability: from the points of a type one
reaches their classes, from a class the points of all its types, and so on. The
search opens each class at most once, so it ends whatever the types are.
-/

namespace TraitInference.Unification

/-- The points in all types of a class. -/
def pointsAt (u : Unification) (root : Point) : List Point :=
  (u.typesAt root).flatMap Ty.points

/-- Whether a search for the class `target` can pass over `p`: the class of `p`
is another one, and it is among those in `opened` or has no types to look into. -/
def isSettled (u : Unification) (target : Point) (opened : PointSet) (p : Point) : Bool :=
  let root := u.representative p
  root ≠ target && (root ∈ opened || (u.typesAt root).isEmpty)

/-- Searches for the class `target` from the points `todo` on, leaving out the
classes in `opened`, and opens at most `fuel` others. -/
def search (u : Unification) (target : Point) : Nat → PointSet → List Point → Bool
  | 0, _, todo => todo.any (u.representative · = target)
  | fuel + 1, opened, todo =>
    match todo.dropWhile (u.isSettled target opened) with
    | [] => false
    | p :: rest =>
      let root := u.representative p
      root = target || u.search target fuel (opened.insert root) (u.pointsAt root ++ rest)

/-- Whether the class represented by `target` occurs in `t`, looking through
the types recorded for other classes. Only classes that have types are opened,
each of them once. -/
def occurs (u : Unification) (target : Point) (t : Ty) : Bool :=
  u.search target u.types.size ∅ t.points

end TraitInference.Unification
