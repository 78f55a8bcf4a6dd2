import TraitInference.Point

/-!
# TraitInference — disjoint sets of points

A forest: every **recorded** point has a parent, and a point that is its own
parent represents its set. Merging `a` with `b` makes `a` itself, not the root
above it, the representative of both sets, so that the caller decides which
point survives; this sets three entries and leaves every other parent where
it is. A point that was never recorded is alone in its set.
-/

namespace TraitInference

/-- Disjoint sets of points, as a forest of parents. -/
structure UnionFind where
  parents : PointMap Point := ∅

namespace UnionFind

/-- Climbs from `p` to the root of its tree through at most `fuel` parents. -/
def climb (parents : PointMap Point) : Nat → Point → Point
  | 0, p => p
  | fuel + 1, p =>
    match parents[p]? with
    | none => p
    | some q => if q = p then p else climb parents fuel q

/-- The representative of the set of `p`. In a forest no path is longer than
the number of recorded points. -/
def representative (u : UnionFind) (p : Point) : Point :=
  climb u.parents u.parents.size p

/-- Whether `p` is recorded. -/
def contains (u : UnionFind) (p : Point) : Bool :=
  u.parents.contains p

/-- The recorded points, in order. -/
def points (u : UnionFind) : List Point :=
  u.parents.keys

/-- The representative of the set of `p`, which is recorded if it was not. -/
def find (u : UnionFind) (p : Point) : Point × UnionFind :=
  if u.contains p then (u.representative p, u)
  else (p, ⟨u.parents.insert p p⟩)

/-- Merges the sets of `a` and `b`, with `a` as representative; also gives the
representatives that the two sets had. -/
def union (u : UnionFind) (a b : Point) : (Point × Point) × UnionFind :=
  let (rootA, u) := u.find a
  let (rootB, u) := u.find b
  ((rootA, rootB), ⟨((u.parents.insert rootA a).insert rootB a).insert a a⟩)

end UnionFind

end TraitInference
