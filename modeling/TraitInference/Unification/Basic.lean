import TraitInference.Ty.Substitution
import TraitInference.UnionFind

/-!
# TraitInference — the state of unification

Points known to have the same type form a class. For each class the state
keeps the constructed types that were found for it: none while the class is
open, one when it is pinned down, several when it is in conflict. It also keeps
the substitutions that wait for all merging to end, and two flags for what went
wrong on the way. A unification under way writes what it has to report into the
**journal**, which is empty between unifications.

A state can be **forked** to try something out. A fork starts with both flags
down, so they speak of its own branch only; **committing** it raises those that
were up on either side.
-/

namespace TraitInference

/-- What unification has to report. -/
inductive Note
  /-- Two constructed types differ in their tags or in their number of children. -/
  | conflict (left right : Tag)
  /-- A type was not recorded because its class occurs inside it. -/
  | recursive (representative : Point)
deriving DecidableEq

/-- Whether a note reports a conflict. -/
def Note.isConflict : Note → Bool
  | .conflict .. => true
  | .recursive _ => false

/-- Classes of points and the types found for them. -/
structure Unification where
  classes : UnionFind := {}
  /-- The types of each class, oldest first, under its representative. -/
  types : PointMap (List Ty) := ∅
  /-- Substitutions to be normalised at the end, oldest first. -/
  deferred : List Substitution := []
  /-- Whether a conflict was found since the state was created or forked. -/
  hasError : Bool := false
  /-- Whether a recursive type was dropped since the state was created or forked. -/
  hasDropped : Bool := false
  /-- What the unification under way has reported, newest first. -/
  journal : List Note := []

namespace Unification

/-- A copy to try something out on. -/
def fork (u : Unification) : Unification :=
  { u with hasError := false, hasDropped := false }

/-- Goes on with a fork in place of `u`, keeping the flags that were up. -/
def commit (u branch : Unification) : Unification :=
  { branch with
    hasError := branch.hasError || u.hasError
    hasDropped := branch.hasDropped || u.hasDropped }

/-- Reports something: it goes into the journal, and its flag is raised. -/
def note (u : Unification) (n : Note) : Unification :=
  { u with
    hasError := n.isConflict || u.hasError
    hasDropped := !n.isConflict || u.hasDropped
    journal := n :: u.journal }

/-- The journal, oldest note first, and the state with an empty one. -/
def takeNotes (u : Unification) : List Note × Unification :=
  (u.journal.reverse, { u with journal := [] })

/-- The representative of the class of `p`. -/
def representative (u : Unification) (p : Point) : Point :=
  u.classes.representative p

/-- The representative of the class of `p`, which is recorded if it was not. -/
def find (u : Unification) (p : Point) : Point × Unification :=
  let (root, classes) := u.classes.find p
  (root, { u with classes })

/-- The types under a representative. -/
def typesAt (u : Unification) (root : Point) : List Ty :=
  u.types[root]?.getD []

/-- The types found for the class of `p`. -/
def typesOf (u : Unification) (p : Point) : List Ty :=
  u.typesAt (u.representative p)

/-- A point becomes the first type of its class or, while there is none, its
representative. A constructed type stays as it is. -/
def resolve (u : Unification) : Ty → Ty × Unification
  | .point p =>
    let (root, u) := u.find p
    ((u.typesAt root).head?.getD (.point root), u)
  | t => (t, u)

/-- Whether no type has been found for the class of `p`. -/
def isOpen (u : Unification) (p : Point) : Bool × Unification :=
  match u.resolve (.point p) with
  | (.point _, u) => (true, u)
  | (.con .., u) => (false, u)

/-- Keeps a substitution for the end; gives its place among the others. -/
def defer (u : Unification) (s : Substitution) : Nat × Unification :=
  (u.deferred.length, { u with deferred := u.deferred ++ [s] })

end Unification

end TraitInference
