import Std.Data.ExtTreeMap
import Std.Data.ExtTreeSet

/-!
# TraitInference — points

A **point** is a place of the analysed program that has a type: an expression,
a binder, a declaration, a call site. To the solver it is a unification
variable. Points are numbered in the order in which they are allocated, and
that number is all that a point is; what is known about it lives in an
`Arena`.

Tables keyed by points and sets of points are ordered by number and compared by
their contents (`PointMap`, `PointSet`), so no order of insertion can ever be
observed.
-/

namespace TraitInference

/-- A place of the program, named by its number in allocation order. -/
structure Point where
  index : Nat
deriving DecidableEq, Inhabited

namespace Point

/-- Points are ordered as they were allocated. -/
instance : Ord Point := ⟨compareOn Point.index⟩

instance : Std.TransOrd Point :=
  inferInstanceAs (Std.TransCmp (compareOn Point.index))

instance : Std.LawfulEqOrd Point where
  eq_of_compare {a b} h := by
    have hIndex : compare a.index b.index = .eq := h
    cases a
    cases b
    simpa using hIndex

/-- The text that stands for a point in messages and traces. -/
def label (p : Point) : String :=
  "Idx::<PointData>(" ++ toString p.index ++ ")"

/-- The text of an optional point in traces. -/
def labelOption : Option Point → String
  | none => "None"
  | some p => "Some(" ++ p.label ++ ")"

end Point

/-- A finite table keyed by points. -/
abbrev PointMap (α : Type) := Std.ExtTreeMap Point α

/-- A finite set of points. -/
abbrev PointSet := Std.ExtTreeSet Point

end TraitInference
