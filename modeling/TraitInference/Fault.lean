import TraitInference.Point

/-!
# TraitInference — faults

Conflicting types and unresolved bounds are *answers* of the solver. A fault
is different: it says that the program handed to the solver, or a question
asked about its result, was malformed. Nothing after a fault is computed.
-/

namespace TraitInference

/-- The ways in which a malformed program stops the solver. -/
inductive Fault
  /-- The data of `p` was asked of an arena that holds only `size` points. -/
  | unallocated (size : Nat) (p : Point)
  /-- Item number `index` was asked of a list of only `size` items. -/
  | outOfBounds (size index : Nat)
  /-- The instance at `node` fixes a parameter that the bound does not have. -/
  | foreignParameter (name : String) (node : Point)
  /-- `template` does not have exactly one copy made for `site`. -/
  | copyCount (template site : Point) (copies : List Point)
deriving DecidableEq

/-- The wording of each fault. -/
def Fault.message : Fault → String
  | .unallocated size ⟨index⟩ | .outOfBounds size index =>
    "index out of bounds: the len is " ++ toString size ++
      " but the index is " ++ toString index
  | .foreignParameter name node =>
    "internal error: entered unreachable code: invariant violated: parameter " ++ name ++
      " of " ++ node.label ++ " missing in bound substitutions"
  | .copyCount template site copies =>
    "expected one copy of " ++ template.label ++ " by " ++ site.label ++
      ", found [" ++ ", ".intercalate (copies.map Point.label) ++ "]"

/-- Item number `index` of a list that has to have one. -/
def fetch {α : Type} (items : List α) (index : Nat) : Except Fault α :=
  match items[index]? with
  | some x => .ok x
  | none => .error (.outOfBounds items.length index)

end TraitInference
