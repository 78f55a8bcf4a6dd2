import TraitInference.Constraint

/-!
# TraitInference — programs

What the solver is given: the constraints of every generic definition, the
instances of every trait in the order of their registration, and the
constraints that stand outside any definition.
-/

namespace TraitInference

/-- The constraints and instances of a program. -/
structure Program where
  topLevel : List Constraint := []
  definitions : PointMap (List Constraint) := ∅
  instances : PointMap (List Instance) := ∅

namespace Program

/-- Sets the constraints of a definition, in place of any earlier ones. -/
def define (program : Program) (definition : Point) (cs : List Constraint) : Program :=
  { program with definitions := program.definitions.insert definition cs }

/-- Adds an instance behind the others of its trait. -/
def register (program : Program) (i : Instance) : Program :=
  { program with
    instances := program.instances.alter i.trait fun known => some (known.getD [] ++ [i]) }

/-- Adds a constraint outside any definition. -/
def addTopLevel (program : Program) (c : Constraint) : Program :=
  { program with topLevel := program.topLevel ++ [c] }

/-- The constraints of a definition; none if it was never defined. -/
def definition (program : Program) (d : Point) : List Constraint :=
  program.definitions[d]?.getD []

/-- The instances of a trait, in the order of their registration. -/
def instancesOf (program : Program) (trait : Point) : List Instance :=
  program.instances[trait]?.getD []

end Program

end TraitInference
