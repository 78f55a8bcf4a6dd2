import TraitInference.Program

/-!
# TraitInference — writing a program by hand

A **draft** is a program under construction, together with the arena of its
points. Each point is given the next free stretch of source text, so that the
order of the source and the order of allocation agree.
-/

namespace TraitInference

/-- A program under construction. -/
structure Draft where
  arena : Arena := {}
  program : Program := {}
  /-- Where the text of the next point begins. -/
  offset : Nat := 0
  /-- The number of the next parameter. -/
  parameters : Nat := 0

namespace Draft

/-- Allocates a point at a given stretch of the source. -/
def pointAt (d : Draft) (span : Span) (source : String) (owner : Option Point) : Point × Draft :=
  let (p, arena) := d.arena.alloc { span, source, owner }
  (p, { d with arena })

/-- Allocates a point at the next free stretch of the source. -/
def point (d : Draft) (source : String) (owner : Option Point) : Point × Draft :=
  let stop := d.offset + source.utf8ByteSize
  let (p, d) := d.pointAt ⟨d.offset, stop⟩ source owner
  (p, { d with offset := stop + 1 })

/-- Declares a nominal type without children. -/
def declare (d : Draft) (name : String) : Point × Ty × Draft :=
  let (p, d) := d.point name none
  (p, .con (.named p) [] none, d)

/-- Declares a parameter. -/
def parameter (d : Draft) (name : String) (owner : Option Point) (infer : Bool) :
    Parameter × Draft :=
  let (source, d) := d.point name owner
  ({ id := d.parameters, name, source, infer }, { d with parameters := d.parameters + 1 })

/-- Registers an instance whose node exists. -/
def register (d : Draft) (i : Instance) : Draft :=
  { d with program := d.program.register i }

/-- Registers an instance at a point of its own. -/
def addInstance (d : Draft) (name : String) (trait : Point) (args : Substitution)
    (isDefault isError : Bool) : Point × Draft :=
  let (node, d) := d.point name none
  (node, d.register { node, trait, args, isDefault, isError })

/-- Sets the constraints of a definition. -/
def define (d : Draft) (definition : Point) (cs : List Constraint) : Draft :=
  { d with program := d.program.define definition cs }

/-- Adds a constraint outside any definition. -/
def addTopLevel (d : Draft) (c : Constraint) : Draft :=
  { d with program := d.program.addTopLevel c }

end Draft

end TraitInference
