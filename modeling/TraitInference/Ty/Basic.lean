import TraitInference.Point

/-!
# TraitInference — types

A type is either a point, standing for whatever type that point turns out to
have, or a **constructed** type: a tag applied to children. A constructed type
may carry an *emission template*, which a code generator reads and the solver
only passes along: two types are **the same** when they agree in everything but
their templates, at every depth (`Ty.same`).

* `Ty.points` — the points that occur in a type.
* `Ty.bind` — replaces each point by a type; templates and tags stay.
* `Ty.erase` — forgets the templates; `Ty.same_iff` says that sameness is
  equality of what is left.
-/

namespace TraitInference

-- ---------------------------------------------------------------------------
-- Parameters
-- ---------------------------------------------------------------------------

/-- A generic parameter of a trait or of a definition. -/
structure Parameter where
  id : Nat
  name : String
  /-- The point that declares it. -/
  source : Point
  /-- Whether the chosen instance determines it, rather than the call site. -/
  infer : Bool
deriving DecidableEq, Inhabited

namespace Parameter

/-- Parameters are ordered by number, then name, then declaring point; an
inferred one comes after its supplied namesake. -/
def cmp : Parameter → Parameter → Ordering :=
  compareLex (compareOn Parameter.id)
    (compareLex (compareOn Parameter.name)
      (compareLex (compareOn Parameter.source) (compareOn Parameter.infer)))

instance : Ord Parameter := ⟨cmp⟩

instance : Std.TransOrd Parameter :=
  inferInstanceAs (Std.TransCmp (compareLex (compareOn Parameter.id)
    (compareLex (compareOn Parameter.name)
      (compareLex (compareOn Parameter.source) (compareOn Parameter.infer)))))

instance : Std.LawfulEqOrd Parameter where
  eq_of_compare {a b} h := by
    have hCmp : cmp a b = .eq := h
    simp only [cmp, compareLex_eq_eq, compareOn, Std.LawfulEqOrd.compare_eq_iff_eq] at hCmp
    cases a
    cases b
    simp_all

end Parameter

-- ---------------------------------------------------------------------------
-- Tags and types
-- ---------------------------------------------------------------------------

/-- The head of a constructed type. -/
inductive Tag
  /-- A nominal type, known by the point that declares it. -/
  | named (declaration : Point)
  /-- A generic parameter, which a copy of the definition replaces. -/
  | parameter (q : Parameter)
  /-- A function; the last child is its result, the others are its arguments. -/
  | function
  | tuple
  | block
  | intrinsic
  /-- Text at the level of types, shown by instances that report an error. -/
  | message (text : String)
deriving DecidableEq, Inhabited

/-- A type of the analysed program. -/
inductive Ty
  | point (p : Point)
  | con (tag : Tag) (children : List Ty) (emit : Option String)
deriving Inhabited

namespace Ty

/-- Attaches an emission template to a constructed type, in place of its own. -/
def withEmit (template : String) : Ty → Ty
  | .point p => .point p
  | .con tag children _ => .con tag children (some template)

-- ---------------------------------------------------------------------------
-- Points of a type
-- ---------------------------------------------------------------------------

mutual

/-- Every occurrence of a point in a type, from left to right. Tags do not count. -/
def points : Ty → List Point
  | .point p => [p]
  | .con _ children _ => pointsOfAll children

/-- The occurrences of points in a row of types. -/
def pointsOfAll : List Ty → List Point
  | [] => []
  | t :: ts => t.points ++ pointsOfAll ts

end

theorem pointsOfAll_eq (ts : List Ty) : pointsOfAll ts = ts.flatMap points := by
  induction ts with
  | nil => rfl
  | cons t ts ih => simp [pointsOfAll, ih]

/-- Whether any point occurs in the type. -/
def mentionsPoint (t : Ty) : Bool :=
  !t.points.isEmpty

mutual

/-- Replaces every point `p` of a type by `f p`. -/
def bind (f : Point → Ty) : Ty → Ty
  | .point p => f p
  | .con tag children emit => .con tag (bindAll f children) emit

/-- Replaces the points in a row of types. -/
def bindAll (f : Point → Ty) : List Ty → List Ty
  | [] => []
  | t :: ts => t.bind f :: bindAll f ts

end

theorem bindAll_eq (f : Point → Ty) (ts : List Ty) : bindAll f ts = ts.map (bind f) := by
  induction ts with
  | nil => rfl
  | cons t ts ih => simp [bindAll, ih]

-- ---------------------------------------------------------------------------
-- Sameness up to emission templates
-- ---------------------------------------------------------------------------

mutual

/-- Forgets the emission templates at every depth. -/
def erase : Ty → Ty
  | .point p => .point p
  | .con tag children _ => .con tag (eraseAll children) none

/-- Forgets the emission templates in a row of types. -/
def eraseAll : List Ty → List Ty
  | [] => []
  | t :: ts => t.erase :: eraseAll ts

end

theorem eraseAll_eq (ts : List Ty) : eraseAll ts = ts.map erase := by
  induction ts with
  | nil => rfl
  | cons t ts ih => simp [eraseAll, ih]

mutual

/-- Whether two types agree in everything but their emission templates. -/
def same : Ty → Ty → Bool
  | .point p, .point q => p == q
  | .con tag children _, .con tag' children' _ => tag == tag' && sameAll children children'
  | _, _ => false

/-- Whether two rows of types agree item by item. -/
def sameAll : List Ty → List Ty → Bool
  | [], [] => true
  | t :: ts, u :: us => t.same u && sameAll ts us
  | _, _ => false

end

mutual

/-- Two types are the same exactly when they are equal without their templates. -/
theorem same_iff : ∀ t u : Ty, t.same u = true ↔ t.erase = u.erase
  | .point p, .point q => by simp [same, erase]
  | .point p, .con .. => by simp [same, erase]
  | .con .., .point q => by simp [same, erase]
  | .con tag children _, .con tag' children' _ => by
    simp [same, erase, sameAll_iff children children']

theorem sameAll_iff : ∀ ts us : List Ty, sameAll ts us = true ↔ eraseAll ts = eraseAll us
  | [], [] => by simp [sameAll, eraseAll]
  | [], _ :: _ => by simp [sameAll, eraseAll]
  | _ :: _, [] => by simp [sameAll, eraseAll]
  | t :: ts, u :: us => by
    simp [sameAll, eraseAll, same_iff t u, sameAll_iff ts us]

end

@[simp]
theorem same_refl (t : Ty) : t.same t = true :=
  (same_iff t t).mpr rfl

theorem same_symm {t u : Ty} (h : t.same u = true) : u.same t = true :=
  (same_iff u t).mpr ((same_iff t u).mp h).symm

theorem same_trans {t u v : Ty} (h : t.same u = true) (h' : u.same v = true) :
    t.same v = true :=
  (same_iff t v).mpr (((same_iff t u).mp h).trans ((same_iff u v).mp h'))

/-- Keeps the first of all types that are the same. -/
def distinct (ts : List Ty) : List Ty :=
  ts.foldl (fun kept t => if kept.any (·.same t) then kept else kept ++ [t]) []

end Ty

end TraitInference
