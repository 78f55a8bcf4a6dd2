import TraitInference.Unification.Occurs

/-!
# TraitInference — unification

Making two types equal. Two points are put into one class, and the types of the
second class are unified with it; a point and a constructed type meet at the
first type of the point's class; two constructed types must agree in tag and
number of children, and are then unified child by child.

A conflict does not stop unification. It is noted in the journal, and at every
level through which it passes it is recorded on the point at that level, so
that a class whose types disagree somewhere below carries both of them.

On classes that hold recursive types unification may go on for ever, so it takes
`fuel`, a bound on its depth, and has no result when that is used up. More fuel
never changes a result.
-/

namespace TraitInference.Unification

/-- Records a type for the class of `p`, unless the class occurs in it or has
the same type already. -/
def record (u : Unification) (p : Point) (t : Ty) : Unification :=
  let (root, u) := u.find p
  if u.occurs root t then u.note (.recursive root)
  else if (u.typesAt root).any (·.same t) then u
  else { u with types := u.types.insert root (u.typesAt root ++ [t]) }

/-- Records both types on `side` if that is a point. -/
def recordBoth (u : Unification) (left right : Ty) (side : Ty) : Unification :=
  match side with
  | .point p => (u.record p left).record p right
  | .con .. => u

/-- An attempt to make two types equal: whether a conflict was found, and the
state afterwards. -/
abbrev Unifier := Ty → Ty → Unification → Option (Bool × Unification)

/-- Unifies pair after pair, also after a conflict. -/
def unifyEach (unify : Unifier) : List (Ty × Ty) → Unification → Option (Bool × Unification)
  | [], u => some (false, u)
  | (left, right) :: rest, u => do
    let (conflict, u) ← unify left right u
    let (later, u) ← unifyEach unify rest u
    some (conflict || later, u)

/-- Joins the classes of `a` and `b` into one, represented by `a`. The types of
the class of `a` move along with it; those of the class of `b` are taken out. -/
def merge (u : Unification) (a b : Point) : Unification :=
  let rootA := u.representative a
  let others := (u.types.erase rootA).erase (u.representative b)
  { u with
    classes := (u.classes.union a b).2
    types := match u.types[rootA]? with
      | some ts => others.insert a ts
      | none => others }

/-- Puts two points into one class, represented by `a`, with which the types of
the class of `b` are then unified. -/
def unifyPoints (unify : Unifier) (a b : Point) (u : Unification) :
    Option (Bool × Unification) :=
  let (rootA, u) := u.find a
  let (rootB, u) := u.find b
  if rootA = rootB then some (false, u)
  else unifyEach unify ((u.typesAt rootB).map fun t => (.point a, t)) (u.merge a b)

/-- Compares two constructed types and unifies their children. -/
def unifyParts (unify : Unifier) (tag : Tag) (children : List Ty) (tag' : Tag)
    (children' : List Ty) (u : Unification) : Option (Bool × Unification) :=
  if tag = tag' ∧ children.length = children'.length then
    unifyEach unify (children.zip children') u
  else some (true, u.note (.conflict tag tag'))

/-- Unifies what `left` and `right`, not both of them points, are known to be. -/
def unifyKnown (unify : Unifier) (left right known known' : Ty) (u : Unification) :
    Option (Bool × Unification) :=
  match known, known' with
  | .point p, t => some (false, u.record p t)
  | t, .point p => some (false, u.record p t)
  | .con tag children _, .con tag' children' _ => do
    let (conflict, u) ← unifyParts unify tag children tag' children' u
    if conflict then
      some (true, (u.recordBoth known known' left).recordBoth known known' right)
    else some (false, u)

/-- One level of unification, with `unify` for the levels below. -/
def unifyStep (unify : Unifier) (left right : Ty) (u : Unification) :
    Option (Bool × Unification) :=
  if left.same right then some (false, u)
  else match left, right with
    | .point a, .point b => unifyPoints unify a b u
    | _, _ =>
      let (known, u) := u.resolve left
      let (known', u) := u.resolve right
      unifyKnown unify left right known known' u

/-- Unification of bounded depth. -/
def unifyWithin : Nat → Unifier
  | 0 => fun _ _ _ => none
  | fuel + 1 => unifyStep (unifyWithin fuel)

/-- Makes two types equal as far as that is possible; also gives what there was
to report, oldest first. -/
def unify (u : Unification) (fuel : Nat) (left right : Ty) :
    Option (List Note × Unification) := do
  let (_, u) ← unifyWithin fuel left right u
  some u.takeNotes

-- ---------------------------------------------------------------------------
-- Pair after pair
-- ---------------------------------------------------------------------------

section Each

variable {f : Unifier} {left right : Ty} {rest : List (Ty × Ty)} {u u' : Unification}
  {conflict : Bool}

theorem unifyEach_nil_iff :
    unifyEach f [] u = some (conflict, u') ↔ false = conflict ∧ u = u' := by
  rw [unifyEach, Option.some.injEq, Prod.mk.injEq]

theorem unifyEach_cons_iff : unifyEach f ((left, right) :: rest) u = some (conflict, u') ↔
    ∃ c v c', f left right u = some (c, v) ∧ unifyEach f rest v = some (c', u') ∧
      (c || c') = conflict := by
  simp only [unifyEach, Option.bind_eq_bind, Option.bind_eq_some_iff]
  constructor
  · rintro ⟨⟨c, v⟩, hFirst, ⟨c', v'⟩, hLater, hResult⟩
    obtain ⟨rfl, rfl⟩ := Prod.mk.inj (Option.some.inj hResult)
    exact ⟨c, v, c', hFirst, hLater, rfl⟩
  · rintro ⟨c, v, c', hFirst, hLater, rfl⟩
    exact ⟨(c, v), hFirst, (c', u'), hLater, rfl⟩

end Each

-- ---------------------------------------------------------------------------
-- More fuel never changes a result
-- ---------------------------------------------------------------------------

/-- Whatever `f` does, `g` does too. -/
def Unifier.Extends (f g : Unifier) : Prop :=
  ∀ left right u result, f left right u = some result → g left right u = some result

theorem unifyEach_extends {f g : Unifier} (h : f.Extends g) (pairs : List (Ty × Ty))
    {u : Unification} {result : Bool × Unification}
    (hRun : unifyEach f pairs u = some result) : unifyEach g pairs u = some result := by
  induction pairs generalizing u result with
  | nil => exact hRun
  | cons pair rest ih =>
    obtain ⟨left, right⟩ := pair
    simp only [unifyEach, Option.bind_eq_bind, Option.bind_eq_some_iff] at hRun ⊢
    obtain ⟨first, hFirst, later, hLater, hResult⟩ := hRun
    exact ⟨first, h _ _ _ _ hFirst, later, ih hLater, hResult⟩

theorem unifyPoints_extends {f g : Unifier} (h : f.Extends g) {a b : Point}
    {u : Unification} {result : Bool × Unification}
    (hRun : unifyPoints f a b u = some result) : unifyPoints g a b u = some result := by
  unfold unifyPoints at hRun ⊢
  dsimp only at hRun ⊢
  split
  · rw [if_pos ‹_›] at hRun
    exact hRun
  · rw [if_neg ‹_›] at hRun
    exact unifyEach_extends h _ hRun

theorem unifyParts_extends {f g : Unifier} (h : f.Extends g) {tag tag' : Tag}
    {children children' : List Ty} {u : Unification} {result : Bool × Unification}
    (hRun : unifyParts f tag children tag' children' u = some result) :
    unifyParts g tag children tag' children' u = some result := by
  unfold unifyParts at hRun ⊢
  split
  · rw [if_pos ‹_›] at hRun
    exact unifyEach_extends h _ hRun
  · rw [if_neg ‹_›] at hRun
    exact hRun

theorem unifyKnown_extends {f g : Unifier} (h : f.Extends g) {left right known known' : Ty}
    {u : Unification} {result : Bool × Unification}
    (hRun : unifyKnown f left right known known' u = some result) :
    unifyKnown g left right known known' u = some result := by
  unfold unifyKnown at hRun ⊢
  split at hRun
  · exact hRun
  · exact hRun
  · -- both sides are constructed: only the children are left to `f`
    simp only [Option.bind_eq_bind, Option.bind_eq_some_iff] at hRun ⊢
    obtain ⟨parts, hParts, hResult⟩ := hRun
    exact ⟨parts, unifyParts_extends h hParts, hResult⟩

theorem unifyStep_extends {f g : Unifier} (h : f.Extends g) :
    Unifier.Extends (unifyStep f) (unifyStep g) := by
  intro left right u result hRun
  unfold unifyStep at hRun ⊢
  by_cases hSame : left.same right = true
  · rw [if_pos hSame] at hRun ⊢
    exact hRun
  · rw [if_neg hSame] at hRun ⊢
    split at hRun
    · exact unifyPoints_extends h hRun
    · exact unifyKnown_extends h hRun

/-- **More fuel keeps a result.** -/
theorem unifyWithin_mono {fuel fuel' : Nat} (hLe : fuel ≤ fuel') :
    (unifyWithin fuel).Extends (unifyWithin fuel') := by
  induction fuel generalizing fuel' with
  | zero =>
    intro left right u result hRun
    simp [unifyWithin] at hRun
  | succ fuel ih =>
    obtain ⟨more, rfl⟩ : ∃ more, fuel' = more + 1 := ⟨fuel' - 1, by omega⟩
    have hBelow : (unifyWithin fuel).Extends (unifyWithin more) := ih (by omega)
    exact unifyStep_extends hBelow

end TraitInference.Unification
