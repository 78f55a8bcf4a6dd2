import TraitInference.Proofs.Solving

/-!
# TraitInference — what a renaming leaves alone

A renaming that moves none of the points of a type, a constraint, a program or a
session leaves it as it is.
-/

namespace TraitInference

variable {φ : Renaming} {T : Point → Prop}

/-- The renaming moves no point of `T` and keeps all templates. -/
structure Renaming.Fixes (φ : Renaming) (T : Point → Prop) : Prop where
  point    : ∀ {p}, T p → φ.point p = p
  template : φ.template = id

/-- Mapping a list changes nothing if it keeps every item. -/
theorem list_map_eq_self {α : Type} {f : α → α} {l : List α} (h : ∀ a ∈ l, f a = a) :
    l.map f = l := by
  rw [List.map_congr_left h, List.map_id']

-- ---------------------------------------------------------------------------
-- Types and constraints
-- ---------------------------------------------------------------------------

namespace Ty

mutual

/-- The points of a type are those that it names and those that declare its parameters; only
the former could be moved. -/
theorem rename_eq_self (hFix : φ.Fixes T) : ∀ t : Ty, t.Over T T → t.rename φ = t
  | .point p, hOver => by rw [rename, hFix.point hOver]
  | .con tag children emit, hOver => by
    rw [rename, renameAll_eq_self hFix children hOver.2, hFix.template]
    rfl

theorem renameAll_eq_self (hFix : φ.Fixes T) :
    ∀ ts : List Ty, OverAll T T ts → renameAll φ ts = ts
  | [], _ => rfl
  | t :: ts, hOver => by
    rw [renameAll, rename_eq_self hFix t hOver.1, renameAll_eq_self hFix ts hOver.2]

end

end Ty

/-- Parameters are never renamed, so only the types of a substitution matter. -/
theorem Substitution.rename_eq_self (hFix : φ.Fixes T) {s : Substitution} (hOver : s.Over T T) :
    s.rename φ = s :=
  Entries.map_eq_self fun q t hFound => Ty.rename_eq_self hFix t (hOver q t hFound)

/-- Source and trait are points of a bound as well. -/
theorem Bound.rename_eq_self (hFix : φ.Fixes T) {b : Bound} (hOver : b.Over T T) :
    b.rename φ = b := by
  rw [rename, hFix.point hOver.source, hFix.point hOver.trait,
    Substitution.rename_eq_self hFix hOver.args]

theorem Instance.rename_eq_self (hFix : φ.Fixes T) {i : Instance} (hOver : i.Over T T) :
    i.rename φ = i := by
  rw [rename, hFix.point hOver.trait, Substitution.rename_eq_self hFix hOver.args]

theorem Ascription.rename_eq_self (hFix : φ.Fixes T) {a : Ascription} (hOver : a.Over T T) :
    a.rename φ = a := by
  rw [rename, hFix.point hOver.node, Ty.rename_eq_self hFix a.type hOver.type]

/-- A call keeps the points whose counterparts it fixes; the counterparts must not move. -/
theorem Call.rename_eq_self (hFix : φ.Fixes T) {c : Call} (hOver : c.Over T T) :
    c.rename φ = c := by
  have hPoints : c.points.map (fun _ => φ.point) = c.points :=
    Entries.map_eq_self fun p q hFound => hFix.point (hOver.points p q hFound)
  rw [rename, hFix.point hOver.source, hPoints, Substitution.rename_eq_self hFix hOver.args]

/-- Constraints of every kind stay as they are. -/
theorem Constraint.rename_eq_self (hFix : φ.Fixes T) :
    ∀ c : Constraint, c.Over T T → c.rename φ = c
  | .ascribe _, hOver => congrArg ascribe (Ascription.rename_eq_self hFix hOver)
  | .call _, hOver => congrArg call (Call.rename_eq_self hFix hOver)
  | .require _, hOver => congrArg require (Bound.rename_eq_self hFix hOver)
  | .fallback _, hOver => congrArg fallback (Ascription.rename_eq_self hFix hOver)
  | .scoped c, hOver => congrArg Constraint.scoped (rename_eq_self hFix c hOver)

-- ---------------------------------------------------------------------------
-- Programs
-- ---------------------------------------------------------------------------

/-- A table stays as it is if its keys are not moved and its entries are kept. -/
theorem PointMap.rename_eq_self {α : Type} {ρ : Equiv.Perm Point} {f : α → α} {m : PointMap α}
    (h : ∀ (p : Point) (a : α), m[p]? = some a → ρ p = p ∧ f a = a) : m.rename ρ f = m := by
  refine ext_of_rename ρ fun p => ?_
  rw [getElem?_rename]
  cases hFound : m[p]? with
  | some a =>
    obtain ⟨hPoint, hEntry⟩ := h p a hFound
    rw [hPoint, hFound, Option.map_some, hEntry]
  | none =>
    -- a point that is moved to a key would be a key that is moved
    cases hMoved : m[ρ p]? with
    | none => rfl
    | some a =>
      have hEq : ρ p = p := ρ.injective (h (ρ p) a hMoved).1
      rw [hEq, hFound] at hMoved
      cases hMoved

/-- **A program stays as it is** if none of its points is moved. -/
theorem Program.rename_eq_self (hFix : φ.Fixes T) {program : Program} (hOver : program.Over T T) :
    program.rename φ = program := by
  have hTopLevel : program.topLevel.map (Constraint.rename φ) = program.topLevel :=
    list_map_eq_self fun c hc => Constraint.rename_eq_self hFix c (hOver.topLevel c hc)
  have hDefinitions : program.definitions.map (fun _ => List.map (Constraint.rename φ)) =
      program.definitions :=
    Entries.map_eq_self fun d cs hFound => list_map_eq_self fun c hc =>
      Constraint.rename_eq_self hFix c (hOver.definitions d cs hFound c hc)
  have hInstances : program.instances.rename φ.point (List.map (Instance.rename φ)) =
      program.instances := by
    refine PointMap.rename_eq_self fun trait is hFound => ?_
    obtain ⟨hTrait, hAll⟩ := hOver.instances trait is hFound
    exact ⟨hFix.point hTrait,
      list_map_eq_self fun i hi => Instance.rename_eq_self hFix (hAll i hi)⟩
  rw [rename, hTopLevel, hDefinitions, hInstances]

-- ---------------------------------------------------------------------------
-- Sessions
-- ---------------------------------------------------------------------------

/-- The points that occur in a state of unification. -/
structure Unification.Over (T : Point → Prop) (u : Unification) : Prop where
  classes  : ∀ p q : Point, u.classes.parents[p]? = some q → T p ∧ T q
  types    : ∀ (p : Point) (ts : List Ty), u.types[p]? = some ts → T p ∧ ∀ t ∈ ts, t.Over T T
  deferred : ∀ s ∈ u.deferred, s.Over T T
  journal  : ∀ p, Note.recursive p ∈ u.journal → T p

/-- The points that occur in a session. -/
structure Session.Over (T : Point → Prop) (s : Session) : Prop where
  unification : s.unification.Over T
  agenda      : ∀ c ∈ s.agenda.toList, c.Over T T
  implied     : ∀ i ∈ s.implied, i.Over T T
  resolutions : ∀ r ∈ s.resolutions, r.bound.Over T T

/-- A state of unification stays as it is; what it has noted counts as well. -/
theorem Unification.rename_eq_self (hFix : φ.Fixes T) {u : Unification} (hOver : u.Over T) :
    u.rename φ = u := by
  have hClasses : u.classes.rename φ.point = u.classes := by
    have hParents : u.classes.parents.rename φ.point φ.point = u.classes.parents := by
      refine PointMap.rename_eq_self fun p q hFound => ?_
      obtain ⟨hp, hq⟩ := hOver.classes p q hFound
      exact ⟨hFix.point hp, hFix.point hq⟩
    rw [UnionFind.rename, hParents]
  have hTypes : u.types.rename φ.point (·.map (Ty.rename φ)) = u.types := by
    refine PointMap.rename_eq_self fun p ts hFound => ?_
    obtain ⟨hp, hAll⟩ := hOver.types p ts hFound
    exact ⟨hFix.point hp, list_map_eq_self fun t ht => Ty.rename_eq_self hFix t (hAll t ht)⟩
  have hDeferred : u.deferred.map (Substitution.rename φ) = u.deferred :=
    list_map_eq_self fun s hs => Substitution.rename_eq_self hFix (hOver.deferred s hs)
  have hJournal : u.journal.map (Note.rename φ) = u.journal := by
    refine list_map_eq_self fun n hn => ?_
    -- a conflict is noted by its tags, which no renaming touches
    cases n with
    | conflict => rfl
    | recursive p => rw [Note.rename, hFix.point (hOver.journal p hn)]
  rw [rename, hClasses, hTypes, hDeferred, hJournal]

/-- A queue is mapped in both of its halves. -/
theorem Queue.map_eq_self {α : Type} {f : α → α} {q : Queue α} (h : ∀ a ∈ q.toList, f a = a) :
    q.map f = q := by
  obtain ⟨front, back, size, hSize⟩ := q
  have hFront : front.map f = front :=
    list_map_eq_self fun a ha => h a (List.mem_append_left _ ha)
  have hBack : back.map f = back :=
    list_map_eq_self fun a ha => h a (List.mem_append_right _ (List.mem_reverse.mpr ha))
  simp only [map, hFront, hBack]

/-- Constraints do not change lanes, so an agenda may be looked at lane by lane. -/
theorem Agenda.rename_eq_self (hFix : φ.Fixes T) {q : Agenda}
    (hOver : ∀ c ∈ q.toList, c.Over T T) : q.rename φ = q := by
  have hLane (s : Stage) : (q.queue s).map (Constraint.rename φ) = q.queue s := by
    refine Queue.map_eq_self fun c hc => Constraint.rename_eq_self hFix c (hOver c ?_)
    refine List.mem_flatMap.mpr ⟨s, ?_, hc⟩
    cases s <;> simp [Stage.all]
  -- equal in every lane, hence equal in each of the five fields
  have hEq := fun s => (queue_rename (φ := φ) q s).trans (hLane s)
  have hGroup : (q.rename φ).group = q.group := hEq .group
  have hType : (q.rename φ).type = q.type := hEq .type
  have hCall : (q.rename φ).call = q.call := hEq .call
  have hBound : (q.rename φ).bound = q.bound := hEq .bound
  have hFallback : (q.rename φ).fallback = q.fallback := hEq .fallback
  cases q
  simp only [rename] at hGroup hType hCall hBound hFallback ⊢
  rw [hGroup, hType, hCall, hBound, hFallback]

/-- **A session stays as it is** if none of its points is moved. -/
theorem Session.rename_eq_self (hFix : φ.Fixes T) {s : Session} (hOver : s.Over T) :
    s.rename φ = s := by
  have hImplied : s.implied.map (Instance.rename φ) = s.implied :=
    list_map_eq_self fun i hi => Instance.rename_eq_self hFix (hOver.implied i hi)
  have hResolutions : s.resolutions.map (Resolution.rename φ) = s.resolutions := by
    refine list_map_eq_self fun r hr => ?_
    rw [Resolution.rename, Bound.rename_eq_self hFix (hOver.resolutions r hr)]
  rw [rename, Unification.rename_eq_self hFix hOver.unification,
    Agenda.rename_eq_self hFix hOver.agenda, hImplied, hResolutions]

end TraitInference
