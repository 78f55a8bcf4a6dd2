import TraitInference.Copier
import TraitInference.Proofs.Renaming
import TraitInference.Proofs.Simulation

/-!
# TraitInference — copying under a renaming

How a copy is numbered depends on how large the arena is when it is made, so
copying in a larger arena gives other numbers. This is the only difference it
makes: copying the renamed templates with the renamed counterparts gives the
renamed copies (`sim_constraints`, `sim_substitution`).

* `Over` — the points from which copies are made satisfy some predicate.
* `Mirror` — what twin arenas are: they agree on the points from which copies are
  made, and their next points correspond. A permutation cannot follow a run for
  ever, so a mirror may ask it to stay inside some bound.
-/

namespace TraitInference

variable {φ : Renaming}

-- ---------------------------------------------------------------------------
-- Tables with mapped entries
-- ---------------------------------------------------------------------------

namespace Entries

variable {κ α β : Type} [Ord κ] [Std.TransOrd κ] [Std.LawfulEqOrd κ]

/-- Entries may be mapped before or after one is put in. -/
theorem map_insert (f : α → β) (m : Std.ExtTreeMap κ α) (k : κ) (a : α) :
    (m.insert k a).map (fun _ => f) = (m.map fun _ => f).insert k (f a) := by
  refine Std.ExtTreeMap.ext_getElem? fun q => ?_
  rw [Std.ExtTreeMap.getElem?_map, Std.ExtTreeMap.getElem?_insert, Std.ExtTreeMap.getElem?_insert,
    Std.ExtTreeMap.getElem?_map]
  split
  · rfl
  · rfl

theorem map_insertMany (f : α → β) (l : List (κ × α)) (m : Std.ExtTreeMap κ α) :
    (m.insertMany l).map (fun _ => f) =
      (m.map fun _ => f).insertMany (l.map fun (k, a) => (k, f a)) := by
  induction l generalizing m with
  | nil => rw [List.map_nil, Std.ExtTreeMap.insertMany_nil, Std.ExtTreeMap.insertMany_nil]
  | cons x l ih =>
    obtain ⟨k, a⟩ := x
    rw [List.map_cons, Std.ExtTreeMap.insertMany_cons, Std.ExtTreeMap.insertMany_cons, ih,
      map_insert]

/-- A table of mapped entries is the mapped table. -/
theorem map_ofList (f : α → β) (l : List (κ × α)) :
    (Std.ExtTreeMap.ofList l compare).map (fun _ => f) =
      Std.ExtTreeMap.ofList (l.map fun (k, a) => (k, f a)) compare := by
  have hEmpty : (∅ : Std.ExtTreeMap κ α).map (fun _ => f) = ∅ := by
    refine Std.ExtTreeMap.ext_getElem? fun q => ?_
    simp
  rw [Std.ExtTreeMap.ofList_eq_insertMany_empty, Std.ExtTreeMap.ofList_eq_insertMany_empty,
    map_insertMany, hEmpty]

/-- Mapping changes nothing if it keeps every entry. -/
theorem map_eq_self {f : α → α} {m : Std.ExtTreeMap κ α}
    (h : ∀ (k : κ) (a : α), m[k]? = some a → f a = a) : m.map (fun _ => f) = m := by
  refine Std.ExtTreeMap.ext_getElem? fun q => ?_
  rw [Std.ExtTreeMap.getElem?_map]
  cases hFound : m[q]? with
  | none => rfl
  | some a => rw [Option.map_some, h q a hFound]

end Entries

namespace Substitution

/-- Only the types of a substitution are renamed: parameters keep their names and
declarations. -/
theorem rename_insert (s : Substitution) (q : Parameter) (t : Ty) :
    rename φ (s.insert q t) = (s.rename φ).insert q (t.rename φ) :=
  Entries.map_insert (Ty.rename φ) s q t

theorem rename_ofList (l : List (Parameter × Ty)) :
    rename φ (.ofList l) = .ofList (l.map fun (q, t) => (q, t.rename φ)) :=
  Entries.map_ofList (Ty.rename φ) l

theorem rename_empty : rename φ ∅ = ∅ :=
  rename_ofList []

theorem toList_rename (s : Substitution) :
    (s.rename φ).toList = s.toList.map fun (q, t) => (q, t.rename φ) :=
  Std.ExtTreeMap.toList_map

@[simp]
theorem getElem?_rename (s : Substitution) (q : Parameter) :
    (s.rename φ)[q]? = s[q]?.map (Ty.rename φ) :=
  Std.ExtTreeMap.getElem?_map

/-- Whether a parameter is supplied or inferred does not depend on its type. -/
theorem supplied_rename (s : Substitution) : (s.rename φ).supplied = s.supplied.rename φ := by
  refine Std.ExtTreeMap.ext_getElem? fun q => ?_
  rw [getElem?_rename, supplied, supplied, Std.ExtTreeMap.getElem?_filter',
    Std.ExtTreeMap.getElem?_filter', getElem?_rename]
  cases s[q]? with
  | none => rfl
  | some t => cases q.infer <;> simp [Option.filter]

theorem inferred_rename (s : Substitution) : (s.rename φ).inferred = s.inferred.rename φ := by
  refine Std.ExtTreeMap.ext_getElem? fun q => ?_
  rw [getElem?_rename, inferred, inferred, Std.ExtTreeMap.getElem?_filter',
    Std.ExtTreeMap.getElem?_filter', getElem?_rename]
  cases s[q]? with
  | none => rfl
  | some t => cases q.infer <;> simp [Option.filter]

theorem contains_rename (s : Substitution) (q : Parameter) :
    (s.rename φ).contains q = s.contains q :=
  Std.ExtTreeMap.contains_map

end Substitution

-- ---------------------------------------------------------------------------
-- Constraints
-- ---------------------------------------------------------------------------

/-- An ascription under a renaming. -/
def Ascription.rename (φ : Renaming) (a : Ascription) : Ascription :=
  { a with node := φ.point a.node, type := a.type.rename φ }

/-- A bound under a renaming: points and types move, the flags stay. -/
def Bound.rename (φ : Renaming) (b : Bound) : Bound :=
  { b with source := φ.point b.source, trait := φ.point b.trait, args := b.args.rename φ }

/-- The points whose counterparts a call fixes are points of the definition: only
the counterparts are renamed. -/
def Call.rename (φ : Renaming) (c : Call) : Call :=
  { c with
    source := φ.point c.source
    points := c.points.map fun _ => φ.point
    args := c.args.rename φ }

/-- A constraint under a renaming, which keeps its kind. -/
def Constraint.rename (φ : Renaming) : Constraint → Constraint
  | .ascribe a => .ascribe (a.rename φ)
  | .call c => .call (c.rename φ)
  | .require b => .require (b.rename φ)
  | .fallback a => .fallback (a.rename φ)
  | .scoped c => .scoped (c.rename φ)

/-- A renamed constraint waits for the same stage. -/
@[simp]
theorem Constraint.stage_rename : ∀ c : Constraint, (c.rename φ).stage = c.stage
  | .ascribe a => by simp [rename, stage, Ascription.rename]
  | .call _ | .require _ | .fallback _ => rfl
  | .scoped c => stage_rename c

/-- The call of a source starts with one counterpart, and that is renamed. -/
theorem Call.ofSource_rename (source definition : Point) (args : Substitution) :
    ofSource (φ.point source) definition (args.rename φ) =
      (ofSource source definition args).rename φ := by
  have hPoints : (Std.ExtTreeMap.ofList [(definition, source)] compare).map
      (fun _ => φ.point) = Std.ExtTreeMap.ofList [(definition, φ.point source)] compare :=
    Entries.map_ofList φ.point [(definition, source)]
  simp only [ofSource, rename, hPoints]

/-- A copier whose counterparts are renamed. -/
def Copier.rename (φ : Renaming) (c : Copier) : Copier :=
  { c with
    source := φ.point c.source
    points := c.points.map fun _ => φ.point
    args := c.args.rename φ }

-- ---------------------------------------------------------------------------
-- The points from which copies are made
-- ---------------------------------------------------------------------------

/-- The declaring point of a parameter. -/
def Tag.Over (D : Point → Prop) : Tag → Prop
  | .parameter q => D q.source
  | _ => True

namespace Ty

mutual

/-- `T` holds of the points of the type, and `D` of those that declare its parameters. -/
def Over (T D : Point → Prop) : Ty → Prop
  | .point p => T p
  | .con tag children _ => tag.Over D ∧ OverAll T D children

/-- The same of a row of types. -/
def OverAll (T D : Point → Prop) : List Ty → Prop
  | [] => True
  | t :: ts => t.Over T D ∧ OverAll T D ts

end

end Ty

/-- The same of all types of a substitution. -/
def Substitution.Over (T D : Point → Prop) (s : Substitution) : Prop :=
  ∀ (q : Parameter) (t : Ty), s[q]? = some t → t.Over T D

structure Ascription.Over (T D : Point → Prop) (a : Ascription) : Prop where
  node : T a.node
  type : a.type.Over T D

/-- The same of a bound; its trait is one of its points. -/
structure Bound.Over (T D : Point → Prop) (b : Bound) : Prop where
  source : T b.source
  trait  : T b.trait
  args   : b.args.Over T D

/-- The same of a call and the counterparts that it fixes. -/
structure Call.Over (T D : Point → Prop) (c : Call) : Prop where
  source : T c.source
  points : ∀ p q : Point, c.points[p]? = some q → T q
  args   : c.args.Over T D

/-- The same of whatever a constraint speaks of. -/
def Constraint.Over (T D : Point → Prop) : Constraint → Prop
  | .ascribe a => a.Over T D
  | .call c => c.Over T D
  | .require b => b.Over T D
  | .fallback a => a.Over T D
  | .scoped c => c.Over T D

section Mono

variable {T T' D D' : Point → Prop}

theorem Tag.Over.mono (hD : ∀ p, D p → D' p) {tag : Tag} (hOver : tag.Over D) : tag.Over D' := by
  cases tag with
  | parameter q => exact hD _ hOver
  | _ => trivial

mutual

/-- Weaker predicates hold of the same types. -/
theorem Ty.Over.mono (hT : ∀ p, T p → T' p) (hD : ∀ p, D p → D' p) :
    ∀ {t : Ty}, t.Over T D → t.Over T' D'
  | .point p, hOver => hT p hOver
  | .con _ _ _, hOver => ⟨hOver.1.mono hD, Ty.OverAll.mono hT hD hOver.2⟩

theorem Ty.OverAll.mono (hT : ∀ p, T p → T' p) (hD : ∀ p, D p → D' p) :
    ∀ {ts : List Ty}, Ty.OverAll T D ts → Ty.OverAll T' D' ts
  | [], _ => trivial
  | _ :: _, hOver => ⟨hOver.1.mono hT hD, Ty.OverAll.mono hT hD hOver.2⟩

end

theorem Substitution.Over.mono (hT : ∀ p, T p → T' p) (hD : ∀ p, D p → D' p) {s : Substitution}
    (hOver : s.Over T D) : s.Over T' D' :=
  fun q t hFound => (hOver q t hFound).mono hT hD

theorem Ascription.Over.mono (hT : ∀ p, T p → T' p) (hD : ∀ p, D p → D' p) {a : Ascription}
    (hOver : a.Over T D) : a.Over T' D' :=
  ⟨hT _ hOver.node, hOver.type.mono hT hD⟩

/-- Weaker predicates hold of the same constraints. -/
theorem Constraint.Over.mono (hT : ∀ p, T p → T' p) (hD : ∀ p, D p → D' p) :
    ∀ {c : Constraint}, c.Over T D → c.Over T' D'
  | .ascribe _, hOver => Ascription.Over.mono hT hD hOver
  | .call _, hOver => ⟨hT _ hOver.source, fun p q hFound => hT q (hOver.points p q hFound),
      Substitution.Over.mono hT hD hOver.args⟩
  | .require _, hOver => ⟨hT _ hOver.source, hT _ hOver.trait,
      Substitution.Over.mono hT hD hOver.args⟩
  | .fallback _, hOver => Ascription.Over.mono hT hD hOver
  | .scoped c, hOver => Constraint.Over.mono hT hD (c := c) hOver

end Mono

mutual

/-- Predicates that always hold say nothing about a type. -/
theorem Ty.over_true : ∀ t : Ty, t.Over (fun _ => True) (fun _ => True)
  | .point _ => trivial
  | .con tag children _ => ⟨by cases tag <;> trivial, Ty.overAll_true children⟩

theorem Ty.overAll_true : ∀ ts : List Ty, Ty.OverAll (fun _ => True) (fun _ => True) ts
  | [] => trivial
  | t :: ts => ⟨Ty.over_true t, Ty.overAll_true ts⟩

end

/-- Predicates that always hold say nothing about a constraint. -/
theorem Constraint.over_true : ∀ c : Constraint, c.Over (fun _ => True) (fun _ => True)
  | .ascribe a | .fallback a => ⟨trivial, a.type.over_true⟩
  | .call _ => ⟨trivial, fun _ _ _ => trivial, fun _ t _ => t.over_true⟩
  | .require _ => ⟨trivial, trivial, fun _ t _ => t.over_true⟩
  | .scoped c => over_true c

-- ---------------------------------------------------------------------------
-- Twin arenas
-- ---------------------------------------------------------------------------

/-- How two arenas correspond while copies are made in both. -/
structure Mirror (φ : Renaming) where
  /-- The points from which copies are made; they are the same on both sides. -/
  template : Point → Prop
  point_eq : ∀ {p}, template p → φ.point p = p
  /-- How far the first arena may grow. -/
  inside : Arena → Prop
  inside_of_copies : ∀ {a a'}, a.Copies a' → inside a' → inside a
  twin : Arena → Arena → Prop
  site_eq : ∀ {a a' p}, twin a a' → template p → a'.site p = a.site p
  copy_eq : ∀ {a a' b p site q}, twin a a' → template p → a.copy p site = .ok (q, b) → inside b →
    ∃ b', a'.copy p (φ.point site) = .ok (φ.point q, b') ∧ twin b b'

namespace Mirror

variable (M : Mirror φ)

/-- What is inside the bound at the end of a run was inside it all along. -/
theorem inside_of_grown {a a' : Arena} (h : a.Grown a') (hInside : M.inside a') : M.inside a := by
  induction h with
  | refl => exact hInside
  | tail _ hCopies ih => exact ih (M.inside_of_copies hCopies hInside)

/-- Nothing moves, so the two arenas are one and the same. -/
def still (template : Option String → Option String) : Mirror { point := .refl _, template } where
  template _ := True
  point_eq _ := rfl
  inside _ := True
  inside_of_copies _ _ := trivial
  twin a a' := a' = a
  site_eq := by
    rintro a _ p rfl -
    rfl
  copy_eq := by
    rintro a _ b p site q rfl - hCopy -
    exact ⟨b, hCopy, rfl⟩

/-- Copying is compared in twin arenas and with renamed counterparts. -/
def copying : Setting Copying where
  grows s s' := s.arena.Grown s'.arena
  grows_refl _ := .refl
  grows_trans := Relation.ReflTransGen.trans
  inside s := M.inside s.arena
  inside_of_grows := M.inside_of_grown
  twin s s' := s'.copier = s.copier.rename φ ∧ M.twin s.arena s'.arena

end Mirror

namespace CopyM

-- ---------------------------------------------------------------------------
-- Points and parameters
-- ---------------------------------------------------------------------------

/-- What `fresh` does to a state: it finds the counterpart, or makes and remembers one. -/
theorem outcome_fresh (p : Point) (s : Copying) :
    outcome (fresh p) s = match s.copier.points[p]? with
      | some q => (.ok q, s)
      | none => match s.arena.copy p s.copier.source with
        | .ok (q, arena) =>
          (.ok q, ⟨{ s.copier with points := s.copier.points.insert p q }, arena⟩)
        | .error e => (.error e, s) := by
  rw [fresh, outcome_bind_ok (outcome_get s)]
  cases s.copier.points[p]? with
  | some q => rfl
  | none => cases s.arena.copy p s.copier.source with
    | ok result => rfl
    | error e => rfl

/-- What `point` does to a state: points of other definitions are their own counterparts. -/
theorem outcome_point (p : Point) (s : Copying) :
    outcome (point p) s = match s.copier.points[p]? with
      | some q => (.ok q, s)
      | none => match s.arena.owner p with
        | .ok owner => if owner = some s.copier.definition then outcome (fresh p) s else (.ok p, s)
        | .error e => (.error e, s) := by
  rw [point, outcome_bind_ok (outcome_get s)]
  cases s.copier.points[p]? with
  | some q => rfl
  | none => cases s.arena.owner p with
    | error e => rfl
    | ok owner =>
      exact apply_ite (fun x : CopyM Point => outcome x s) (owner = some s.copier.definition)
        (fresh p) (pure p)

/-- What `parameter` does to a state: a copy of the declaration takes the place of a parameter
for which no type is given. -/
theorem outcome_parameter (q : Parameter) (s : Copying) :
    outcome (parameter q) s = match s.copier.args[q]? with
      | some t => (.ok t, s)
      | none => match outcome (fresh q.source) s with
        | (.ok p, s') => (.ok (.point p),
            { s' with copier := { s'.copier with args := s'.copier.args.insert q (.point p) } })
        | (.error e, s') => (.error e, s') := by
  rw [parameter, outcome_bind_ok (outcome_get s)]
  cases s.copier.args[q]? with
  | some t => rfl
  | none =>
    rcases hFresh : outcome (fresh q.source) s with ⟨e | p, s'⟩
    · exact outcome_bind_error hFresh
    · exact outcome_bind_ok hFresh

variable (M : Mirror φ)

/-- A simulation of copying, from what it does to a state and its twin. -/
theorem sim_of_outcomes {α β : Type} {f : α → β} {x : CopyM α} {x' : CopyM β}
    (hGrows : ∀ s : Copying, s.arena.Grown (outcome x s).2.arena)
    (hTwin : ∀ s s', M.copying.twin s s' → M.copying.inside (outcome x s).2 →
      (outcome x' s').1 = (outcome x s).1.map f ∧
        M.copying.twin (outcome x s).2 (outcome x' s').2) : Sim M.copying f x x' where
  grows := hGrows
  result h hInside := (hTwin _ _ h hInside).1
  twin h hInside := (hTwin _ _ h hInside).2

/-- Twins make corresponding copies of a template. -/
theorem sim_fresh {p : Point} (hp : M.template p) :
    Sim M.copying φ.point (fresh p) (fresh p) := by
  refine sim_of_outcomes M ?_ ?_
  · intro s
    rw [outcome_fresh]
    cases s.copier.points[p]? with
    | some q => exact .refl
    | none => cases hCopy : s.arena.copy p s.copier.source with
      | error e => exact .refl
      | ok result => exact .single ⟨p, s.copier.source, result.1, hCopy⟩
  · rintro s s' ⟨hCopier, hArena⟩ hInside
    have hPoints : s'.copier.points[p]? = s.copier.points[p]?.map φ.point := by
      rw [hCopier]
      exact Std.ExtTreeMap.getElem?_map
    have hSource : s'.copier.source = φ.point s.copier.source := by
      rw [hCopier]
      rfl
    rw [outcome_fresh] at hInside ⊢
    rw [outcome_fresh, hPoints, hSource]
    -- either both sides know a counterpart, or both make one
    cases hFound : s.copier.points[p]? with
    | some q => exact ⟨rfl, hCopier, hArena⟩
    | none =>
      simp only [hFound, Option.map_none] at hInside ⊢
      cases hCopy : s.arena.copy p s.copier.source with
      | error e =>
        -- a template is allocated on both sides or on neither
        have hSite := Arena.copy_eq_error_iff.mp hCopy
        rw [← M.site_eq hArena hp] at hSite
        rw [Arena.copy_eq_error_iff.mpr hSite]
        exact ⟨rfl, hCopier, hArena⟩
      | ok result =>
        obtain ⟨q, b⟩ := result
        rw [hCopy] at hInside
        obtain ⟨b', hCopy', hArena'⟩ := M.copy_eq hArena hp hCopy hInside
        rw [hCopy']
        refine ⟨rfl, ?_, hArena'⟩
        have hInsert := Entries.map_insert φ.point s.copier.points p q
        simp only [hCopier, Copier.rename, hInsert]

/-- Twins agree on who owns a template, so both copy it or both share it. -/
theorem sim_point {p : Point} (hp : M.template p) :
    Sim M.copying φ.point (point p) (point p) := by
  have hFresh := sim_fresh M hp
  refine sim_of_outcomes M ?_ ?_
  · intro s
    rw [outcome_point]
    cases s.copier.points[p]? with
    | some q => exact .refl
    | none => cases s.arena.owner p with
      | error e => exact .refl
      | ok owner =>
        dsimp only
        split
        · exact hFresh.grows s
        · exact .refl
  · rintro s s' hTwin hInside
    obtain ⟨hCopier, hArena⟩ := hTwin
    have hPoints : s'.copier.points[p]? = s.copier.points[p]?.map φ.point := by
      rw [hCopier]
      exact Std.ExtTreeMap.getElem?_map
    -- `p` is a template, so both arenas have the same data for it
    have hOwner : s'.arena.owner p = s.arena.owner p := by
      rw [Arena.owner, Arena.owner, M.site_eq hArena hp]
    have hDefinition : s'.copier.definition = s.copier.definition := by
      rw [hCopier]
      rfl
    rw [outcome_point] at hInside ⊢
    rw [outcome_point, hPoints, hOwner, hDefinition]
    cases hFound : s.copier.points[p]? with
    | some q => exact ⟨rfl, hCopier, hArena⟩
    | none =>
      simp only [hFound, Option.map_none] at hInside ⊢
      cases hOwned : s.arena.owner p with
      | error e => exact ⟨rfl, hCopier, hArena⟩
      | ok owner =>
        simp only [hOwned] at hInside ⊢
        split
        · rw [if_pos ‹_›] at hInside
          exact ⟨hFresh.result ⟨hCopier, hArena⟩ hInside, hFresh.twin ⟨hCopier, hArena⟩ hInside⟩
        · -- shared with the call site: a template is not moved
          refine ⟨?_, hCopier, hArena⟩
          rw [Except.map, M.point_eq hp]

/-- Twins put corresponding types in the place of a parameter. -/
theorem sim_parameter {q : Parameter} (hq : M.template q.source) :
    Sim M.copying (Ty.rename φ) (parameter q) (parameter q) := by
  have hFresh := sim_fresh M hq
  refine sim_of_outcomes M ?_ ?_
  · intro s
    rw [outcome_parameter]
    cases s.copier.args[q]? with
    | some t => exact .refl
    | none =>
      have hGrows := hFresh.grows s
      rcases hRun : outcome (fresh q.source) s with ⟨e | p, v⟩
      · rw [hRun] at hGrows
        exact hGrows
      · rw [hRun] at hGrows
        exact hGrows
  · rintro s s' hTwin hInside
    have hArgs : s'.copier.args[q]? = s.copier.args[q]?.map (Ty.rename φ) := by
      rw [hTwin.1]
      exact Std.ExtTreeMap.getElem?_map
    rw [outcome_parameter] at hInside ⊢
    rw [outcome_parameter, hArgs]
    cases hFound : s.copier.args[q]? with
    | some t => exact ⟨rfl, hTwin⟩
    | none =>
      simp only [hFound, Option.map_none] at hInside ⊢
      -- remembering the type of a parameter does not touch the arena
      have hInsideFresh : M.copying.inside (outcome (fresh q.source) s).2 := by
        rcases hRun : outcome (fresh q.source) s with ⟨e | p, v⟩
        · rw [hRun] at hInside
          exact hInside
        · rw [hRun] at hInside
          exact hInside
      have hResult := hFresh.result hTwin hInsideFresh
      have hNext := hFresh.twin hTwin hInsideFresh
      rcases hRun : outcome (fresh q.source) s with ⟨e | p, v⟩
      · rw [hRun] at hResult hNext
        rcases hRun' : outcome (fresh q.source) s' with ⟨r, v'⟩
        rw [hRun'] at hResult hNext
        obtain rfl : r = _ := hResult
        exact ⟨rfl, hNext⟩
      · rw [hRun] at hResult hNext
        rcases hRun' : outcome (fresh q.source) s' with ⟨r, v'⟩
        rw [hRun'] at hResult hNext
        obtain rfl : r = _ := hResult
        refine ⟨rfl, ?_, hNext.2⟩
        have hInsert := Substitution.rename_insert (φ := φ) v.copier.args q (.point p)
        have hCopier : v'.copier = v.copier.rename φ := hNext.1
        show { v'.copier with args := v'.copier.args.insert q (.point (φ.point p)) } =
          Copier.rename φ { v.copier with args := v.copier.args.insert q (.point p) }
        simp only [hCopier, Copier.rename, hInsert, Ty.rename]

-- ---------------------------------------------------------------------------
-- Types and constraints
-- ---------------------------------------------------------------------------

mutual

/-- Types are copied from left to right, so the copies of twins are made in the same order. -/
theorem sim_type : ∀ t : Ty, t.Over M.template M.template →
    Sim M.copying (Ty.rename φ) (type t) (type (t.rename φ))
  | .point p, hOver => by
    have hp : M.template p := hOver
    rw [Ty.rename, M.point_eq hp]
    exact (sim_point M hp).map fun q => rfl
  -- a parameter has no children of its own that would be copied
  | .con (.parameter q) children emit, hOver => sim_parameter M hOver.1
  -- all other tags stay as they are
  | .con (.named d) children emit, hOver => (sim_types children hOver.2).map fun ts => rfl
  | .con .function children emit, hOver => (sim_types children hOver.2).map fun ts => rfl
  | .con .tuple children emit, hOver => (sim_types children hOver.2).map fun ts => rfl
  | .con .block children emit, hOver => (sim_types children hOver.2).map fun ts => rfl
  | .con .intrinsic children emit, hOver => (sim_types children hOver.2).map fun ts => rfl
  | .con (.message text) children emit, hOver => (sim_types children hOver.2).map fun ts => rfl

theorem sim_types : ∀ ts : List Ty, Ty.OverAll M.template M.template ts →
    Sim M.copying (Ty.renameAll φ) (types ts) (types (Ty.renameAll φ ts))
  | [], _ => .pure []
  | t :: ts, hOver => by
    refine (sim_type t hOver.1).bind fun copy => ?_
    exact (sim_types ts hOver.2).map fun copies => rfl

end

theorem sim_entries (l : List (Parameter × Ty)) (hOver : ∀ x ∈ l, x.2.Over M.template M.template) :
    Sim M.copying (List.map fun (q, t) => (q, t.rename φ)) (entries l)
      (entries (l.map fun (q, t) => (q, t.rename φ))) := by
  induction l with
  | nil => exact .pure []
  | cons x l ih =>
    obtain ⟨q, t⟩ := x
    refine (sim_type M t (hOver _ List.mem_cons_self)).bind fun copy => ?_
    exact (ih fun y hy => hOver y (List.mem_cons_of_mem _ hy)).map fun copies => rfl

/-- Renaming keeps the parameters of a substitution and with them the order of its entries. -/
theorem sim_substitution {s : Substitution} (hOver : s.Over M.template M.template) :
    Sim M.copying (Substitution.rename φ) (substitution s) (substitution (s.rename φ)) := by
  have hEntries : ∀ x ∈ s.toList, x.2.Over M.template M.template := by
    rintro ⟨q, t⟩ hMem
    exact hOver q t (Std.ExtTreeMap.mem_toList_iff_getElem?_eq_some.mp hMem)
  unfold substitution
  rw [Substitution.toList_rename]
  exact (sim_entries M s.toList hEntries).map fun l => (Substitution.rename_ofList l).symm

/-- The copy of a renamed ascription is the renamed copy. -/
theorem sim_ascription {a : Ascription} (hOver : a.Over M.template M.template) :
    Sim M.copying (Ascription.rename φ) (ascription a) (ascription (a.rename φ)) := by
  have hNode : (a.rename φ).node = a.node := M.point_eq hOver.node
  unfold ascription
  rw [hNode]
  refine (sim_point M hOver.node).bind fun node => ?_
  exact (sim_type M a.type hOver.type).map fun type => rfl

/-- Copying leaves the trait of a bound alone, so it is renamed with the copy. -/
theorem sim_bound {b : Bound} (hOver : b.Over M.template M.template) :
    Sim M.copying (Bound.rename φ) (bound b) (bound (b.rename φ)) := by
  have hSource : (b.rename φ).source = b.source := M.point_eq hOver.source
  unfold bound
  rw [hSource]
  refine (sim_point M hOver.source).bind fun source => ?_
  exact (sim_substitution M hOver.args).map fun args => rfl

/-- A call inside the definition becomes a call of its own, with the copied source. -/
theorem sim_call {c : Call} (hOver : c.Over M.template M.template) :
    Sim M.copying (Call.rename φ) (call c) (call (c.rename φ)) := by
  have hSource : (c.rename φ).source = c.source := M.point_eq hOver.source
  unfold call
  rw [hSource]
  refine (sim_point M hOver.source).bind fun source => ?_
  exact (sim_substitution M hOver.args).map fun args => Call.ofSource_rename source _ args

/-- Scoped constraints have no copies on either side. -/
theorem sim_constraint : ∀ c : Constraint, c.Over M.template M.template →
    Sim M.copying (Option.map (Constraint.rename φ)) (constraint c) (constraint (c.rename φ))
  | .ascribe _, hOver => (sim_ascription M hOver).map fun _ => rfl
  | .call _, hOver => (sim_call M hOver).map fun _ => rfl
  | .require _, hOver => (sim_bound M hOver).map fun _ => rfl
  | .fallback _, hOver => (sim_ascription M hOver).map fun _ => rfl
  | .scoped _, _ => .pure none

/-- **Copying a definition commutes with renaming.** -/
theorem sim_constraints (cs : List Constraint) (hOver : ∀ c ∈ cs, c.Over M.template M.template) :
    Sim M.copying (List.map (Constraint.rename φ)) (constraints cs)
      (constraints (cs.map (Constraint.rename φ))) := by
  induction cs with
  | nil => exact .pure []
  | cons c cs ih =>
    refine (sim_constraint M c (hOver c List.mem_cons_self)).bind fun copy => ?_
    refine (ih fun d hd => hOver d (List.mem_cons_of_mem c hd)).map fun copies => ?_
    -- a constraint without a copy leaves no gap
    cases copy with
    | none => rfl
    | some copy => rfl

end CopyM

end TraitInference
