import Mathlib.Logic.Equiv.Defs
import TraitInference.Proofs.PointMap
import TraitInference.Proofs.Reachability
import TraitInference.Unification.Unify

/-!
# TraitInference — renaming points

Unification never looks at the number of a point, nor at an emission template:
exchange the points of a state, and of the types to be unified, and the result is
the old one with its points exchanged (`unify_rename`). The same holds when the
templates are replaced.

A **renaming** permutes points and replaces templates. What a program declares is
known by name rather than by the point it stands at: the tags of types, the
parameters of a substitution, traits and definitions are left alone.
-/

namespace TraitInference

/-- A permutation of the points, and what becomes of emission templates. -/
structure Renaming where
  point : Equiv.Perm Point
  template : Option String → Option String := id

variable {φ : Renaming}

-- ---------------------------------------------------------------------------
-- Tables
-- ---------------------------------------------------------------------------

namespace PointMap

variable {α β : Type} {ρ : Equiv.Perm Point} {f : α → β}

/-- A table with its keys renamed and its entries mapped. -/
def rename (ρ : Equiv.Perm Point) (f : α → β) (m : PointMap α) : PointMap β :=
  .ofList (m.toList.map fun (p, a) => (ρ p, f a))

private theorem pairwise_renamed (m : PointMap α) :
    (m.toList.map fun (p, a) => (ρ p, f a)).Pairwise fun x y => ¬ compare x.1 y.1 = .eq := by
  rw [List.pairwise_map]
  refine Std.ExtTreeMap.distinct_keys_toList.imp fun {x y} hNe hEq => hNe ?_
  rw [Std.LawfulEqOrd.compare_eq_iff_eq] at hEq ⊢
  exact ρ.injective hEq

/-- The entry at a renamed point is the mapped entry. -/
@[simp]
theorem getElem?_rename (m : PointMap α) (p : Point) :
    (m.rename ρ f)[ρ p]? = m[p]?.map f := by
  unfold rename
  cases hFound : m[p]? with
  | some a =>
    have hMem : (ρ p, f a) ∈ m.toList.map fun (p, a) => (ρ p, f a) :=
      List.mem_map.mpr ⟨(p, a), Std.ExtTreeMap.mem_toList_iff_getElem?_eq_some.mpr hFound, rfl⟩
    exact Std.ExtTreeMap.getElem?_ofList_of_mem Std.ReflOrd.compare_self (pairwise_renamed m) hMem
  -- a key of the new table would be the image of an old key, and of `p` alone
  | none =>
    refine Std.ExtTreeMap.getElem?_ofList_of_contains_eq_false ?_
    rw [← Bool.not_eq_true, List.contains_iff_mem]
    intro hMem
    simp only [List.mem_map, Prod.exists, List.map_map] at hMem
    obtain ⟨q, a, hMem, hEq⟩ := hMem
    obtain rfl : q = p := ρ.injective hEq
    have hFound' := Std.ExtTreeMap.mem_toList_iff_getElem?_eq_some.mp hMem
    rw [hFound] at hFound'
    cases hFound'

/-- Two tables are equal if they hold the same at every renamed point. -/
theorem ext_of_rename {m m' : PointMap β} (ρ : Equiv.Perm Point)
    (h : ∀ p, m[ρ p]? = m'[ρ p]?) : m = m' := by
  refine Std.ExtTreeMap.ext_getElem? fun q => ?_
  obtain ⟨p, rfl⟩ := ρ.surjective q
  exact h p

/-- Renaming merges no keys, so the table keeps its size, and the search bounded by it its
bound. -/
@[simp]
theorem size_rename (m : PointMap α) : (m.rename ρ f).size = m.size := by
  rw [rename, Std.ExtTreeMap.size_ofList (pairwise_renamed m), List.length_map,
    Std.ExtTreeMap.length_toList]

/-- Putting in and renaming commute. -/
theorem rename_insert (m : PointMap α) (p : Point) (a : α) :
    rename ρ f (m.insert p a) = (m.rename ρ f).insert (ρ p) (f a) := by
  refine ext_of_rename ρ fun q => ?_
  simp only [getElem?_rename, getElem?_insert, ρ.injective.eq_iff]
  split
  · rfl
  · rfl

/-- Taking out and renaming commute. -/
theorem rename_erase (m : PointMap α) (p : Point) :
    rename ρ f (m.erase p) = (m.rename ρ f).erase (ρ p) := by
  refine ext_of_rename ρ fun q => ?_
  simp only [getElem?_rename, getElem?_erase, ρ.injective.eq_iff]
  split
  · rfl
  · rfl

theorem contains_rename (m : PointMap α) (p : Point) :
    (m.rename ρ f).contains (ρ p) = m.contains p := by
  rw [Std.ExtTreeMap.contains_eq_isSome_getElem?, Std.ExtTreeMap.contains_eq_isSome_getElem?,
    getElem?_rename, Option.isSome_map]

end PointMap

-- ---------------------------------------------------------------------------
-- Types
-- ---------------------------------------------------------------------------

namespace Ty

mutual

/-- A type with its points and templates renamed. -/
def rename (φ : Renaming) : Ty → Ty
  | .point p => .point (φ.point p)
  | .con tag children emit => .con tag (renameAll φ children) (φ.template emit)

/-- A row of types, renamed. -/
def renameAll (φ : Renaming) : List Ty → List Ty
  | [] => []
  | t :: ts => t.rename φ :: renameAll φ ts

end

/-- A row is renamed one by one. -/
theorem renameAll_eq (ts : List Ty) : renameAll φ ts = ts.map (rename φ) := by
  induction ts with
  | nil => rfl
  | cons t ts ih => simp [renameAll, ih]

mutual

/-- The points of a renamed type, in the same order. -/
theorem points_rename : ∀ t : Ty, (t.rename φ).points = t.points.map φ.point
  | .point p => rfl
  | .con tag children emit => by
    rw [rename, points, points, pointsOfAll_renameAll children]

theorem pointsOfAll_renameAll :
    ∀ ts : List Ty, pointsOfAll (renameAll φ ts) = (pointsOfAll ts).map φ.point
  | [] => rfl
  | t :: ts => by
    rw [renameAll, pointsOfAll, pointsOfAll, points_rename t, pointsOfAll_renameAll ts,
      List.map_append]

end

mutual

/-- Types are the same before if and only if they are the same afterwards: points are
permuted, and templates do not count. -/
theorem same_rename : ∀ t t' : Ty, (t.rename φ).same (t'.rename φ) = t.same t'
  | .point p, .point q => by simp [rename, same]
  | .point p, .con .. => by simp [rename, same]
  | .con .., .point q => by simp [rename, same]
  | .con tag children _, .con tag' children' _ => by
    simp [rename, same, sameAll_renameAll children children']

theorem sameAll_renameAll :
    ∀ ts ts' : List Ty, sameAll (renameAll φ ts) (renameAll φ ts') = sameAll ts ts'
  | [], [] => rfl
  | [], _ :: _ => rfl
  | _ :: _, [] => rfl
  | t :: ts, t' :: ts' => by
    simp [renameAll, sameAll, same_rename t t', sameAll_renameAll ts ts']

end

/-- Whether a type is finished is not a matter of names. -/
@[simp]
theorem mentionsPoint_rename (t : Ty) : (t.rename φ).mentionsPoint = t.mentionsPoint := by
  simp [mentionsPoint, points_rename]

end Ty

/-- A substitution with its types renamed; its parameters stay. -/
def Substitution.rename (φ : Renaming) (s : Substitution) : Substitution :=
  s.mapTypes (Ty.rename φ)

-- ---------------------------------------------------------------------------
-- Classes
-- ---------------------------------------------------------------------------

namespace UnionFind

/-- A forest with its points renamed. -/
def rename (ρ : Equiv.Perm Point) (u : UnionFind) : UnionFind :=
  ⟨u.parents.rename ρ ρ⟩

variable {ρ : Equiv.Perm Point}

/-- A climb from a renamed point passes the renamed points. -/
theorem climb_rename (parents : PointMap Point) (fuel : Nat) (p : Point) :
    climb (parents.rename ρ ρ) fuel (ρ p) = ρ (climb parents fuel p) := by
  induction fuel generalizing p with
  | zero => rfl
  | succ fuel ih =>
    rw [climb, climb, PointMap.getElem?_rename]
    cases parents[p]? with
    | none => rfl
    | some q =>
      simp only [Option.map_some, ρ.injective.eq_iff, ih]
      split
      · rfl
      · rfl

/-- The representative of a renamed point. -/
@[simp]
theorem representative_rename (u : UnionFind) (p : Point) :
    (u.rename ρ).representative (ρ p) = ρ (u.representative p) := by
  rw [representative, representative, rename, PointMap.size_rename, climb_rename]

/-- Looking up a renamed point records the renamed point. -/
theorem find_rename (u : UnionFind) (p : Point) :
    (u.rename ρ).find (ρ p) = (ρ (u.find p).1, (u.find p).2.rename ρ) := by
  have hContains : (u.rename ρ).contains (ρ p) = u.contains p :=
    PointMap.contains_rename u.parents p
  unfold find
  rw [hContains, representative_rename]
  split
  · rfl
  · simp only [rename, PointMap.rename_insert]

/-- Renamed classes are joined into the renamed class. -/
theorem union_rename (u : UnionFind) (a b : Point) :
    ((u.rename ρ).union (ρ a) (ρ b)).2 = (u.union a b).2.rename ρ := by
  simp only [union, find_rename]
  simp only [rename, PointMap.rename_insert]

end UnionFind

-- ---------------------------------------------------------------------------
-- States
-- ---------------------------------------------------------------------------

/-- A note about renamed points. -/
def Note.rename (φ : Renaming) : Note → Note
  | .conflict left right => .conflict left right
  | .recursive p => .recursive (φ.point p)

/-- A renamed note tells a conflict if and only if the note did. -/
@[simp]
theorem Note.isConflict_rename (n : Note) : (n.rename φ).isConflict = n.isConflict := by
  cases n <;> rfl

namespace Unification

/-- A state with its points and templates renamed. -/
def rename (φ : Renaming) (u : Unification) : Unification :=
  { u with
    classes := u.classes.rename φ.point
    types := u.types.rename φ.point (·.map (Ty.rename φ))
    deferred := u.deferred.map (Substitution.rename φ)
    journal := u.journal.map (Note.rename φ) }

variable {u : Unification}

theorem note_rename (u : Unification) (n : Note) :
    (u.rename φ).note (n.rename φ) = (u.note n).rename φ := by
  simp [note, rename]

theorem defer_rename (u : Unification) (s : Substitution) :
    (u.rename φ).defer (s.rename φ) = ((u.defer s).1, (u.defer s).2.rename φ) := by
  simp [defer, rename]

@[simp]
theorem rename_representative (u : Unification) (p : Point) :
    (u.rename φ).representative (φ.point p) = φ.point (u.representative p) :=
  UnionFind.representative_rename u.classes p

theorem find_rename (u : Unification) (p : Point) :
    (u.rename φ).find (φ.point p) = (φ.point (u.find p).1, (u.find p).2.rename φ) := by
  unfold find
  rw [show (u.rename φ).classes = u.classes.rename φ.point from rfl, UnionFind.find_rename]
  rfl

/-- The types of a renamed class. -/
@[simp]
theorem typesAt_rename (u : Unification) (p : Point) :
    (u.rename φ).typesAt (φ.point p) = (u.typesAt p).map (Ty.rename φ) := by
  simp only [typesAt, rename, PointMap.getElem?_rename]
  cases u.types[p]? with
  | none => rfl
  | some ts => rfl

/-- What a renamed type is known to be. -/
theorem resolve_rename (u : Unification) (t : Ty) :
    (u.rename φ).resolve (t.rename φ) = ((u.resolve t).1.rename φ, (u.resolve t).2.rename φ) := by
  cases t with
  | con => rfl
  | point p =>
    simp only [resolve, Ty.rename, find_rename, typesAt_rename, List.head?_map]
    cases ((u.find p).2.typesAt (u.find p).1).head? with
    | none => rfl
    | some t => rfl

/-- Whether a class is open is not a matter of names. -/
theorem isOpen_rename (u : Unification) (p : Point) :
    (u.rename φ).isOpen (φ.point p) = ((u.isOpen p).1, (u.isOpen p).2.rename φ) := by
  have hResolve := resolve_rename (φ := φ) u (.point p)
  simp only [Ty.rename] at hResolve
  simp only [isOpen, hResolve]
  rcases u.resolve (.point p) with ⟨_ | _, v⟩
  · rfl
  · rfl

-- ---------------------------------------------------------------------------
-- The occurs check
-- ---------------------------------------------------------------------------

/-- A class mentions another if and only if it did before. -/
theorem links_rename {r r' : Point} :
    (u.rename φ).Links (φ.point r) (φ.point r') ↔ u.Links r r' := by
  have hPoints : (u.rename φ).pointsAt (φ.point r) = (u.pointsAt r).map φ.point := by
    simp only [pointsAt, typesAt_rename, List.flatMap_map, List.map_flatMap, Ty.points_rename]
  simp only [Links, hPoints, List.mem_map]
  constructor
  · rintro ⟨_, ⟨p, hp, rfl⟩, hRoot⟩
    rw [rename_representative] at hRoot
    exact ⟨p, hp, φ.point.injective hRoot⟩
  · rintro ⟨p, hp, rfl⟩
    exact ⟨φ.point p, ⟨p, hp, rfl⟩, rename_representative u p⟩

/-- Hence the paths from class to class are the same. -/
theorem reaches_rename {r r' : Point} :
    (u.rename φ).Reaches (φ.point r) (φ.point r') ↔ u.Reaches r r' := by
  constructor
  · intro h
    -- the path is longer at its end, which is an image only at the very end
    generalize hEnd : φ.point r' = x at h
    induction h generalizing r' with
    | refl =>
      rw [φ.point.injective hEnd]
    | @tail y x _ hLink ih =>
      obtain ⟨y, rfl⟩ := φ.point.surjective y
      rw [← hEnd, links_rename] at hLink
      exact (ih rfl).tail hLink
  · intro h
    induction h with
    | refl => exact .refl
    | tail _ hLink ih => exact ih.tail (links_rename.mpr hLink)

/-- **The occurs check gives the same answer.** It is a search in tables, which are gone
through in another order; but the answer is whether there is a path. -/
theorem occurs_rename (u : Unification) (target : Point) (t : Ty) :
    (u.rename φ).occurs (φ.point target) (t.rename φ) = u.occurs target t := by
  rw [Bool.eq_iff_iff, occurs_iff, occurs_iff]
  simp only [Ty.points_rename, List.mem_map, exists_exists_and_eq_and, rename_representative,
    reaches_rename]

-- ---------------------------------------------------------------------------
-- Unification
-- ---------------------------------------------------------------------------

/-- A type is dropped, known or added as it was before. -/
theorem record_rename (u : Unification) (p : Point) (t : Ty) :
    (u.rename φ).record (φ.point p) (t.rename φ) = (u.record p t).rename φ := by
  -- whether the class has the type already is not a matter of names
  have hKnown (v : Unification) (r : Point) :
      ((v.typesAt r).map (Ty.rename φ)).any (·.same (t.rename φ)) =
        (v.typesAt r).any (·.same t) := by
    simp only [List.any_map, Function.comp_def, Ty.same_rename]
  simp only [record, find_rename, occurs_rename, typesAt_rename, hKnown]
  split
  · exact note_rename _ (.recursive _)
  · split
    · rfl
    · simp [rename, PointMap.rename_insert]

theorem recordBoth_rename (u : Unification) (left right side : Ty) :
    (u.rename φ).recordBoth (left.rename φ) (right.rename φ) (side.rename φ) =
      (u.recordBoth left right side).rename φ := by
  cases side with
  | point p => simp only [recordBoth, Ty.rename, record_rename]
  | con => rfl

/-- Merging and renaming commute. -/
theorem merge_rename (u : Unification) (a b : Point) :
    (u.rename φ).merge (φ.point a) (φ.point b) = (u.merge a b).rename φ := by
  have hTypes : (u.rename φ).types[φ.point (u.representative a)]? =
      u.types[u.representative a]?.map (·.map (Ty.rename φ)) :=
    PointMap.getElem?_rename u.types _
  simp only [merge, rename_representative, hTypes]
  cases u.types[u.representative a]? with
  | none => simp [rename, UnionFind.union_rename, PointMap.rename_erase]
  | some ts =>
    simp [rename, UnionFind.union_rename, PointMap.rename_erase, PointMap.rename_insert]

/-- The result of a unification, renamed. -/
def renameResult (φ : Renaming) (result : Bool × Unification) : Bool × Unification :=
  (result.1, result.2.rename φ)

/-- What `f` does to renamed types and states is what it does, renamed. -/
def Unifier.Equivariant (φ : Renaming) (f : Unifier) : Prop :=
  ∀ left right u,
    f (left.rename φ) (right.rename φ) (u.rename φ) = (f left right u).map (renameResult φ)

/-- Pair after pair. -/
theorem unifyEach_rename {f : Unifier} (hf : f.Equivariant φ) (pairs : List (Ty × Ty))
    (u : Unification) :
    unifyEach f (pairs.map fun (left, right) => (left.rename φ, right.rename φ)) (u.rename φ) =
      (unifyEach f pairs u).map (renameResult φ) := by
  induction pairs generalizing u with
  | nil => rfl
  | cons pair rest ih =>
    obtain ⟨left, right⟩ := pair
    simp only [List.map_cons, unifyEach, hf left right u, Option.bind_eq_bind]
    cases f left right u with
    | none => rfl
    | some first =>
      -- the second pair meets the state that the first has left, renamed
      have hRest : unifyEach f _ (renameResult φ first).2 = _ := ih first.2
      simp only [Option.map_some, Option.bind_some, hRest]
      cases unifyEach f rest first.2 with
      | none => rfl
      | some later => rfl

/-- Two renamed points. -/
theorem unifyPoints_rename {f : Unifier} (hf : f.Equivariant φ) (a b : Point) (u : Unification) :
    unifyPoints f (φ.point a) (φ.point b) (u.rename φ) =
      (unifyPoints f a b u).map (renameResult φ) := by
  simp only [unifyPoints, find_rename, φ.point.injective.eq_iff, typesAt_rename, merge_rename]
  split
  · rfl
  · rw [← unifyEach_rename hf, List.map_map, List.map_map]
    rfl

/-- Two constructed types, whose tags are not renamed. -/
theorem unifyParts_rename {f : Unifier} (hf : f.Equivariant φ) (tag tag' : Tag)
    (children children' : List Ty) (u : Unification) :
    unifyParts f tag (Ty.renameAll φ children) tag' (Ty.renameAll φ children') (u.rename φ) =
      (unifyParts f tag children tag' children' u).map (renameResult φ) := by
  simp only [unifyParts, Ty.renameAll_eq, List.length_map]
  split
  · rw [← unifyEach_rename hf, List.zip_map]
    rfl
  · rw [show Note.conflict tag tag' = (Note.conflict tag tag').rename φ from rfl, note_rename]
    rfl

/-- What two renamed types are known to be. -/
theorem unifyKnown_rename {f : Unifier} (hf : f.Equivariant φ) (left right known known' : Ty)
    (u : Unification) :
    unifyKnown f (left.rename φ) (right.rename φ) (known.rename φ) (known'.rename φ)
        (u.rename φ) =
      (unifyKnown f left right known known' u).map (renameResult φ) := by
  match known, known' with
  | .point p, t =>
    simp only [unifyKnown, Ty.rename, record_rename]
    rfl
  | .con tag children emit, .point p =>
    simp only [unifyKnown, Ty.rename]
    rw [← Ty.rename, record_rename]
    rfl
  -- a conflict below is recorded on both sides
  | .con tag children emit, .con tag' children' emit' =>
    simp only [unifyKnown, Ty.rename, unifyParts_rename hf, Option.bind_eq_bind]
    rw [← Ty.rename, ← Ty.rename]
    cases unifyParts f tag children tag' children' u with
    | none => rfl
    | some parts =>
      obtain ⟨conflict, v⟩ := parts
      cases conflict with
      | false => rfl
      | true =>
        simp only [Option.map_some, Option.bind_some, renameResult, recordBoth_rename, if_true]

/-- One level of unification, if the levels below commute with renaming. -/
theorem unifyStep_rename {f : Unifier} (hf : f.Equivariant φ) :
    Unifier.Equivariant φ (unifyStep f) := by
  intro left right u
  -- three of the four cases below look up both sides first
  have hKnown :
      unifyKnown f (left.rename φ) (right.rename φ) ((u.rename φ).resolve (left.rename φ)).1
          (((u.rename φ).resolve (left.rename φ)).2.resolve (right.rename φ)).1
          (((u.rename φ).resolve (left.rename φ)).2.resolve (right.rename φ)).2 =
        (unifyKnown f left right (u.resolve left).1 ((u.resolve left).2.resolve right).1
          ((u.resolve left).2.resolve right).2).map (renameResult φ) := by
    simp only [resolve_rename, unifyKnown_rename hf]
  unfold unifyStep
  rw [Ty.same_rename]
  split
  · rfl
  · match left, right with
    | .point a, .point b => exact unifyPoints_rename hf a b u
    | .point a, .con tag children emit => exact hKnown
    | .con tag children emit, .point b => exact hKnown
    | .con tag children emit, .con tag' children' emit' => exact hKnown

/-- All levels, by induction on the depth. -/
theorem unifyWithin_rename (fuel : Nat) : Unifier.Equivariant φ (unifyWithin fuel) := by
  induction fuel with
  | zero =>
    intro left right u
    rfl
  | succ fuel ih => exact unifyStep_rename ih

/-- **Unification commutes with renaming.** -/
theorem unify_rename (u : Unification) (fuel : Nat) (left right : Ty) :
    (u.rename φ).unify fuel (left.rename φ) (right.rename φ) =
      (u.unify fuel left right).map fun (notes, v) => (notes.map (Note.rename φ), v.rename φ) := by
  simp only [unify, unifyWithin_rename fuel left right u, Option.bind_eq_bind]
  cases unifyWithin fuel left right u with
  | none => rfl
  | some result => simp [renameResult, takeNotes, rename]

end Unification

end TraitInference
