import TraitInference.Proofs.Locality

/-!
# TraitInference — the footprint of a unification

From the two types of a call one gets to the classes of their points, from a class to the
classes of all points in its types, and so on. These classes are the **footprint** of the
call (`Footprint`), the same that the occurs check looks through (`footprint_iff_occurs`).
The points of these classes are a closed set, so whatever the call does, it does it there
(`unifyWithin_local`). Every other class keeps its representative, its types and its
recorded points, whether the call finds conflicts, drops types or neither
(`unify_outside_footprint`).
-/

namespace TraitInference.Unification

variable {u u' : Unification} {left right : Ty}

/-- The classes that unifying two types may change: the least set that holds the class of
every point of the types and, with a class, the class of every point in its types. -/
inductive Footprint (u : Unification) (left right : Ty) : Point → Prop
  | left {p : Point} (hp : p ∈ left.points) : Footprint u left right (u.representative p)
  | right {p : Point} (hp : p ∈ right.points) : Footprint u left right (u.representative p)
  | type {r p : Point} (hr : Footprint u left right r) (hp : p ∈ u.pointsAt r) :
      Footprint u left right (u.representative p)

/-- With a class the footprint holds all that can be reached from it. -/
theorem Footprint.reaches {r r' : Point} (h : u.Footprint left right r) (hReach : u.Reaches r r') :
    u.Footprint left right r' := by
  induction hReach with
  | refl => exact h
  | tail _ hLink ih =>
    obtain ⟨p, hp, rfl⟩ := hLink
    exact .type ih hp

/-- The footprint is what the occurs check finds in the two types. -/
theorem footprint_iff_occurs {r : Point} :
    u.Footprint left right r ↔ u.occurs r left = true ∨ u.occurs r right = true := by
  rw [occurs_iff, occurs_iff]
  constructor
  · intro h
    induction h with
    | left hp => exact .inl ⟨_, hp, .refl⟩
    | right hp => exact .inr ⟨_, hp, .refl⟩
    | type _ hq ih =>
      refine ih.imp ?_ ?_
      · rintro ⟨p, hp, hReach⟩
        exact ⟨p, hp, hReach.tail ⟨_, hq, rfl⟩⟩
      · rintro ⟨p, hp, hReach⟩
        exact ⟨p, hp, hReach.tail ⟨_, hq, rfl⟩⟩
  · rintro (⟨p, hp, hReach⟩ | ⟨p, hp, hReach⟩)
    · exact (Footprint.left hp).reaches hReach
    · exact (Footprint.right hp).reaches hReach

instance (r : Point) : Decidable (u.Footprint left right r) :=
  decidable_of_iff _ footprint_iff_occurs.symm

/-- Neither parents nor types lead out of the classes of a footprint. -/
theorem closed_footprint (h : u.WellFormed) (left right : Ty) :
    Closed (fun p => u.Footprint left right (u.representative p)) u where
  parents p q hParent hp := by
    have hSame : u.representative q = u.representative p :=
      UnionFind.representative_parent h.forest hParent
    rw [hSame]
    exact hp
  types p ts hTypes hp t ht q hq := by
    rw [h.root p ts hTypes] at hp
    exact .type hp (mem_pointsAt.mpr ⟨t, mem_typesAt.mpr ⟨ts, hTypes, ht⟩, hq⟩)

/-- If only points inside a set of classes were changed, every class outside of it is as
it was. -/
theorem AgreeOn.outside {C : Point → Prop} (h : AgreeOn (fun p => ¬ C (u.representative p)) u u')
    (hForest : u.classes.IsForest) {p : Point} (hp : ¬ C (u.representative p)) :
    u'.representative p = u.representative p ∧ u'.typesOf p = u.typesOf p ∧
      u'.classes.contains p = u.classes.contains p := by
  -- a parent is of the same class, so the way up stays outside
  have hParents : ∀ q r : Point, u.classes.parents[q]? = some r → ¬ C (u.representative q) →
      ¬ C (u.representative r) := by
    intro q r hParent hq
    have hSame : u.representative r = u.representative q :=
      UnionFind.representative_parent hForest hParent
    rw [hSame]
    exact hq
  obtain ⟨n, hClimb⟩ := hForest.climbs p
  obtain ⟨hClimb', hRoot⟩ := climbs_of_agree hParents h.parents hClimb hp
  have hSame : u'.representative p = u.representative p := UnionFind.representative_eq hClimb'
  refine ⟨hSame, ?_, ?_⟩
  · show u'.typesAt (u'.representative p) = u.typesAt (u.representative p)
    rw [hSame, typesAt, typesAt, h.types (u.representative p) hRoot]
  · rw [UnionFind.contains_eq_isSome, UnionFind.contains_eq_isSome, h.parents p hp]

/--
**Unification is local.** For every call from a reachable state that ends, whatever it
reports: a point whose class is not in the footprint of the two types has the same
representative and the same types after the call as before, and it is recorded after the
call exactly if it was before.
-/
theorem unify_outside_footprint (hu : u.Reachable) {fuel : Nat} {notes : List Note}
    (hRun : u.unify fuel left right = some (notes, u')) {p : Point}
    (hp : ¬ u.Footprint left right (u.representative p)) :
    u'.representative p = u.representative p ∧ u'.typesOf p = u.typesOf p ∧
      u'.classes.contains p = u.classes.contains p := by
  have hFormed := hu.wellFormed
  -- the state next to itself: what the call needs is inside, so it moves nothing outside
  have hAlone : Parallel (fun p => u.Footprint left right (u.representative p)) u u :=
    ⟨closed_footprint hFormed left right, .refl u, hFormed, hFormed⟩
  obtain ⟨_, _, _, hMoved⟩ := hAlone.unify (fun _ => .left) (fun _ => .right) hRun
  exact hMoved.outside.outside hFormed.forest hp

/-- Points 7 and 8 are numbers and one class. A call that drops a recursive type for point
1 and finds a conflict at point 0 leaves them alone. -/
theorem unify_outside_footprint_numbers :
    ∃ (u u' : Unification) (left right : Ty) (notes : List Note), u.Reachable ∧
      u.unify 4 left right = some (notes, u') ∧
      notes = [.recursive ⟨1⟩, .conflict (.named ⟨4⟩) (.named ⟨5⟩)] ∧
      ¬ u.Footprint left right (u.representative ⟨7⟩) ∧
      u.representative ⟨7⟩ = ⟨8⟩ ∧ u'.representative ⟨7⟩ = u.representative ⟨7⟩ ∧
      u.typesOf ⟨7⟩ ≠ [] ∧ u'.typesOf ⟨7⟩ = u.typesOf ⟨7⟩ := by
  let number : Ty := .con (.named ⟨5⟩) [] none
  let list : Ty := .con (.named ⟨4⟩) [.point ⟨1⟩] none
  let left : Ty := .con .tuple [.point ⟨0⟩, .point ⟨1⟩, .point ⟨0⟩] none
  let right : Ty := .con .tuple [list, list, number] none
  have hCheck : (({} : Unification).unify 3 (.con .tuple [.point ⟨7⟩, .point ⟨8⟩] none)
      (.con .tuple [number, .point ⟨7⟩] none)).any (fun x => (x.2.unify 4 left right).any
        fun y => decide (y.1 = [.recursive ⟨1⟩, .conflict (.named ⟨4⟩) (.named ⟨5⟩)] ∧
          ¬ x.2.Footprint left right (x.2.representative ⟨7⟩) ∧
          x.2.representative ⟨7⟩ = ⟨8⟩ ∧ x.2.typesOf ⟨7⟩ ≠ [])) = true := by
    decide +kernel
  obtain ⟨⟨_, u⟩, hFirst, hNext⟩ := (Option.any_eq_true _ _).mp hCheck
  obtain ⟨⟨notes, u'⟩, hRun, hFacts⟩ := (Option.any_eq_true _ _).mp hNext
  obtain ⟨hNotes, hApart, hRoot, hTyped⟩ := of_decide_eq_true hFacts
  have hReachable : u.Reachable := .unify .empty hFirst
  obtain ⟨hSame, hTypes, -⟩ := unify_outside_footprint hReachable hRun hApart
  exact ⟨u, u', left, right, notes, hReachable, hRun, hNotes, hApart, hRoot, hSame, hTyped, hTypes⟩

end TraitInference.Unification
