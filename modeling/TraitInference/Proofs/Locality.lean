import TraitInference.Proofs.NormalForm
import TraitInference.Proofs.Reachability
import TraitInference.Proofs.WellFormed

/-!
# TraitInference — unification is local

A set of points is **closed** in a state if neither parents nor types lead out of it. What
is unified inside a closed set changes nothing outside of it, and is decided by what the
state says about the set: in another state that says the same about it, the same happens
(`unifyWithin_local`). Normal forms are local in the same sense (`Parallel.apply`).

The tables of the two states may differ in size, and so do the bounds on climbs, on the
occurs check and on normal forms that are taken from them; none of these bounds is ever
too small.
-/

namespace TraitInference

/-- All points of the type are in `R`. -/
def Ty.Inside (R : Point → Prop) (t : Ty) : Prop :=
  ∀ p ∈ t.points, R p

theorem Ty.inside_point {R : Point → Prop} {p : Point} : (Ty.point p).Inside R ↔ R p := by
  simp [Inside, points]

/-- A constructed type is inside if its children are. -/
theorem Ty.inside_con {R : Point → Prop} {tag : Tag} {children : List Ty} {emit : Option String} :
    (Ty.con tag children emit).Inside R ↔ ∀ t ∈ children, t.Inside R := by
  simp only [Inside, points, pointsOfAll_eq, List.mem_flatMap]
  constructor
  · intro h t ht p hp
    exact h p ⟨t, ht, hp⟩
  · rintro h p ⟨t, ht, hp⟩
    exact h t ht p hp

namespace Unification

variable {R : Point → Prop} {u v u' v' : Unification}

-- ---------------------------------------------------------------------------
-- Closed sets of points
-- ---------------------------------------------------------------------------

/-- Neither parents nor types lead out of `R`. -/
structure Closed (R : Point → Prop) (u : Unification) : Prop where
  parents : ∀ p q : Point, u.classes.parents[p]? = some q → R p → R q
  types   : ∀ (p : Point) ts, u.types[p]? = some ts → R p → ∀ t ∈ ts, t.Inside R

/-- The two states say the same about the points in `R`. -/
structure AgreeOn (R : Point → Prop) (u v : Unification) : Prop where
  parents : ∀ p, R p → v.classes.parents[p]? = u.classes.parents[p]?
  types   : ∀ p, R p → v.types[p]? = u.types[p]?

theorem AgreeOn.refl (u : Unification) : AgreeOn R u u :=
  ⟨fun _ _ => rfl, fun _ _ => rfl⟩

theorem AgreeOn.trans (h : AgreeOn R u v) (h' : AgreeOn R v v') : AgreeOn R u v' :=
  ⟨fun p hp => (h'.parents p hp).trans (h.parents p hp),
    fun p hp => (h'.types p hp).trans (h.types p hp)⟩

theorem AgreeOn.symm (h : AgreeOn R u v) : AgreeOn R v u :=
  ⟨fun p hp => (h.parents p hp).symm, fun p hp => (h.types p hp).symm⟩

theorem AgreeOn.mono {R' : Point → Prop} (h : AgreeOn R u v) (hSub : ∀ p, R' p → R p) :
    AgreeOn R' u v :=
  ⟨fun p hp => h.parents p (hSub p hp), fun p hp => h.types p (hSub p hp)⟩

/-- What is closed in one state is closed in any that says the same about it. -/
theorem AgreeOn.closed (h : AgreeOn R u v) (hClosed : Closed R u) : Closed R v where
  parents p q hParent hp := hClosed.parents p q (h.parents p hp ▸ hParent) hp
  types p ts hTypes hp := hClosed.types p ts (h.types p hp ▸ hTypes) hp

/-- Two well-formed states that say the same about a closed set of points. -/
structure Parallel (R : Point → Prop) (u v : Unification) : Prop where
  closed : Closed R u
  agree  : AgreeOn R u v
  left   : u.WellFormed
  right  : v.WellFormed

/-- Either state may come first. -/
theorem Parallel.symm (h : Parallel R u v) : Parallel R v u :=
  ⟨h.agree.closed h.closed, h.agree.symm, h.right, h.left⟩

/-- Only classes and types matter. -/
theorem Parallel.congr (h : Parallel R u v) (hLeft : u'.classes = u.classes ∧ u'.types = u.types)
    (hRight : v'.classes = v.classes ∧ v'.types = v.types) : Parallel R u' v' where
  closed := ⟨by rw [hLeft.1]; exact h.closed.parents, by rw [hLeft.2]; exact h.closed.types⟩
  agree := ⟨by rw [hLeft.1, hRight.1]; exact h.agree.parents,
    by rw [hLeft.2, hRight.2]; exact h.agree.types⟩
  left := h.left.congr hLeft.1 hLeft.2
  right := h.right.congr hRight.1 hRight.2

-- ---------------------------------------------------------------------------
-- Looking up
-- ---------------------------------------------------------------------------

/-- A climb that starts in a set out of which no parent leads stays there. -/
theorem climbs_of_agree {parents parents' : PointMap Point}
    (hClosed : ∀ p q : Point, parents[p]? = some q → R p → R q)
    (hAgree : ∀ p, R p → parents'[p]? = parents[p]?) {n : Nat} {p r : Point}
    (h : UnionFind.Climbs parents n p r) (hp : R p) : UnionFind.Climbs parents' n p r ∧ R r := by
  induction h with
  | root hRoot =>
    refine ⟨.root fun q hq => hRoot q ?_, hp⟩
    rw [← hAgree _ hp]
    exact hq
  | up hParent hNe _ ih =>
    obtain ⟨hClimb, hr⟩ := ih (hClosed _ _ hParent hp)
    refine ⟨.up ?_ hNe hClimb, hr⟩
    rw [hAgree _ hp]
    exact hParent

namespace Parallel

/-- A point inside has the same representative in both states. -/
theorem representative (h : Parallel R u v) {p : Point} (hp : R p) :
    v.representative p = u.representative p := by
  obtain ⟨n, hClimb⟩ := h.left.forest.climbs p
  exact UnionFind.representative_eq (climbs_of_agree h.closed.parents h.agree.parents hClimb hp).1

/-- The representative is inside as well. -/
theorem mem_representative (h : Parallel R u v) {p : Point} (hp : R p) :
    R (u.representative p) := by
  obtain ⟨n, hClimb⟩ := h.left.forest.climbs p
  exact (climbs_of_agree h.closed.parents h.agree.parents hClimb hp).2

theorem typesAt (h : Parallel R u v) {r : Point} (hr : R r) : v.typesAt r = u.typesAt r := by
  unfold Unification.typesAt
  rw [h.agree.types r hr]

/-- The types of a class inside are inside. -/
theorem inside_of_mem (h : Parallel R u v) {r : Point} (hr : R r) {t : Ty}
    (ht : t ∈ u.typesAt r) : t.Inside R := by
  obtain ⟨ts, hTypes, hMem⟩ := mem_typesAt.mp ht
  exact h.closed.types r ts hTypes hr t hMem

/-- What can be reached from a closed set is in it, and can be reached in both states. -/
theorem reaches (h : Parallel R u v) {r r' : Point} (hReach : u.Reaches r r') (hr : R r) :
    v.Reaches r r' ∧ R r' := by
  induction hReach with
  | refl => exact ⟨.refl, hr⟩
  | @tail x y _ hLink ih =>
    obtain ⟨hBefore, hx⟩ := ih
    obtain ⟨p, hp, rfl⟩ := hLink
    obtain ⟨t, ht, hpt⟩ := mem_pointsAt.mp hp
    have hpR : R p := h.inside_of_mem hx ht p hpt
    refine ⟨hBefore.tail ⟨p, ?_, h.representative hpR⟩, h.mem_representative hpR⟩
    rw [mem_pointsAt, h.typesAt hx]
    exact ⟨t, ht, hpt⟩

/-- The occurs check finds what it found in the other state, along the same path. -/
theorem occurs_of_occurs (h : Parallel R u v) {target : Point} {t : Ty} (ht : t.Inside R)
    (hOccurs : u.occurs target t = true) : v.occurs target t = true := by
  rw [occurs_iff] at hOccurs ⊢
  obtain ⟨p, hp, hReach⟩ := hOccurs
  refine ⟨p, hp, ?_⟩
  rw [h.representative (ht p hp)]
  exact (h.reaches hReach (h.mem_representative (ht p hp))).1

/-- **The occurs check is local**, although it is bounded by the size of a table. -/
theorem occurs (h : Parallel R u v) (target : Point) {t : Ty} (ht : t.Inside R) :
    v.occurs target t = u.occurs target t := by
  rw [Bool.eq_iff_iff]
  exact ⟨h.symm.occurs_of_occurs ht, h.occurs_of_occurs ht⟩

end Parallel

-- ---------------------------------------------------------------------------
-- Recording points and types
-- ---------------------------------------------------------------------------

/-- The state `u` has become `u'`, of which `v'` is a parallel, and nothing outside of `R`
was touched. -/
structure Moved (R : Point → Prop) (u u' v' : Unification) : Prop where
  outside  : AgreeOn (¬ R ·) u u'
  parallel : Parallel R u' v'

theorem Parallel.moved (h : Parallel R u v) : Moved R u u v :=
  ⟨.refl u, h⟩

/-- What is done later is done inside as well. -/
theorem Moved.trans {u'' v'' : Unification} (h : Moved R u u' v') (h' : Moved R u' u'' v'') :
    Moved R u u'' v'' :=
  ⟨h.outside.trans h'.outside, h'.parallel⟩

theorem Moved.note (h : Moved R u u' v') (n n' : Note) : Moved R u (u'.note n) (v'.note n') :=
  ⟨⟨h.outside.parents, h.outside.types⟩, h.parallel.congr ⟨rfl, rfl⟩ ⟨rfl, rfl⟩⟩

/-- Looking up a point inside records it in both states. -/
theorem Parallel.find (h : Parallel R u v) {p : Point} (hp : R p) :
    Moved R u (u.find p).2 (v.find p).2 where
  outside := by
    refine ⟨fun q hq => ?_, fun _ _ => rfl⟩
    rw [find_classes, UnionFind.getElem?_find, if_neg]
    rintro ⟨rfl, -⟩
    exact hq hp
  parallel := {
    closed := by
      refine ⟨fun q r hParent hq => ?_, h.closed.types⟩
      rw [find_classes, UnionFind.getElem?_find] at hParent
      split at hParent
      · exact Option.some.inj hParent ▸ hp
      · exact h.closed.parents q r hParent hq
    agree := by
      refine ⟨fun q hq => ?_, h.agree.types⟩
      rw [find_classes, find_classes, UnionFind.getElem?_find, UnionFind.getElem?_find,
        UnionFind.contains_eq_isSome, UnionFind.contains_eq_isSome, h.agree.parents p hp,
        h.agree.parents q hq]
    left := h.left.find p
    right := h.right.find p }

/-- One more type for a class inside. -/
theorem Parallel.addType (h : Parallel R u v) {r : Point} (hr : R r) {t : Ty} (ht : t.Inside R)
    (hLeft : (u.addType r t).WellFormed) (hRight : (v.addType r t).WellFormed) :
    Moved R u (u.addType r t) (v.addType r t) where
  outside := by
    refine ⟨fun _ _ => rfl, fun q hq => ?_⟩
    rw [getElem?_addType, if_neg]
    rintro rfl
    exact hq hr
  parallel := {
    closed := by
      refine ⟨h.closed.parents, fun q ts hFound hq x hx => ?_⟩
      rw [getElem?_addType] at hFound
      split at hFound
      · obtain rfl := Option.some.inj hFound
        rcases List.mem_append.mp hx with hOld | hNew
        · exact h.inside_of_mem hr hOld
        · exact List.mem_singleton.mp hNew ▸ ht
      · exact h.closed.types q ts hFound hq x hx
    agree := by
      refine ⟨h.agree.parents, fun q hq => ?_⟩
      rw [getElem?_addType, getElem?_addType, h.typesAt hr, h.agree.types q hq]
    left := hLeft
    right := hRight }

/-- A type is dropped, known or added in both states. -/
theorem Parallel.record (h : Parallel R u v) {p : Point} (hp : R p) {t : Ty} (ht : t.Inside R)
    (hCon : ∀ q, t ≠ .point q) : Moved R u (u.record p t) (v.record p t) := by
  have hFind := h.find hp
  have hRoot := h.mem_representative hp
  have hLeft := h.left.record p hCon
  have hRight := h.right.record p hCon
  unfold Unification.record at hLeft hRight ⊢
  simp only [find_fst, find_typesAt, h.representative hp, hFind.parallel.occurs _ ht,
    h.typesAt hRoot] at hLeft hRight ⊢
  split
  · exact hFind.note _ _
  · split
    · exact hFind
    · rename_i hOccurs hNew
      rw [if_neg hOccurs, if_neg hNew] at hLeft hRight
      -- the class is the same in both states, and so is the list to which the type is added
      have hAdd := hFind.parallel.addType hRoot ht hLeft
      rw [Unification.addType, Unification.addType, find_typesAt, find_typesAt,
        h.typesAt hRoot] at hAdd
      exact hFind.trans (hAdd hRight)

theorem Parallel.recordBoth (h : Parallel R u v) {left right side : Ty} (hLeft : left.Inside R)
    (hRight : right.Inside R) (hConLeft : ∀ q, left ≠ .point q) (hConRight : ∀ q, right ≠ .point q)
    (hSide : side.Inside R) :
    Moved R u (u.recordBoth left right side) (v.recordBoth left right side) := by
  cases side with
  | con => exact h.moved
  | point p =>
    have hp := Ty.inside_point.mp hSide
    have hFirst := h.record hp hLeft hConLeft
    exact hFirst.trans (hFirst.parallel.record hp hRight hConRight)

/-- Both states know the same of a type. -/
theorem Parallel.resolve (h : Parallel R u v) {t : Ty} (ht : t.Inside R) :
    (v.resolve t).1 = (u.resolve t).1 ∧ (u.resolve t).1.Inside R ∧
      Moved R u (u.resolve t).2 (v.resolve t).2 := by
  cases t with
  | con => exact ⟨rfl, ht, h.moved⟩
  | point p =>
    have hp := Ty.inside_point.mp ht
    have hRoot := h.mem_representative hp
    simp only [Unification.resolve, find_fst, find_typesAt, h.representative hp, h.typesAt hRoot]
    refine ⟨trivial, ?_, h.find hp⟩
    cases hHead : (u.typesAt (u.representative p)).head? with
    | none => exact Ty.inside_point.mpr hRoot
    | some t => exact h.inside_of_mem hRoot (List.mem_of_head? hHead)

/-- A class inside is open in both states or in neither. -/
theorem Parallel.isOpen (h : Parallel R u v) {p : Point} (hp : R p) :
    (v.isOpen p).1 = (u.isOpen p).1 ∧ Moved R u (u.isOpen p).2 (v.isOpen p).2 := by
  obtain ⟨hKnown, -, hMoved⟩ := h.resolve (Ty.inside_point.mpr hp)
  unfold Unification.isOpen
  rcases hLeft : u.resolve (.point p) with ⟨_ | _, u'⟩ <;>
    rcases hRight : v.resolve (.point p) with ⟨_ | _, v'⟩ <;>
    rw [hLeft, hRight] at hKnown hMoved <;> cases hKnown <;> exact ⟨rfl, hMoved⟩

-- ---------------------------------------------------------------------------
-- Merging
-- ---------------------------------------------------------------------------

/-- The parents after a merge of two recorded points. -/
theorem getElem?_parents_merge (h : u.WellFormed) (a b p : Point) :
    (u.merge a b).classes.parents[p]? =
      if p = a ∨ p = u.representative a ∨ p = u.representative b then some a
      else ((u.find a).2.find b).2.classes.parents[p]? := by
  show (u.classes.union a b).2.parents[p]? = _
  rw [UnionFind.union_eq, UnionFind.representative_find h.forest, UnionFind.getElem?_reroot]
  rfl

/-- **Merging two classes inside touches nothing outside.** -/
theorem Parallel.merge (h : Parallel R u v) {a b : Point} (ha : R a) (hb : R b)
    (hNe : u.representative a ≠ u.representative b) :
    Moved R u (u.merge a b) (v.merge a b) := by
  have hRootA := h.mem_representative ha
  have hRootB := h.mem_representative hb
  have hNe' : v.representative a ≠ v.representative b := by
    rw [h.representative ha, h.representative hb]
    exact hNe
  have hFind := (h.find ha).trans ((h.find ha).parallel.find hb)
  -- the points that get a new parent or new types are inside
  have hNew : ∀ p, p = a ∨ p = u.representative a ∨ p = u.representative b → R p := by
    rintro p (rfl | rfl | rfl)
    · exact ha
    · exact hRootA
    · exact hRootB
  -- nothing changes outside; the set stays closed; the states still agree on it
  refine ⟨⟨fun p hp => ?_, fun p hp => ?_⟩, ⟨⟨fun p q hParent hp => ?_, fun p ts hTypes hp => ?_⟩,
    ⟨fun p hp => ?_, fun p hp => ?_⟩, h.left.merge hNe, h.right.merge hNe'⟩⟩
  · rw [getElem?_parents_merge h.left, if_neg fun hCases => hp (hNew p hCases)]
    exact hFind.outside.parents p hp
  · rw [getElem?_merge h.left hNe, if_neg fun hEq => hp (hNew p (.inl hEq)),
      if_neg fun hCases => hp (hNew p (.inr hCases))]
  · rw [getElem?_parents_merge h.left] at hParent
    split at hParent
    · exact Option.some.inj hParent ▸ ha
    · exact hFind.parallel.closed.parents p q hParent hp
  · rw [getElem?_merge h.left hNe] at hTypes
    split at hTypes
    · exact h.closed.types _ ts hTypes hRootA
    · split at hTypes
      · cases hTypes
      · exact h.closed.types p ts hTypes hp
  · rw [getElem?_parents_merge h.left, getElem?_parents_merge h.right, h.representative ha,
      h.representative hb, hFind.parallel.agree.parents p hp]
  · rw [getElem?_merge h.left hNe, getElem?_merge h.right hNe', h.representative ha,
      h.representative hb, h.agree.types _ hRootA, h.agree.types p hp]

-- ---------------------------------------------------------------------------
-- Unification
-- ---------------------------------------------------------------------------

/-- If `x` is a result of moving on from `u` inside `R`, then `y` is a parallel one. -/
def Follows (R : Point → Prop) (u : Unification) (x y : Option (Bool × Unification)) : Prop :=
  ∀ conflict u', x = some (conflict, u') →
    ∃ v', y = some (conflict, v') ∧ Moved R u u' v'

/-- Results that are parallel follow each other. -/
theorem follows_some {conflict : Bool} (h : Moved R u u' v') :
    Follows R u (some (conflict, u')) (some (conflict, v')) := by
  rintro _ _ ⟨⟩
  exact ⟨v', rfl, h⟩

/-- What was done before may be counted in. -/
theorem Moved.follows {x y : Option (Bool × Unification)} (h : Moved R u u' v')
    (hNext : Follows R u' x y) : Follows R u x y := by
  intro conflict u'' hEq
  obtain ⟨v'', hEq', hMoved⟩ := hNext conflict u'' hEq
  exact ⟨v'', hEq', h.trans hMoved⟩

/-- What `f` does inside a closed set is decided there and touches nothing else. -/
def Unifier.Local (R : Point → Prop) (f : Unifier) : Prop :=
  ∀ left right u v, left.Inside R → right.Inside R → Parallel R u v →
    Follows R u (f left right u) (f left right v)

variable {f : Unifier}

/-- Pair after pair: each finds parallel states. -/
theorem unifyEach_local (hf : f.Local R) (pairs : List (Ty × Ty))
    (hPairs : ∀ x ∈ pairs, x.1.Inside R ∧ x.2.Inside R) (h : Parallel R u v) :
    Follows R u (unifyEach f pairs u) (unifyEach f pairs v) := by
  induction pairs generalizing u v with
  | nil => exact follows_some h.moved
  | cons pair rest ih =>
    obtain ⟨left, right⟩ := pair
    rw [List.forall_mem_cons] at hPairs
    intro conflict u'' hRun
    obtain ⟨c, u₁, c', hFirst, hLater, hConflict⟩ := unifyEach_cons_iff.mp hRun
    obtain ⟨v₁, hFirst', hMoved⟩ := hf left right u v hPairs.1.1 hPairs.1.2 h c u₁ hFirst
    obtain ⟨v₂, hLater', hMoved'⟩ := ih hPairs.2 hMoved.parallel c' u'' hLater
    exact ⟨v₂, unifyEach_cons_iff.mpr ⟨c, v₁, c', hFirst', hLater', hConflict⟩,
      hMoved.trans hMoved'⟩

/-- Two points inside, whose classes are merged inside; the types of the absorbed class are
inside as well. -/
theorem unifyPoints_local (hf : f.Local R) {a b : Point} (ha : R a) (hb : R b)
    (h : Parallel R u v) : Follows R u (unifyPoints f a b u) (unifyPoints f a b v) := by
  have hA := h.find ha
  have hB := hA.trans (hA.parallel.find hb)
  have hRootB := hA.parallel.mem_representative hb
  unfold unifyPoints
  simp only [find_fst, find_typesAt, h.representative ha, hA.parallel.representative hb,
    h.typesAt hRootB]
  split
  · exact follows_some hB
  · rename_i hNe
    -- looking both points up has not joined their classes
    have hNe' : ((u.find a).2.find b).2.representative a ≠
        ((u.find a).2.find b).2.representative b := by
      rw [find_representative hA.parallel.left.forest, find_representative hA.parallel.left.forest,
        find_representative h.left.forest a a]
      exact hNe
    have hMerge := hB.trans (hB.parallel.merge ha hb hNe')
    refine hMerge.follows (unifyEach_local hf _ ?_ hMerge.parallel)
    intro x hx
    obtain ⟨t, ht, rfl⟩ := List.mem_map.mp hx
    exact ⟨Ty.inside_point.mpr ha, h.inside_of_mem hRootB ht⟩

/-- Two constructed types, whose children are inside. -/
theorem unifyParts_local (hf : f.Local R) {tag tag' : Tag} {children children' : List Ty}
    (hLeft : ∀ t ∈ children, t.Inside R) (hRight : ∀ t ∈ children', t.Inside R)
    (h : Parallel R u v) :
    Follows R u (unifyParts f tag children tag' children' u)
      (unifyParts f tag children tag' children' v) := by
  unfold unifyParts
  split
  · refine unifyEach_local hf _ ?_ h
    rintro ⟨t, t'⟩ hx
    obtain ⟨ht, ht'⟩ := List.of_mem_zip hx
    exact ⟨hLeft t ht, hRight t' ht'⟩
  · exact follows_some (h.moved.note _ _)

/-- What two types inside are known to be. -/
theorem unifyKnown_local (hf : f.Local R) {left right known known' : Ty} (hLeft : left.Inside R)
    (hRight : right.Inside R) (hKnown : known.Inside R) (hKnown' : known'.Inside R)
    (hCon : (∀ q, known ≠ .point q) ∨ ∀ q, known' ≠ .point q) (h : Parallel R u v) :
    Follows R u (unifyKnown f left right known known' u)
      (unifyKnown f left right known known' v) := by
  match known, known' with
  | .point p, t =>
    have hCon : ∀ q, t ≠ .point q := hCon.resolve_left fun h => h p rfl
    exact follows_some (h.record (Ty.inside_point.mp hKnown) hKnown' hCon)
  | .con tag children emit, .point p =>
    exact follows_some (h.record (Ty.inside_point.mp hKnown') hKnown (by simp))
  | .con tag children emit, .con tag' children' emit' =>
    intro conflict u'' hRun
    simp only [unifyKnown, Option.bind_eq_bind, Option.bind_eq_some_iff] at hRun ⊢
    obtain ⟨⟨c, u₁⟩, hParts, hResult⟩ := hRun
    obtain ⟨v₁, hParts', hMoved⟩ := unifyParts_local hf (Ty.inside_con.mp hKnown)
      (Ty.inside_con.mp hKnown') h c u₁ hParts
    -- what follows only if there was a conflict below
    have hOnLeft := hMoved.trans
      (hMoved.parallel.recordBoth hKnown hKnown' (by simp) (by simp) hLeft)
    have hOnRight := hOnLeft.trans
      (hOnLeft.parallel.recordBoth hKnown hKnown' (by simp) (by simp) hRight)
    cases c with
    | false =>
      obtain ⟨rfl, rfl⟩ := Prod.mk.inj (Option.some.inj hResult)
      exact ⟨v₁, ⟨_, hParts', rfl⟩, hMoved⟩
    | true =>
      obtain ⟨rfl, rfl⟩ := Prod.mk.inj (Option.some.inj hResult)
      exact ⟨_, ⟨_, hParts', rfl⟩, hOnRight⟩

/-- One level, if the levels below are local. -/
theorem unifyStep_local (hf : f.Local R) : Unifier.Local R (unifyStep f) := by
  intro left right u v hLeft hRight h
  obtain ⟨hFirst, hInside, hMoved⟩ := h.resolve hLeft
  obtain ⟨hSecond, hInside', hMoved'⟩ := hMoved.parallel.resolve hRight
  -- unless both sides are points, one of them is known to be a constructed type
  have hKnown (hCon : (∀ q, left ≠ .point q) ∨ ∀ q, right ≠ .point q) :
      Follows R u
        (unifyKnown f left right (u.resolve left).1 ((u.resolve left).2.resolve right).1
          ((u.resolve left).2.resolve right).2)
        (unifyKnown f left right (v.resolve left).1 ((v.resolve left).2.resolve right).1
          ((v.resolve left).2.resolve right).2) := by
    rw [hFirst, hSecond]
    have hBoth := hMoved.trans hMoved'
    refine hBoth.follows (unifyKnown_local hf hLeft hRight hInside hInside' ?_ hBoth.parallel)
    refine hCon.imp (fun hCon => ?_) fun hCon => ?_
    · cases left with
      | point p => exact absurd rfl (hCon p)
      | con => exact hCon
    · cases right with
      | point p => exact absurd rfl (hCon p)
      | con => exact hCon
  unfold unifyStep
  split
  · exact follows_some h.moved
  · match left, right with
    | .point a, .point b =>
      exact unifyPoints_local hf (Ty.inside_point.mp hLeft) (Ty.inside_point.mp hRight) h
    | .point a, .con tag children emit => exact hKnown (.inr (by simp))
    | .con tag children emit, .point b => exact hKnown (.inl (by simp))
    | .con tag children emit, .con tag' children' emit' => exact hKnown (.inl (by simp))

/-- **Unification is local.** -/
theorem unifyWithin_local (fuel : Nat) : Unifier.Local R (unifyWithin fuel) := by
  induction fuel with
  | zero =>
    intro left right u v _ _ _ conflict u' hRun
    cases hRun
  | succ fuel ih => exact unifyStep_local ih

/-- **A unification in one of two parallel states** goes the same way in the other, and leaves
them parallel. -/
theorem Parallel.unify (h : Parallel R u v) {fuel : Nat} {left right : Ty} {notes : List Note}
    (hLeft : left.Inside R) (hRight : right.Inside R)
    (hRun : u.unify fuel left right = some (notes, u')) :
    ∃ notes' v', v.unify fuel left right = some (notes', v') ∧ Moved R u u' v' := by
  simp only [Unification.unify, Option.bind_eq_bind, Option.bind_eq_some_iff] at hRun ⊢
  obtain ⟨⟨conflict, u₁⟩, hWithin, hResult⟩ := hRun
  obtain ⟨-, rfl⟩ := Prod.mk.inj (Option.some.inj hResult)
  obtain ⟨v₁, hWithin', hMoved⟩ := unifyWithin_local fuel left right u v hLeft hRight h
    conflict u₁ hWithin
  exact ⟨_, _, ⟨_, hWithin', rfl⟩, ⟨hMoved.outside.parents, hMoved.outside.types⟩,
    hMoved.parallel.congr ⟨rfl, rfl⟩ ⟨rfl, rfl⟩⟩

-- ---------------------------------------------------------------------------
-- Normal forms
-- ---------------------------------------------------------------------------

/-- The typed classes that may still be unfolded. -/
def folded (u : Unification) (visiting : List Point) : List Point :=
  u.types.keys.filter (· ∉ visiting)

/-- A typed class that is not under way may be unfolded. -/
theorem mem_folded {visiting : List Point} {r : Point} (hTyped : u.typesAt r ≠ [])
    (hNew : r ∉ visiting) : r ∈ u.folded visiting :=
  List.mem_filter.mpr ⟨mem_keys_of_typesAt_ne_nil hTyped, by simpa using hNew⟩

/-- One class less may be unfolded while a class is under way. -/
theorem length_folded_cons {visiting : List Point} {r : Point} (hr : r ∈ u.folded visiting) :
    (u.folded (r :: visiting)).length < (u.folded visiting).length := by
  have hFilter : u.folded (r :: visiting) = (u.folded visiting).filter (· ≠ r) := by
    rw [folded, folded, List.filter_filter]
    refine List.filter_congr fun q _ => ?_
    simp only [List.mem_cons, not_or, Bool.decide_and]
  rw [hFilter]
  exact List.length_filter_lt_length_iff_exists.mpr ⟨r, hr, by simp⟩

/-- There are no more classes to unfold than there are entries in the table. -/
theorem length_folded_le (u : Unification) (visiting : List Point) :
    (u.folded visiting).length ≤ u.types.size :=
  calc (u.folded visiting).length ≤ u.types.keys.length := List.length_filter_le ..
    _ = u.types.size := Std.ExtTreeMap.length_keys

/-- Once every typed class can be unfolded, more fuel makes no difference. -/
theorem expand_of_le {fuel fuel' : Nat} {visiting : List Point}
    (hFuel : (u.folded visiting).length ≤ fuel) (hLe : fuel ≤ fuel') (p : Point) :
    u.expand fuel' visiting p = u.expand fuel visiting p := by
  induction fuel generalizing fuel' visiting p with
  | zero =>
    cases fuel' with
    | zero => rfl
    | succ more =>
      simp only [expand]
      split
      · rfl
      · rename_i hNew
        cases hHead : (u.typesAt (u.representative p)).head? with
        | none => rfl
        | some t =>
          have hTyped := List.ne_nil_of_mem (List.mem_of_head? hHead)
          -- the class could be unfolded, so there is fuel for it
          have hPos := List.length_pos_of_mem (mem_folded hTyped hNew)
          omega
  | succ fuel ih =>
    obtain ⟨more, rfl⟩ : ∃ more, fuel' = more + 1 := ⟨fuel' - 1, by omega⟩
    simp only [expand]
    split
    · rfl
    · rename_i hNew
      cases hHead : (u.typesAt (u.representative p)).head? with
      | none => rfl
      | some t =>
        have hTyped := List.ne_nil_of_mem (List.mem_of_head? hHead)
        -- one class is under way, and it takes one unit of fuel
        have hLess := length_folded_cons (mem_folded hTyped hNew)
        exact Ty.bind_congr t fun q _ => ih (by omega) (by omega) q

/-- Normal forms may be computed with any fuel that is enough. -/
theorem apply_eq_of_le {fuel : Nat} (hLe : u.types.size ≤ fuel) (t : Ty) :
    u.apply t = t.bind (u.expand fuel []) :=
  Ty.bind_congr t fun p _ => (expand_of_le (u.length_folded_le []) hLe p).symm

/-- The expansion of a point inside, with the same fuel in both states. -/
theorem Parallel.expand (h : Parallel R u v) (fuel : Nat) (visiting : List Point) {p : Point}
    (hp : R p) : v.expand fuel visiting p = u.expand fuel visiting p := by
  induction fuel generalizing visiting p with
  | zero => rw [Unification.expand, Unification.expand, h.representative hp]
  | succ fuel ih =>
    have hRoot := h.mem_representative hp
    simp only [Unification.expand, h.representative hp, h.typesAt hRoot]
    split
    · rfl
    · cases hHead : (u.typesAt (u.representative p)).head? with
      | none => rfl
      | some t =>
        exact Ty.bind_congr t fun q hq =>
          ih _ (h.inside_of_mem hRoot (List.mem_of_head? hHead) q hq)

/-- **Normal forms are local.** -/
theorem Parallel.apply (h : Parallel R u v) {t : Ty} (ht : t.Inside R) : v.apply t = u.apply t := by
  -- the tables differ in size, so compare at a fuel that is enough for both
  rw [apply_eq_of_le (Nat.le_max_left v.types.size u.types.size),
    apply_eq_of_le (Nat.le_max_right v.types.size u.types.size)]
  exact Ty.bind_congr t fun p hp => h.expand _ [] (ht p hp)

end Unification

end TraitInference
