import TraitInference.Proofs.Reachability
import TraitInference.Proofs.Steps

/-!
# TraitInference — what closes a cycle

The occurs check keeps recursive types out where a type is *recorded*: no record
ever closes a cycle of links (`Acyclic.record`). A merge is not checked. It moves
the types of the surviving class to the new representative as they are, and so
closes a cycle exactly when the class that is absorbed occurs in one of them
(`acyclic_merge_iff`). In the other direction, when the survivor occurs in the
types of the absorbed class, nothing happens: those types go through the occurs
check again and are dropped.
-/

namespace TraitInference.Unification

open Relation

variable {u u' : Unification}

-- ---------------------------------------------------------------------------
-- Links after a step
-- ---------------------------------------------------------------------------

/-- States that agree have the same links. -/
theorem Agrees.links_iff (h : Agrees u u') {r r' : Point} : u'.Links r r' ↔ u.Links r r' := by
  simp only [Links, pointsAt, h.typesAt, h.representative]

theorem acyclic_congr (h : ∀ r r', u'.Links r r' ↔ u.Links r r') : u'.Acyclic ↔ u.Acyclic := by
  have hEq : u'.Links = u.Links := by
    funext r r'
    exact propext (h r r')
  rw [Acyclic, Acyclic, hEq]

theorem Agrees.acyclic_iff (h : Agrees u u') : u'.Acyclic ↔ u.Acyclic :=
  acyclic_congr fun _ _ => h.links_iff

theorem acyclic_note (n : Note) : (u.note n).Acyclic ↔ u.Acyclic :=
  Iff.rfl

/-- A type adds links from its class to those of its points. -/
theorem links_addType {r x y : Point} {t : Ty} :
    (u.addType r t).Links x y ↔
      u.Links x y ∨ x = r ∧ ∃ p ∈ t.points, u.representative p = y := by
  have hRep : ∀ p, (u.addType r t).representative p = u.representative p := fun _ => rfl
  simp only [Links, pointsAt, typesAt_addType, hRep]
  by_cases hx : x = r
  · simp only [hx, if_pos, List.flatMap_append, List.mem_append, true_and]
    constructor
    · rintro ⟨p, hp | hp, hRoot⟩
      · exact .inl ⟨p, hp, hRoot⟩
      · exact .inr ⟨p, by simpa using hp, hRoot⟩
    · rintro (⟨p, hp, hRoot⟩ | ⟨p, hp, hRoot⟩)
      · exact ⟨p, .inl hp, hRoot⟩
      · exact ⟨p, .inr (by simpa using hp), hRoot⟩
  · simp [hx]

-- ---------------------------------------------------------------------------
-- Recording a type
-- ---------------------------------------------------------------------------

/-- A way to `r` need not use the links that start at `r`. -/
theorem reaches_of_reaches_addType {r x : Point} {t : Ty}
    (h : (u.addType r t).Reaches x r) : u.Reaches x r := by
  induction h using ReflTransGen.head_induction_on with
  | refl => exact .refl
  | head hLink _ ih =>
    rcases links_addType.mp hLink with hOld | ⟨rfl, -⟩
    · exact .head hOld ih
    · exact .refl

/-- A way after a type was added is one from before, or passes the class that
got the type. -/
theorem transGen_addType_cases {r x y : Point} {t : Ty}
    (h : TransGen (u.addType r t).Links x y) :
    TransGen u.Links x y ∨
      (u.addType r t).Reaches x r ∧
        ∃ p ∈ t.points, (u.addType r t).Reaches (u.representative p) y := by
  induction h with
  | single hLink =>
    rcases links_addType.mp hLink with hOld | ⟨rfl, p, hp, rfl⟩
    · exact .inl (.single hOld)
    · exact .inr ⟨.refl, p, hp, .refl⟩
  | tail hBefore hLink ih =>
    rcases ih with hOld | ⟨hTo, p, hp, hFrom⟩
    · rcases links_addType.mp hLink with hLink | ⟨rfl, p, hp, rfl⟩
      · exact .inl (hOld.tail hLink)
      · exact .inr ⟨hBefore.to_reflTransGen, p, hp, .refl⟩
    · exact .inr ⟨hTo, p, hp, hFrom.tail hLink⟩

/-- A type in which the class does not occur can be added. -/
theorem Acyclic.addType (h : u.Acyclic) {r : Point} {t : Ty} (hNot : u.occurs r t = false) :
    (u.addType r t).Acyclic := by
  intro x hCycle
  rcases transGen_addType_cases hCycle with hOld | ⟨hTo, p, hp, hFrom⟩
  · exact h x hOld
  · -- a new cycle passes `r`, so the type led back to `r` before it was added
    have hReach : u.Reaches (u.representative p) r :=
      reaches_of_reaches_addType (hFrom.trans hTo)
    have hOccurs := (occurs_iff u r t).mpr ⟨p, hp, hReach⟩
    rw [hNot] at hOccurs
    cases hOccurs

/-- **Recording a type closes no cycle.** -/
theorem Acyclic.record (h : u.WellFormed) (hAcyclic : u.Acyclic) (p : Point) (t : Ty) :
    (u.record p t).Acyclic := by
  have hFind : (u.find p).2.Acyclic := (agrees_find h.forest p).acyclic_iff.mpr hAcyclic
  rcases record_cases u p t with ⟨-, hEq⟩ | ⟨-, -, hEq⟩ | ⟨hNot, -, hEq⟩
  · rw [hEq]
    exact (acyclic_note _).mpr hFind
  · rw [hEq]
    exact hFind
  · rw [hEq]
    exact hFind.addType hNot

/-- Nor does it open one. -/
theorem acyclic_of_record (h : u.WellFormed) {p : Point} {t : Ty}
    (hAcyclic : (u.record p t).Acyclic) : u.Acyclic := by
  have hFind := agrees_find h.forest p
  rcases record_cases u p t with ⟨-, hEq⟩ | ⟨-, -, hEq⟩ | ⟨-, -, hEq⟩
  · rw [hEq, acyclic_note] at hAcyclic
    exact hFind.acyclic_iff.mp hAcyclic
  · rw [hEq] at hAcyclic
    exact hFind.acyclic_iff.mp hAcyclic
  · rw [hEq] at hAcyclic
    rw [← hFind.acyclic_iff]
    intro r hCycle
    have hMore : (u.find p).2.Links ≤ ((u.find p).2.addType (u.representative p) t).Links :=
      fun _ _ hLink => links_addType.mpr (.inl hLink)
    exact hAcyclic r (TransGen.mono hMore r r hCycle)

-- ---------------------------------------------------------------------------
-- Merging two classes
-- ---------------------------------------------------------------------------

/-- The class of a point after `b` was merged into the class of `a`. -/
def mergedRoot (u : Unification) (a b r : Point) : Point :=
  if r = u.representative a ∨ r = u.representative b then a else r

/-- After a merge the new class links to where the survivor did; the absorbed one has lost its
types. -/
theorem links_merge (h : u.WellFormed) {a b : Point}
    (hNe : u.representative a ≠ u.representative b) {x y : Point} :
    (u.merge a b).Links x y ↔
      ∃ z, u.mergedRoot a b z = y ∧
        (x = a ∧ u.Links (u.representative a) z ∨
          (x ≠ a ∧ x ≠ u.representative a ∧ x ≠ u.representative b) ∧ u.Links x z) := by
  have hRep : ∀ p, (u.merge a b).representative p = u.mergedRoot a b (u.representative p) :=
    merge_representative h.forest a b
  simp only [Links, pointsAt, typesAt_merge h hNe, hRep]
  by_cases hx : x = a
  · simp only [hx, if_pos, true_and, ne_eq, not_true_eq_false, false_and, or_false]
    constructor
    · rintro ⟨p, hp, hRoot⟩
      exact ⟨_, hRoot, p, hp, rfl⟩
    · rintro ⟨z, hRoot, p, hp, rfl⟩
      exact ⟨p, hp, hRoot⟩
  · -- neither old root has types left
    by_cases hOld : x = u.representative a ∨ x = u.representative b
    · simp only [hx, hOld, if_false, if_true, List.flatMap_nil, List.not_mem_nil, false_and,
        exists_false, false_iff, not_exists, not_and, ne_eq, not_false_eq_true, true_and,
        ← not_or, not_true_eq_false, or_self, implies_true]
    · simp only [hx, hOld, if_false, false_and, ne_eq, not_false_eq_true, true_and, ← not_or,
        false_or]
      constructor
      · rintro ⟨p, hp, hRoot⟩
        exact ⟨_, hRoot, p, hp, rfl⟩
      · rintro ⟨z, hRoot, p, hp, rfl⟩
        exact ⟨p, hp, hRoot⟩

/-- Links start at roots. -/
theorem root_of_links (h : u.WellFormed) {x y : Point} (hLink : u.Links x y) :
    u.representative x = x := by
  obtain ⟨p, hp, -⟩ := hLink
  obtain ⟨t, ht, -⟩ := mem_pointsAt.mp hp
  obtain ⟨ts, hTypes, -⟩ := mem_typesAt.mp ht
  exact h.root x ts hTypes

/-- A link of a class other than the absorbed one survives a merge. -/
theorem Links.merge (h : u.WellFormed) {a b : Point}
    (hNe : u.representative a ≠ u.representative b) {x y : Point} (hLink : u.Links x y)
    (hx : x ≠ u.representative b) :
    (u.merge a b).Links (u.mergedRoot a b x) (u.mergedRoot a b y) := by
  rw [links_merge h hNe]
  refine ⟨y, rfl, ?_⟩
  by_cases hA : x = u.representative a
  · exact .inl ⟨by rw [mergedRoot, if_pos (.inl hA)], hA ▸ hLink⟩
  · have hSelf : u.mergedRoot a b x = x := by
      rw [mergedRoot, if_neg (by rw [not_or]; exact ⟨hA, hx⟩)]
    have hTop : x ≠ a := by
      rintro rfl
      exact hA (root_of_links h hLink).symm
    rw [hSelf]
    exact .inr ⟨⟨hTop, hA, hx⟩, hLink⟩

/-- A way to the absorbed class becomes one to the new class. -/
theorem reaches_merge (h : u.WellFormed) {a b : Point}
    (hNe : u.representative a ≠ u.representative b) {x : Point}
    (hReach : u.Reaches x (u.representative b)) :
    (u.merge a b).Reaches (u.mergedRoot a b x) a := by
  induction hReach using ReflTransGen.head_induction_on with
  | refl =>
    rw [mergedRoot, if_pos (.inr rfl)]
  | @head x y hLink _ ih =>
    by_cases hx : x = u.representative b
    · rw [mergedRoot, if_pos (.inr hx)]
    · exact .head (hLink.merge h hNe hx) ih

/-- Where a link of a merged state comes from: it starts at the old root of the
surviving class, or where it did. -/
theorem exists_links_of_merge (h : u.WellFormed) {a b : Point}
    (hNe : u.representative a ≠ u.representative b) {x y : Point}
    (hLink : (u.merge a b).Links x y) :
    ∃ z, u.mergedRoot a b z = y ∧ u.representative z = z ∧
      u.Links (if x = a then u.representative a else x) z := by
  obtain ⟨z, hRoot, hCases⟩ := (links_merge h hNe).mp hLink
  refine ⟨z, hRoot, ?_⟩
  have hTarget : ∀ x, u.Links x z → u.representative z = z := by
    rintro x ⟨p, -, rfl⟩
    exact representative_representative h.forest p
  rcases hCases with ⟨rfl, hLink⟩ | ⟨⟨hTop, -, -⟩, hLink⟩
  · rw [if_pos rfl]
    exact ⟨hTarget _ hLink, hLink⟩
  · rw [if_neg hTop]
    exact ⟨hTarget _ hLink, hLink⟩

/-- A root that became the root `y` is `y` itself or, where `y` is the new root,
one of the two old ones. -/
theorem eq_of_mergedRoot {a b y z : Point} (hRoot : u.representative z = z)
    (hEq : u.mergedRoot a b z = y) :
    (y ≠ a ∧ z = y) ∨ (y = a ∧ (z = u.representative a ∨ z = u.representative b)) := by
  unfold mergedRoot at hEq
  split at hEq
  · exact .inr ⟨hEq.symm, ‹_›⟩
  · by_cases hTop : y = a
    · refine .inr ⟨hTop, .inl ?_⟩
      rw [← hTop, ← hEq, hRoot]
    · exact .inl ⟨hTop, hEq⟩

/-- A way through a merged state is, up to the renaming of roots, a way from
before, or it enters the new class and leaves it from the surviving one. -/
theorem transGen_merge_cases (h : u.WellFormed) {a b : Point}
    (hNe : u.representative a ≠ u.representative b) {x y : Point}
    (hWay : TransGen (u.merge a b).Links x y) :
    ∃ z, u.mergedRoot a b z = y ∧ u.representative z = z ∧
      (TransGen u.Links (if x = a then u.representative a else x) z ∨
        TransGen u.Links (u.representative a) z ∧
          ∃ w, (w = u.representative a ∨ w = u.representative b) ∧
            TransGen u.Links (if x = a then u.representative a else x) w) := by
  induction hWay with
  | single hLink =>
    obtain ⟨z, hEq, hRoot, hOld⟩ := exists_links_of_merge h hNe hLink
    exact ⟨z, hEq, hRoot, .inl (.single hOld)⟩
  | @tail y y' _ hLink ih =>
    obtain ⟨z, hEq, hRoot, hWays⟩ := ih
    obtain ⟨z', hEq', hRoot', hOld⟩ := exists_links_of_merge h hNe hLink
    refine ⟨z', hEq', hRoot', ?_⟩
    rcases eq_of_mergedRoot hRoot hEq with ⟨hTop, rfl⟩ | ⟨rfl, hEnds⟩
    · rw [if_neg hTop] at hOld
      rcases hWays with hWay | ⟨hFrom, w, hw, hTo⟩
      · exact .inl (hWay.tail hOld)
      · exact .inr ⟨hFrom.tail hOld, w, hw, hTo⟩
    · -- the way passes the new class, from which only the links of the survivor lead on
      rw [if_pos rfl] at hOld
      rcases hWays with hWay | ⟨-, w, hw, hTo⟩
      · exact .inr ⟨.single hOld, z, hEnds, hWay⟩
      · exact .inr ⟨.single hOld, w, hw, hTo⟩

/-- **A merge closes a cycle exactly when the absorbed class occurs in the types
of the surviving one.** -/
theorem acyclic_merge_iff (h : u.WellFormed) (hAcyclic : u.Acyclic) {a b : Point}
    (hNe : u.representative a ≠ u.representative b) :
    (u.merge a b).Acyclic ↔ ¬ TransGen u.Links (u.representative a) (u.representative b) := by
  constructor
  · intro hMerged hWay
    obtain ⟨y, hLink, hReach⟩ := TransGen.head'_iff.mp hWay
    have hFirst := hLink.merge h hNe hNe
    rw [mergedRoot, if_pos (.inl rfl)] at hFirst
    exact hMerged a (.head' hFirst (reaches_merge h hNe hReach))
  · intro hOpen x hCycle
    -- from the old root of the survivor no way leads back to either old root
    have hNoReturn : ∀ w, w = u.representative a ∨ w = u.representative b →
        ¬ TransGen u.Links (u.representative a) w := by
      rintro w (rfl | rfl)
      · exact hAcyclic _
      · exact hOpen
    obtain ⟨z, hEq, hRoot, hWays⟩ := transGen_merge_cases h hNe hCycle
    rcases eq_of_mergedRoot hRoot hEq with ⟨hTop, rfl⟩ | ⟨rfl, hEnds⟩
    · rw [if_neg hTop] at hWays
      rcases hWays with hWay | ⟨hFrom, w, hw, hTo⟩
      · exact hAcyclic z hWay
      · exact hNoReturn w hw (hFrom.trans hTo)
    · rw [if_pos rfl] at hWays
      rcases hWays with hWay | ⟨hWay, -⟩
      · exact hNoReturn z hEnds hWay
      · exact hNoReturn z hEnds hWay

end TraitInference.Unification
