import TraitInference.Proofs.Forest
import TraitInference.Unification.Unify
import Mathlib.Logic.Relation

/-!
# TraitInference — well-formed states and the steps between them

Unification looks intricate because it calls itself while the table of types is
half updated. What it *does* to the state, however, is a sequence of four kinds
of **steps**: it records a point, notes something, records a constructed type
for a class, or merges two classes. `Step` lists them, and `unifyWithin_steps`
says that every unification is such a sequence, so that an invariant has to be
checked for the four steps only.

The first invariant is that the table of types fits the classes
(`WellFormed`): types are kept under recorded representatives, no list is empty,
none holds a point or two types that are the same.

A merge may be restricted by a predicate `allowed`; this is how runs that avoid
some kind of merge are spoken of.
-/

namespace TraitInference.Unification

-- ---------------------------------------------------------------------------
-- Recording a point
-- ---------------------------------------------------------------------------

variable {u u' : Unification}

/-- Looking a point up answers with its representative and may only record the point. -/
@[simp] theorem find_fst (u : Unification) (p : Point) : (u.find p).1 = u.representative p :=
  UnionFind.find_fst u.classes p

@[simp] theorem find_classes (u : Unification) (p : Point) :
    (u.find p).2.classes = (u.classes.find p).2 := rfl

@[simp] theorem find_types (u : Unification) (p : Point) : (u.find p).2.types = u.types := rfl

@[simp] theorem find_journal (u : Unification) (p : Point) :
    (u.find p).2.journal = u.journal := rfl

@[simp] theorem find_hasError (u : Unification) (p : Point) :
    (u.find p).2.hasError = u.hasError := rfl

@[simp] theorem find_hasDropped (u : Unification) (p : Point) :
    (u.find p).2.hasDropped = u.hasDropped := rfl

@[simp] theorem find_deferred (u : Unification) (p : Point) :
    (u.find p).2.deferred = u.deferred := rfl

@[simp] theorem find_typesAt (u : Unification) (p r : Point) :
    (u.find p).2.typesAt r = u.typesAt r := rfl

/-- Recording a point changes no class. -/
theorem find_representative (h : u.classes.IsForest) (p q : Point) :
    (u.find p).2.representative q = u.representative q :=
  UnionFind.representative_find h p q

theorem representative_representative (h : u.classes.IsForest) (p : Point) :
    u.representative (u.representative p) = u.representative p :=
  UnionFind.representative_representative h p

/-- A type is found at a point if it is in the list that is kept there. -/
theorem mem_typesAt {r : Point} {t : Ty} :
    t ∈ u.typesAt r ↔ ∃ ts, u.types[r]? = some ts ∧ t ∈ ts := by
  unfold typesAt
  cases u.types[r]? <;> simp

-- ---------------------------------------------------------------------------
-- Well-formed states
-- ---------------------------------------------------------------------------

/-- The table of types fits the classes. -/
structure WellFormed (u : Unification) : Prop where
  forest      : u.classes.IsForest
  root        : ∀ (r : Point) ts, u.types[r]? = some ts → u.representative r = r
  recorded    : ∀ (r : Point) ts, u.types[r]? = some ts → u.classes.contains r = true
  nonempty    : ∀ (r : Point) ts, u.types[r]? = some ts → ts ≠ []
  constructed : ∀ (r : Point) ts, u.types[r]? = some ts → ∀ p, Ty.point p ∉ ts
  distinct    : ∀ (r : Point) ts, u.types[r]? = some ts →
    ts.Pairwise fun t t' => t.same t' = false

/-- Nothing is recorded at the start. -/
theorem wellFormed_empty : WellFormed {} where
  forest := UnionFind.isForest_empty
  root r ts h := by simp at h
  recorded r ts h := by simp at h
  nonempty r ts h := by simp at h
  constructed r ts h := by simp at h
  distinct r ts h := by simp at h

/-- Whether a state is well formed depends on its classes and types only. -/
theorem WellFormed.congr (h : u.WellFormed) (hClasses : u'.classes = u.classes)
    (hTypes : u'.types = u.types) : u'.WellFormed where
  forest := hClasses ▸ h.forest
  root := by
    rw [hTypes]
    unfold representative
    rw [hClasses]
    exact h.root
  recorded := by
    rw [hTypes, hClasses]
    exact h.recorded
  nonempty := hTypes ▸ h.nonempty
  constructed := hTypes ▸ h.constructed
  distinct := hTypes ▸ h.distinct

/-- A point that does not represent its class has no types of its own. -/
theorem WellFormed.typesAt_eq_nil (h : u.WellFormed) {p : Point} (hp : u.representative p ≠ p) :
    u.types[p]? = none := by
  cases hTypes : u.types[p]? with
  | none => rfl
  | some ts => exact absurd (h.root p ts hTypes) hp

/-- No class has a point among its types. -/
theorem WellFormed.point_not_mem_typesAt (h : u.WellFormed) (r p : Point) :
    Ty.point p ∉ u.typesAt r := by
  rw [mem_typesAt]
  rintro ⟨ts, hTypes, hMem⟩
  exact h.constructed r ts hTypes p hMem

/-- The types of a class are constructed. -/
theorem WellFormed.exists_con (h : u.WellFormed) {r : Point} {t : Ty} (ht : t ∈ u.typesAt r) :
    ∃ tag children emit, t = .con tag children emit := by
  cases t with
  | point p => exact absurd ht (h.point_not_mem_typesAt r p)
  | con tag children emit => exact ⟨tag, children, emit, rfl⟩

/-- Recording a point keeps a state well formed: the table of types is not touched. -/
theorem WellFormed.find (h : u.WellFormed) (p : Point) : (u.find p).2.WellFormed where
  forest := UnionFind.isForest_find h.forest p
  root r ts hTypes := by
    rw [find_representative h.forest]
    exact h.root r ts hTypes
  recorded r ts hTypes := by
    rw [find_classes, UnionFind.contains_find, h.recorded r ts hTypes, Bool.or_true]
  nonempty := h.nonempty
  constructed := h.constructed
  distinct := h.distinct

/-- So does taking a note. -/
theorem WellFormed.note (h : u.WellFormed) (n : Note) : (u.note n).WellFormed :=
  h.congr rfl rfl

-- ---------------------------------------------------------------------------
-- Recording a type
-- ---------------------------------------------------------------------------

/-- The state after `t` was added behind the types of the class represented by `r`. -/
def addType (u : Unification) (r : Point) (t : Ty) : Unification :=
  { u with types := u.types.insert r (u.typesAt r ++ [t]) }

/-- What recording a type does: it is dropped, known already, or added. -/
theorem record_cases (u : Unification) (p : Point) (t : Ty) :
    ((u.find p).2.occurs (u.representative p) t = true ∧
      u.record p t = (u.find p).2.note (.recursive (u.representative p))) ∨
    ((u.find p).2.occurs (u.representative p) t = false ∧
      (∃ t' ∈ u.typesAt (u.representative p), t'.same t = true) ∧
      u.record p t = (u.find p).2) ∨
    ((u.find p).2.occurs (u.representative p) t = false ∧
      (∀ t' ∈ u.typesAt (u.representative p), t'.same t = false) ∧
      u.record p t = (u.find p).2.addType (u.representative p) t) := by
  unfold record
  simp only [find_fst, find_typesAt]
  -- the three ways through `record`, in its order
  split
  · exact .inl ⟨‹_›, rfl⟩
  · rename_i hOccurs
    rw [Bool.not_eq_true] at hOccurs
    split
    · rename_i hAny
      exact .inr (.inl ⟨hOccurs, List.any_eq_true.mp hAny, rfl⟩)
    · rename_i hAny
      refine .inr (.inr ⟨hOccurs, ?_, rfl⟩)
      intro t' ht'
      rw [Bool.not_eq_true, List.any_eq_false] at hAny
      simpa using hAny t' ht'

/-- The table after a type was added. -/
theorem getElem?_addType (u : Unification) (r q : Point) (t : Ty) :
    (u.addType r t).types[q]? = if q = r then some (u.typesAt r ++ [t]) else u.types[q]? := by
  rw [addType, PointMap.getElem?_insert]

/-- The new type stands behind the others of its class. -/
theorem typesAt_addType (u : Unification) (r q : Point) (t : Ty) :
    (u.addType r t).typesAt q = if q = r then u.typesAt r ++ [t] else u.typesAt q := by
  unfold typesAt
  rw [getElem?_addType]
  split <;> rfl

/-- A constructed type that is new to a recorded class may be added. -/
theorem WellFormed.addType (h : u.WellFormed) {r : Point} {t : Ty}
    (hRoot : u.representative r = r) (hRecorded : u.classes.contains r = true)
    (hCon : ∀ p, t ≠ .point p) (hNew : ∀ t' ∈ u.typesAt r, t'.same t = false) :
    (u.addType r t).WellFormed where
  forest := h.forest
  root q ts hTypes := by
    rw [getElem?_addType] at hTypes
    split at hTypes
    · subst q
      exact hRoot
    · exact h.root q ts hTypes
  recorded q ts hTypes := by
    rw [getElem?_addType] at hTypes
    split at hTypes
    · subst q
      exact hRecorded
    · exact h.recorded q ts hTypes
  nonempty q ts hTypes := by
    rw [getElem?_addType] at hTypes
    split at hTypes
    · obtain rfl := Option.some.inj hTypes
      simp
    · exact h.nonempty q ts hTypes
  constructed q ts hTypes p := by
    rw [getElem?_addType] at hTypes
    split at hTypes
    · obtain rfl := Option.some.inj hTypes
      rw [List.mem_append, List.mem_singleton]
      rintro (hOld | hEq)
      · exact h.point_not_mem_typesAt r p hOld
      · exact hCon p hEq.symm
    · exact h.constructed q ts hTypes p
  distinct q ts hTypes := by
    rw [getElem?_addType] at hTypes
    split at hTypes
    · obtain rfl := Option.some.inj hTypes
      rw [List.pairwise_append]
      refine ⟨?_, List.pairwise_singleton _ _, ?_⟩
      · unfold typesAt
        cases hOld : u.types[r]? with
        | none => exact List.Pairwise.nil
        | some ts => exact h.distinct r ts hOld
      · -- the new type is unlike the old ones, which come before it
        intro t' ht' t'' ht''
        rw [List.mem_singleton] at ht''
        exact ht'' ▸ hNew t' ht'
    · exact h.distinct q ts hTypes

/-- **Recording a type keeps a state well formed**, whether it is dropped, known or added. -/
theorem WellFormed.record (h : u.WellFormed) (p : Point) {t : Ty} (hCon : ∀ q, t ≠ .point q) :
    (u.record p t).WellFormed := by
  have hFind := h.find p
  rcases record_cases u p t with ⟨-, hEq⟩ | ⟨-, -, hEq⟩ | ⟨-, hNew, hEq⟩
  · rw [hEq]
    exact hFind.note _
  · rw [hEq]
    exact hFind
  · -- it is new: the class is recorded, because the point has just been looked up
    rw [hEq]
    have hRep : (u.find p).2.representative p = u.representative p :=
      find_representative h.forest p p
    refine hFind.addType ?_ ?_ hCon hNew
    · rw [find_representative h.forest, representative_representative h.forest]
    · rw [← hRep]
      apply UnionFind.contains_representative hFind.forest
      rw [find_classes, UnionFind.contains_find, decide_eq_true rfl, Bool.true_or]

-- ---------------------------------------------------------------------------
-- Merging two classes
-- ---------------------------------------------------------------------------

/-- The points of both classes are represented by `a` after a merge. -/
theorem merge_representative (h : u.classes.IsForest) (a b p : Point) :
    (u.merge a b).representative p =
      if u.representative p = u.representative a ∨ u.representative p = u.representative b
        then a else u.representative p :=
  UnionFind.representative_union h a b p

/-- The types after a merge: those of the surviving class have moved to `a`. -/
theorem getElem?_merge (h : u.WellFormed) {a b : Point}
    (hNe : u.representative a ≠ u.representative b) (r : Point) :
    (u.merge a b).types[r]? =
      if r = a then u.types[u.representative a]?
      else if r = u.representative a ∨ r = u.representative b then none
      else u.types[r]? := by
  have hOthers : ((u.types.erase (u.representative a)).erase (u.representative b))[r]? =
      if r = u.representative a ∨ r = u.representative b then none else u.types[r]? := by
    rw [PointMap.getElem?_erase, PointMap.getElem?_erase]
    by_cases hB : r = u.representative b <;> by_cases hA : r = u.representative a <;> simp [*]
  unfold merge
  cases hLeft : u.types[u.representative a]? with
  | some ts =>
    simp only [hLeft, PointMap.getElem?_insert, hOthers]
  | none =>
    simp only [hLeft, hOthers]
    by_cases hr : r = a
    · -- `a` is the old root, or no root at all: either way nothing is kept there
      subst hr
      rw [if_pos rfl]
      by_cases hTop : r = u.representative r
      · rw [if_pos (.inl hTop)]
      · split
        · rfl
        · exact h.typesAt_eq_nil fun hRoot => hTop hRoot.symm
    · rw [if_neg hr]

/-- The types after a merge: the types of the absorbed class are gone, for they are to be
unified with the new one. -/
theorem typesAt_merge (h : u.WellFormed) {a b : Point}
    (hNe : u.representative a ≠ u.representative b) (r : Point) :
    (u.merge a b).typesAt r =
      if r = a then u.typesAt (u.representative a)
      else if r = u.representative a ∨ r = u.representative b then []
      else u.typesAt r := by
  unfold typesAt
  rw [getElem?_merge h hNe]
  split
  · rfl
  · split <;> rfl

/-- **Merging two classes keeps a state well formed.** -/
theorem WellFormed.merge (h : u.WellFormed) {a b : Point}
    (hNe : u.representative a ≠ u.representative b) : (u.merge a b).WellFormed := by
  -- a key of the new table is `a`, with the types of its class, or an old key of another class
  have hKeys : ∀ (r : Point) ts, (u.merge a b).types[r]? = some ts →
      (r = a ∧ u.types[u.representative a]? = some ts) ∨
      (r ≠ u.representative a ∧ r ≠ u.representative b ∧ u.types[r]? = some ts) := by
    intro r ts hTypes
    rw [getElem?_merge h hNe] at hTypes
    split at hTypes
    · exact .inl ⟨‹_›, hTypes⟩
    · split at hTypes
      · cases hTypes
      · rename_i hOther
        rw [not_or] at hOther
        exact .inr ⟨hOther.1, hOther.2, hTypes⟩
  refine ⟨UnionFind.isForest_union h.forest a b, ?_, ?_, ?_, ?_, ?_⟩
  · -- keys represent their classes
    intro r ts hTypes
    rw [merge_representative h.forest]
    rcases hKeys r ts hTypes with ⟨rfl, -⟩ | ⟨hA, hB, hOld⟩
    · rw [if_pos (.inl rfl)]
    · have hRoot := h.root r ts hOld
      rw [hRoot, if_neg (by rw [not_or]; exact ⟨hA, hB⟩)]
  · -- keys are recorded
    intro r ts hTypes
    show (u.classes.union a b).2.contains r = true
    rw [UnionFind.contains_union h.forest]
    rcases hKeys r ts hTypes with ⟨rfl, -⟩ | ⟨-, -, hOld⟩
    · simp
    · simp [h.recorded r ts hOld]
  -- the lists themselves are old ones
  all_goals
    intro r ts hTypes
    rcases hKeys r ts hTypes with ⟨-, hOld⟩ | ⟨-, -, hOld⟩
  · exact h.nonempty _ ts hOld
  · exact h.nonempty _ ts hOld
  · exact h.constructed _ ts hOld
  · exact h.constructed _ ts hOld
  · exact h.distinct _ ts hOld
  · exact h.distinct _ ts hOld

end TraitInference.Unification
