import TraitInference.Proofs.Reachability
import TraitInference.Proofs.Steps

/-!
# TraitInference — what a state says about types

Points stand for unknown types, so a state of unification is a set of
equations: a point equals the representative of its class, and that equals each
type recorded for the class. An assignment of values to points that makes all
of them true **solves** the state.

Values are the elements of any type with an operation for tags applied to
children (`Ty.eval`, `Models`). Two readings matter: finite trees over tags
(`Tree`, `Solves`), where different tags or different children make different
trees and no tree contains itself; and types themselves, which stand for the most
general solution.

Main results, for well-formed states:

* `Models.merge`, `Models.of_merge` — merging two classes says that the two
  points are equal, as long as the types that were taken out are not forgotten.
* `models_record` — recording a type that is not dropped says that the class has
  it.
* `Solves.not_occurs` — where there is a solution, nothing is dropped.
-/

namespace TraitInference

-- ---------------------------------------------------------------------------
-- Values of types
-- ---------------------------------------------------------------------------

namespace Ty

variable {A : Type} (node : Tag → List A → A) (σ : Point → A)

mutual

/-- The value of a type, given those of the points. Emission templates do not count. -/
def eval : Ty → A
  | .point p => σ p
  | .con tag children _ => node tag (evalAll children)

/-- The values of a row of types. -/
def evalAll : List Ty → List A
  | [] => []
  | t :: ts => t.eval :: evalAll ts

end

variable {node σ}

mutual

/-- What is erased does not count. -/
theorem eval_erase : ∀ t : Ty, t.erase.eval node σ = t.eval node σ
  | .point p => rfl
  | .con tag children _ => by rw [erase, eval, eval, evalAll_eraseAll children]

theorem evalAll_eraseAll : ∀ ts : List Ty, evalAll node σ (eraseAll ts) = evalAll node σ ts
  | [] => rfl
  | t :: ts => by rw [eraseAll, evalAll, evalAll, eval_erase t, evalAll_eraseAll ts]

end

/-- Types that are the same have the same value. -/
theorem eval_eq_of_same {t t' : Ty} (h : t.same t' = true) : t.eval node σ = t'.eval node σ := by
  rw [← eval_erase t, ← eval_erase t', (same_iff t t').mp h]

end Ty

/-- A finite tree over tags. -/
inductive Tree
  | node (tag : Tag) (children : List Tree)

/-- Gives every point a finite tree. -/
abbrev Assignment := Point → Tree

/-- The tree that an assignment gives a type. -/
def Ty.value (σ : Assignment) (t : Ty) : Tree :=
  t.eval Tree.node σ

namespace Unification

variable {A : Type} {node : Tag → List A → A} {σ : Point → A} {u u' : Unification}

-- ---------------------------------------------------------------------------
-- Solutions of a state
-- ---------------------------------------------------------------------------

/-- The values given to points make the equations of a state true. -/
structure Models (node : Tag → List A → A) (σ : Point → A) (u : Unification) : Prop where
  representative : ∀ p, σ p = σ (u.representative p)
  types          : ∀ p, ∀ t ∈ u.typesOf p, σ (u.representative p) = t.eval node σ

/-- An assignment of finite trees solves a state: it gives every point the value
of its representative, and that the value of each type recorded for the class. -/
def Solves (σ : Assignment) (u : Unification) : Prop :=
  Models Tree.node σ u

/-- A point has the value of each of its types. -/
theorem Models.eval_eq (h : Models node σ u) {p : Point} {t : Ty} (ht : t ∈ u.typesOf p) :
    σ p = t.eval node σ :=
  (h.representative p).trans (h.types p t ht)

/-- What is known of a type has its value. -/
theorem Models.eval_known (h : Models node σ u) {t known : Ty} (hKnows : u.Knows t known) :
    t.eval node σ = known.eval node σ := by
  cases hKnows with
  | con => rfl
  | point hHead => exact h.eval_eq (List.mem_of_head? hHead)

/-- States that agree say the same. -/
theorem Agrees.models_iff (h : Agrees u u') : Models node σ u' ↔ Models node σ u := by
  have hTypes : ∀ p, u'.typesOf p = u.typesOf p := by
    intro p
    rw [typesOf, typesOf, h.representative, h.typesAt]
  constructor
  · intro hModels
    refine ⟨fun p => ?_, fun p t ht => ?_⟩
    · rw [← h.representative]
      exact hModels.representative p
    · rw [← h.representative]
      exact hModels.types p t (by rw [hTypes]; exact ht)
  · intro hModels
    refine ⟨fun p => ?_, fun p t ht => ?_⟩
    · rw [h.representative]
      exact hModels.representative p
    · rw [h.representative]
      exact hModels.types p t (by rw [← hTypes]; exact ht)

/-- Notes do not count. -/
theorem models_note (n : Note) : Models node σ (u.note n) ↔ Models node σ u :=
  ⟨fun h => ⟨h.representative, h.types⟩, fun h => ⟨h.representative, h.types⟩⟩

-- ---------------------------------------------------------------------------
-- Recording a type
-- ---------------------------------------------------------------------------

/-- Adding a type to a class says that the class has it. -/
theorem models_addType {r : Point} {t : Ty} (hRoot : u.representative r = r) :
    Models node σ (u.addType r t) ↔ Models node σ u ∧ σ r = t.eval node σ := by
  have hRep : ∀ p, (u.addType r t).representative p = u.representative p := fun _ => rfl
  constructor
  · intro h
    refine ⟨⟨h.representative, fun p t' ht' => ?_⟩, ?_⟩
    · apply h.types p t'
      rw [typesOf, hRep, typesAt_addType]
      rw [typesOf] at ht'
      split
      · rename_i hEq
        rw [hEq] at ht'
        exact List.mem_append_left _ ht'
      · exact ht'
    · have hNew : t ∈ (u.addType r t).typesOf r := by
        rw [typesOf, hRep, hRoot, typesAt_addType, if_pos rfl]
        simp
      exact h.eval_eq hNew
  · rintro ⟨h, hValue⟩
    refine ⟨h.representative, fun p t' ht' => ?_⟩
    rw [typesOf, hRep, typesAt_addType] at ht'
    rw [hRep]
    split at ht'
    · rename_i hEq
      rw [List.mem_append, List.mem_singleton] at ht'
      rcases ht' with hOld | rfl
      · exact h.types p t' (by rw [typesOf, hEq]; exact hOld)
      · rw [hEq]
        exact hValue
    · exact h.types p t' ht'

/-- Recording a type only adds to what a state says. -/
theorem Models.of_record (h : u.WellFormed) {p : Point} {t : Ty}
    (hModels : Models node σ (u.record p t)) : Models node σ u := by
  have hFind := agrees_find h.forest p
  have hRoot : (u.find p).2.representative (u.representative p) = u.representative p := by
    rw [hFind.representative, representative_representative h.forest]
  rcases record_cases u p t with ⟨-, hEq⟩ | ⟨-, -, hEq⟩ | ⟨-, -, hEq⟩
  · rw [hEq, models_note] at hModels
    exact hFind.models_iff.mp hModels
  · rw [hEq] at hModels
    exact hFind.models_iff.mp hModels
  · rw [hEq, models_addType hRoot] at hModels
    exact hFind.models_iff.mp hModels.1

/-- What is true may be recorded. -/
theorem Models.record (h : u.WellFormed) {p : Point} {t : Ty} (hModels : Models node σ u)
    (hValue : σ p = t.eval node σ) : Models node σ (u.record p t) := by
  have hFind := agrees_find h.forest p
  have hModels' : Models node σ (u.find p).2 := hFind.models_iff.mpr hModels
  have hRoot : (u.find p).2.representative (u.representative p) = u.representative p := by
    rw [hFind.representative, representative_representative h.forest]
  rcases record_cases u p t with ⟨-, hEq⟩ | ⟨-, -, hEq⟩ | ⟨-, -, hEq⟩
  · rw [hEq, models_note]
    exact hModels'
  · rw [hEq]
    exact hModels'
  · rw [hEq, models_addType hRoot]
    exact ⟨hModels', (hModels.representative p).symm.trans hValue⟩

/-- **Recording a type that is not dropped says that the class has it.** -/
theorem models_record (h : u.WellFormed) {p : Point} {t : Ty}
    (hKept : (u.record p t).journal = u.journal) :
    Models node σ (u.record p t) ↔ Models node σ u ∧ σ p = t.eval node σ := by
  constructor
  · intro hModels
    have hOld : Models node σ u := .of_record h hModels
    refine ⟨hOld, ?_⟩
    have hRoot : (u.find p).2.representative (u.representative p) = u.representative p := by
      rw [find_representative h.forest, representative_representative h.forest]
    rcases record_cases u p t with ⟨-, hEq⟩ | ⟨-, ⟨t', ht', hSame⟩, -⟩ | ⟨-, -, hEq⟩
    · -- a dropped type would have been noted
      rw [hEq] at hKept
      exact absurd hKept (by simp [note])
    · -- the class has this type already
      rw [hOld.eval_eq ht', Ty.eval_eq_of_same hSame]
    · rw [hEq, models_addType hRoot] at hModels
      exact (hOld.representative p).trans hModels.2
  · rintro ⟨hModels, hValue⟩
    exact hModels.record h hValue

-- ---------------------------------------------------------------------------
-- Merging two classes
-- ---------------------------------------------------------------------------

/-- What is true of a merged state, and of the types that were taken out, was
true before, and the two points are equal. -/
theorem Models.of_merge (h : u.WellFormed) {a b : Point}
    (hNe : u.representative a ≠ u.representative b) (hModels : Models node σ (u.merge a b))
    (hPending : ∀ t ∈ u.typesAt (u.representative b), σ a = t.eval node σ) :
    Models node σ u ∧ σ a = σ b := by
  have hRep := merge_representative h.forest a b
  have hTypes := typesAt_merge h hNe
  have hIdem := representative_representative h.forest
  -- every point of the two classes has the value of `a`
  have hClass : ∀ p, u.representative p = u.representative a ∨
      u.representative p = u.representative b → σ p = σ a := by
    intro p hp
    have hValue := hModels.representative p
    rw [hRep, if_pos hp] at hValue
    exact hValue
  refine ⟨⟨fun p => ?_, fun p t ht => ?_⟩, (hClass b (.inr rfl)).symm⟩
  · by_cases hp : u.representative p = u.representative a ∨
        u.representative p = u.representative b
    · rw [hClass p hp, hClass (u.representative p) (by rw [hIdem]; exact hp)]
    · have hValue := hModels.representative p
      rw [hRep, if_neg hp] at hValue
      exact hValue
  · rw [typesOf] at ht
    by_cases hA : u.representative p = u.representative a
    · rw [hClass (u.representative p) (by rw [hIdem]; exact .inl hA)]
      apply hModels.eval_eq
      rw [typesOf, hRep, if_pos (.inl rfl), hTypes, if_pos rfl, ← hA]
      exact ht
    · -- the types of the absorbed class are those that were taken out
      by_cases hB : u.representative p = u.representative b
      · rw [hClass (u.representative p) (by rw [hIdem]; exact .inr hB)]
        exact hPending t (hB ▸ ht)
      · have hOther : ¬ (u.representative p = u.representative a ∨
            u.representative p = u.representative b) := by
          rw [not_or]
          exact ⟨hA, hB⟩
        have hNotTop : u.representative p ≠ a := by
          intro hEq
          rw [← hEq, hIdem] at hA
          exact hA rfl
        have hValue := hModels.types p t
        rw [typesOf, hRep, if_neg hOther, hTypes, if_neg hNotTop, if_neg hOther] at hValue
        exact hValue ht

/-- Points that are equal may be merged. -/
theorem Models.merge (h : u.WellFormed) {a b : Point}
    (hNe : u.representative a ≠ u.representative b) (hModels : Models node σ u)
    (hEq : σ a = σ b) : Models node σ (u.merge a b) := by
  have hRep := merge_representative h.forest a b
  have hTypes := typesAt_merge h hNe
  refine ⟨fun p => ?_, fun p t ht => ?_⟩
  · rw [hRep]
    split
    · rename_i hp
      rw [hModels.representative p]
      rcases hp with hp | hp
      · rw [hp, ← hModels.representative a]
      · rw [hp, ← hModels.representative b, hEq]
    · exact hModels.representative p
  · rw [typesOf, hRep, hTypes] at ht
    rw [hRep]
    split at ht
    · rename_i hp
      rw [if_pos rfl] at ht
      rw [if_pos hp]
      exact hModels.eval_eq ht
    · rename_i hp
      rw [if_neg hp]
      split at ht
      · rename_i hTopmost
        rw [hTopmost]
        exact hModels.eval_eq ht
      · exact hModels.types p t ht

-- ---------------------------------------------------------------------------
-- Solutions in finite trees
-- ---------------------------------------------------------------------------

theorem sizeOf_value_con (σ : Assignment) (tag : Tag) (children : List Ty)
    (emit : Option String) : sizeOf ((Ty.con tag children emit).value σ) =
      1 + sizeOf tag + sizeOf (Ty.evalAll Tree.node σ children) := by
  rw [Ty.value, Ty.eval, Tree.node.sizeOf_spec]

mutual

/-- The tree of a point is part of the tree of a type that mentions it. -/
theorem sizeOf_le_value (σ : Assignment) {p : Point} :
    ∀ t : Ty, p ∈ t.points → sizeOf (σ p) ≤ sizeOf (t.value σ)
  | .point q, hp => by
    rw [Ty.points, List.mem_singleton] at hp
    rw [hp]
    exact Nat.le_refl _
  | .con tag children emit, hp => by
    have hBelow := sizeOf_lt_evalAll σ children hp
    rw [sizeOf_value_con]
    omega

theorem sizeOf_lt_evalAll (σ : Assignment) {p : Point} :
    ∀ ts : List Ty, p ∈ Ty.pointsOfAll ts → sizeOf (σ p) < sizeOf (Ty.evalAll Tree.node σ ts)
  | [], hp => by simp [Ty.pointsOfAll] at hp
  | t :: ts, hp => by
    have hCons : sizeOf (Ty.evalAll Tree.node σ (t :: ts)) =
        1 + sizeOf (t.value σ) + sizeOf (Ty.evalAll Tree.node σ ts) := rfl
    rw [Ty.pointsOfAll, List.mem_append] at hp
    rcases hp with hp | hp
    · have hHead := sizeOf_le_value σ t hp
      omega
    · have hTail := sizeOf_lt_evalAll σ ts hp
      omega

end

/-- Inside a constructed type it is a smaller tree. -/
theorem sizeOf_lt_value {σ : Assignment} {t : Ty} {p : Point} (hCon : ∀ q, t ≠ .point q)
    (hp : p ∈ t.points) : sizeOf (σ p) < sizeOf (t.value σ) := by
  cases t with
  | point q => exact absurd rfl (hCon q)
  | con tag children emit =>
    have hBelow := sizeOf_lt_evalAll σ children hp
    rw [sizeOf_value_con]
    omega

/-- Along a link the trees of a solution get smaller. -/
theorem Solves.sizeOf_lt_of_links {σ : Assignment} (h : u.WellFormed) (hSolves : Solves σ u)
    {r r' : Point} (hLink : u.Links r r') : sizeOf (σ r') < sizeOf (σ r) := by
  obtain ⟨p, hp, rfl⟩ := hLink
  obtain ⟨t, ht, hpt⟩ := mem_pointsAt.mp hp
  obtain ⟨ts, hTypes, -⟩ := mem_typesAt.mp ht
  have hRoot : u.representative r = r := h.root r ts hTypes
  have hValue : σ r = t.value σ := hSolves.eval_eq (by rw [typesOf, hRoot]; exact ht)
  have hCon : ∀ q, t ≠ .point q := by
    rintro q rfl
    exact h.point_not_mem_typesAt r q ht
  rw [← hSolves.representative p, hValue]
  exact sizeOf_lt_value hCon hpt

/-- Nor do they get larger on the way. -/
theorem Solves.sizeOf_le_of_reaches {σ : Assignment} (h : u.WellFormed) (hSolves : Solves σ u)
    {r r' : Point} (hReach : u.Reaches r r') : sizeOf (σ r') ≤ sizeOf (σ r) := by
  induction hReach with
  | refl => exact Nat.le_refl _
  | tail _ hLink ih =>
    have hLess := hSolves.sizeOf_lt_of_links h hLink
    omega

/-- A state that has a solution in finite trees is acyclic. -/
theorem Solves.acyclic {σ : Assignment} (h : u.WellFormed) (hSolves : Solves σ u) :
    u.Acyclic := by
  intro r hCycle
  obtain ⟨r', hLink, hBack⟩ := Relation.TransGen.head'_iff.mp hCycle
  have hLess := hSolves.sizeOf_lt_of_links h hLink
  have hLe := hSolves.sizeOf_le_of_reaches h hBack
  omega

/-- **Where there is a solution, nothing is dropped**: a class that has the value
of a constructed type does not occur in it. -/
theorem Solves.not_occurs {σ : Assignment} (h : u.WellFormed) (hSolves : Solves σ u) {r : Point}
    {t : Ty} (hCon : ∀ q, t ≠ .point q) (hValue : σ r = t.value σ) : u.occurs r t = false := by
  rw [← Bool.not_eq_true, occurs_iff]
  rintro ⟨p, hp, hReach⟩
  have hLe := hSolves.sizeOf_le_of_reaches h hReach
  have hLess := sizeOf_lt_value (σ := σ) hCon hp
  rw [← hSolves.representative p, hValue] at hLe
  -- the tree of `r` would have itself as a proper part
  omega

end Unification

end TraitInference
