import TraitInference.Proofs.Later

/-!
# TraitInference — conflicts are exposed

When a conflict is found below a point, both of the types that disagree are recorded on
the point, so the state cannot be solved any more: **as long as no type is dropped, a
state in which a solution is left has seen no conflict**, except between two types that
were both constructed, where there is no point to record anything on.

This holds for values of any kind, finite or not, provided that they differ when their
tags or their children do (`Unifier.Exposes`). So the calls below a level, which may have
found a conflict, are used through two facts: what solves the state after them solved
the state before, and the two types had one value exactly if there was no conflict.
-/

namespace TraitInference

namespace Unification

variable {u u' : Unification} {allowed : Unification → Point → Point → Prop}

-- ---------------------------------------------------------------------------
-- Nothing dropped
-- ---------------------------------------------------------------------------

/-- What was dropped stays dropped. -/
theorem Steps.noDrop (h : Steps allowed u u') (hNoDrop : u'.hasDropped = false) :
    u.hasDropped = false := by
  obtain ⟨notes, hNotes⟩ := Steps.reports h
  rw [hNotes.hasDropped, Bool.or_eq_false_iff] at hNoDrop
  exact hNoDrop.2

section Values

variable {A : Type} {node : Tag → List A → A} {σ : Point → A}

/-- A type that is not dropped is a value of its class. -/
theorem Models.of_record_noDrop (h : u.WellFormed) {p : Point} {t : Ty}
    (hNoDrop : (u.record p t).hasDropped = false) (hModels : Models node σ (u.record p t)) :
    Models node σ u ∧ σ p = t.eval node σ := by
  rcases reports_record u p t with hNotes | hNotes
  · exact (models_record h hNotes.journal).mp hModels
  · rw [hNotes.hasDropped] at hNoDrop
    cases hNoDrop

/-- Two types recorded on one point have one value. -/
theorem Models.of_recordBoth (h : u.WellFormed) {t t' side : Ty} (ht : ∀ q, t ≠ .point q)
    (ht' : ∀ q, t' ≠ .point q) (hNoDrop : (u.recordBoth t t' side).hasDropped = false)
    (hModels : Models node σ (u.recordBoth t t' side)) :
    u.hasDropped = false ∧ Models node σ u ∧
      ∀ p, side = .point p → t.eval node σ = t'.eval node σ := by
  have hSteps : Steps (fun _ _ _ => True) u (u.recordBoth t t' side) :=
    steps_recordBoth u ht ht' side
  refine ⟨hSteps.noDrop hNoDrop, ?_⟩
  cases side with
  | con => exact ⟨hModels, fun p hp => by cases hp⟩
  | point p =>
    have hSecond : Steps (fun _ _ _ => True) (u.record p t) ((u.record p t).record p t') :=
      .single (.record _ p ht')
    obtain ⟨hModels', hValue'⟩ := hModels.of_record_noDrop (h.record p ht) hNoDrop
    obtain ⟨hModels'', hValue⟩ := hModels'.of_record_noDrop h (hSecond.noDrop hNoDrop)
    exact ⟨hModels'', fun _ _ => hValue.symm.trans hValue'⟩

end Values

-- ---------------------------------------------------------------------------
-- One level of unification
-- ---------------------------------------------------------------------------

/-- Unless something was dropped, what solves the state after `f` solved the state
before; its two types have one value exactly if `f` finds no conflict; and it finds one
only between constructed types. -/
def Unifier.Exposes (f : Unifier) : Prop :=
  ∀ left right u conflict u', u.WellFormed → f left right u = some (conflict, u') →
    u'.hasDropped = false → ∀ (A : Type) (node : Tag → List A → A) (σ : Point → A),
    Function.Injective2 node → Models node σ u' →
    Models node σ u ∧ (left.eval node σ = right.eval node σ ↔ conflict = false) ∧
      (conflict = true → ∀ p, left ≠ .point p ∧ right ≠ .point p)

variable {A : Type} {node : Tag → List A → A} {σ : Point → A}

/-- A row of calls, by induction on it: a conflict in the row is one of its pairs. -/
theorem unifyEach_exposes {f : Unifier} (hSteps : f.StepsBy allowed) (hf : f.Exposes)
    (hNode : Function.Injective2 node) (pairs : List (Ty × Ty)) {u u' : Unification}
    {conflict : Bool} (h : u.WellFormed) (hRun : unifyEach f pairs u = some (conflict, u'))
    (hNoDrop : u'.hasDropped = false) (hModels : Models node σ u') :
    Models node σ u ∧
      ((∀ pair ∈ pairs, pair.1.eval node σ = pair.2.eval node σ) ↔ conflict = false) ∧
      (conflict = true → ∃ pair ∈ pairs, ∀ p, pair.1 ≠ .point p) := by
  induction pairs generalizing u conflict with
  | nil =>
    obtain ⟨rfl, rfl⟩ := unifyEach_nil_iff.mp hRun
    exact ⟨hModels, by simp, fun hConflict => by cases hConflict⟩
  | cons pair rest ih =>
    obtain ⟨left, right⟩ := pair
    obtain ⟨c, v, c', hFirst, hLater, rfl⟩ := unifyEach_cons_iff.mp hRun
    have hFormed := h.steps (hSteps _ _ _ _ _ h hFirst)
    have hNoDrop' := Steps.noDrop (unifyEach_steps hSteps rest hFormed hLater) hNoDrop
    obtain ⟨hModels', hRest, hLow⟩ := ih hFormed hLater
    obtain ⟨hModels'', hHead, hHigh⟩ := hf _ _ _ _ _ h hFirst hNoDrop' A node σ hNode hModels'
    refine ⟨hModels'', ?_, fun hConflict => ?_⟩
    · rw [List.forall_mem_cons, hHead, hRest, Bool.or_eq_false_iff]
    · rcases Bool.or_eq_true_iff.mp hConflict with hc | hc'
      · exact ⟨_, List.mem_cons_self, fun p => (hHigh hc p).1⟩
      · obtain ⟨pair, hPair, hCon⟩ := hLow hc'
        exact ⟨pair, List.mem_cons_of_mem _ hPair, hCon⟩

/-- Types with different tags have different values, and so have those with as many children
if a pair of these has. -/
theorem unifyParts_exposes {f : Unifier} (hSteps : f.StepsBy allowed) (hf : f.Exposes)
    (hNode : Function.Injective2 node) {tag tag' : Tag} {children children' : List Ty}
    (emit emit' : Option String) {conflict : Bool} (h : u.WellFormed)
    (hRun : unifyParts f tag children tag' children' u = some (conflict, u'))
    (hNoDrop : u'.hasDropped = false) (hModels : Models node σ u') :
    Models node σ u ∧ ((Ty.con tag children emit).eval node σ =
      (Ty.con tag' children' emit').eval node σ ↔ conflict = false) := by
  rw [Ty.eval_con_eq_iff hNode]
  unfold unifyParts at hRun
  split at hRun
  · rename_i hParts
    obtain ⟨hModels', hPairs, -⟩ :=
      unifyEach_exposes hSteps hf hNode _ h hRun hNoDrop hModels
    exact ⟨hModels', by rw [and_iff_right hParts, hPairs]⟩
  · -- the tags or the numbers of children disagree
    rename_i hParts
    obtain ⟨rfl, rfl⟩ := Prod.mk.inj (Option.some.inj hRun)
    exact ⟨(models_note _).mp hModels, by simp [hParts]⟩

/-- One level, one case for each way it can go. -/
theorem Level.exposes {f : Unifier} (hSteps : f.StepsBy allowed) (hf : f.Exposes)
    (hNode : Function.Injective2 node) {left right : Ty} {conflict : Bool} (h : u.WellFormed)
    (hLevel : Level f u left right (conflict, u')) (hNoDrop : u'.hasDropped = false)
    (hModels : Models node σ u') :
    Models node σ u ∧ (left.eval node σ = right.eval node σ ↔ conflict = false) ∧
      (conflict = true → ∀ p, left ≠ .point p ∧ right ≠ .point p) := by
  have hAgrees := agrees_touch h left right
  have hFormed := h.touch left right
  cases hLevel with
  | same hSame =>
    exact ⟨hModels, by simp [Ty.eval_eq_of_same hSame], fun hConflict => by cases hConflict⟩
  | @joined a b hRoots =>
    have hModels' := hAgrees.models_iff.mp hModels
    have hEqual : σ a = σ b := by
      rw [hModels'.representative a, hRoots, ← hModels'.representative b]
    exact ⟨hModels', by simp [Ty.eval, hEqual], fun hConflict => by cases hConflict⟩
  | @merged a b _ hNe hRest =>
    have hNe' := touch_representative_ne h (.point a) (.point b) hNe
    obtain ⟨hMerged, hPairs, hLow⟩ := unifyEach_exposes hSteps hf hNode _ (hFormed.merge hNe')
      hRest hNoDrop hModels
    -- every pair has the surviving point on its left, so there was no conflict
    have hQuiet : conflict = false := by
      rw [← Bool.not_eq_true]
      intro hConflict
      obtain ⟨pair, hPair, hCon⟩ := hLow hConflict
      obtain ⟨t, -, rfl⟩ := List.mem_map.mp hPair
      exact hCon a rfl
    have hPending : ∀ t ∈ (u.touch (.point a) (.point b)).typesAt
        ((u.touch (.point a) (.point b)).representative b), σ a = t.eval node σ := by
      intro t ht
      rw [hAgrees.representative, hAgrees.typesAt] at ht
      exact hPairs.mpr hQuiet _ (List.mem_map_of_mem ht)
    obtain ⟨hBefore, hEqual⟩ := hMerged.of_merge hFormed hNe' hPending
    exact ⟨hAgrees.models_iff.mp hBefore, by simp [Ty.eval, hEqual, hQuiet], by simp [hQuiet]⟩
  | @pinned _ _ t p hSides _ _ =>
    obtain ⟨hBefore, hValue⟩ := hModels.of_record_noDrop hFormed hNoDrop
    have hModels' := hAgrees.models_iff.mp hBefore
    have hEqual : σ p = t.eval node σ := (hModels'.representative p).trans hValue
    refine ⟨hModels', ?_, fun hConflict => by cases hConflict⟩
    rcases hSides with ⟨rfl, rfl⟩ | ⟨rfl, rfl⟩ <;> simp [Ty.eval, hEqual]
  | @compared _ _ _ _ _ _ emit emit' _ hLeft hRight hParts =>
    obtain ⟨hBefore, hKnown⟩ := unifyParts_exposes hSteps hf hNode emit emit' hFormed hParts
      hNoDrop hModels
    have hModels' := hAgrees.models_iff.mp hBefore
    refine ⟨hModels', ?_, fun hConflict => by cases hConflict⟩
    rw [hModels'.eval_known hLeft, hModels'.eval_known hRight, hKnown]
  | @clashed _ _ tag tag' children children' emit emit' v hLeft hRight hParts =>
    have hBelow : v.WellFormed := hFormed.steps (unifyParts_steps hSteps hFormed hParts)
    have hOnLeft : Steps allowed v
        (v.recordBoth (.con tag children emit) (.con tag' children' emit') left) :=
      steps_recordBoth v (by simp) (by simp) left
    obtain ⟨hNoDrop', hAfterLeft, hRightPoint⟩ := hModels.of_recordBoth (hBelow.steps hOnLeft)
      (by simp) (by simp) hNoDrop
    obtain ⟨hNoDrop'', hAfterParts, hLeftPoint⟩ := hAfterLeft.of_recordBoth hBelow
      (by simp) (by simp) hNoDrop'
    obtain ⟨hBefore, hKnown⟩ := unifyParts_exposes hSteps hf hNode emit emit' hFormed hParts
      hNoDrop'' hAfterParts
    have hModels' := hAgrees.models_iff.mp hBefore
    -- a point on either side would have been given both types
    refine ⟨hModels', ?_, fun _ p => ⟨fun hp => ?_, fun hp => ?_⟩⟩
    · rw [hModels'.eval_known hLeft, hModels'.eval_known hRight, hKnown]
    · cases hKnown.mp (hLeftPoint p hp)
    · cases hKnown.mp (hRightPoint p hp)

/-- And all levels. -/
theorem unifyWithin_exposes (fuel : Nat) : (unifyWithin fuel).Exposes := by
  induction fuel with
  | zero =>
    intro left right u conflict u' _ hRun
    simp [unifyWithin] at hRun
  | succ fuel ih =>
    intro left right u conflict u' h hRun hNoDrop A node σ hNode hModels
    exact (unifyStep_level h hRun).exposes (unifyWithin_steps fuel) ih hNode h hNoDrop hModels

/-- **A call that drops nothing and leaves a solution has found no conflict**, if it was
about a point; and what it leaves was a solution before. -/
theorem Reachable.exposes_unify (hu : u.Reachable) {fuel : Nat} {left right : Ty}
    {notes : List Note} (hRun : u.unify fuel left right = some (notes, u'))
    (hNoDrop : u'.hasDropped = false) (hNode : Function.Injective2 node)
    (hModels : Models node σ u') :
    Models node σ u ∧ ((∃ p, left = .point p) → u'.hasError = u.hasError) := by
  obtain ⟨conflict, v, hWithin, -, rfl⟩ := unify_eq_some_iff.mp hRun
  obtain ⟨hBefore, -, hCon⟩ := unifyWithin_exposes fuel _ _ _ _ _ hu.wellFormed hWithin hNoDrop
    A node σ hNode ⟨hModels.representative, hModels.types⟩
  refine ⟨hBefore, ?_⟩
  rintro ⟨p, rfl⟩
  have hQuiet : conflict = false := by
    rw [← Bool.not_eq_true]
    exact fun hConflict => (hCon hConflict p).1 rfl
  obtain ⟨noted, hNotes, hTells⟩ :=
    unifyWithin_tellsConflicts fuel _ _ _ _ _ hu.wellFormed hWithin
  show v.hasError = u.hasError
  rw [hNotes.hasError, hTells, hQuiet, Bool.false_or]

end Unification

end TraitInference
