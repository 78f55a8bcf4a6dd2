import TraitInference.Proofs.Steps

/-!
# TraitInference — what unification keeps

Classes only grow: points that share one share it ever after (`Steps.joined`). Types are
another matter. A merge takes the types of the absorbed class out of the table and puts
them back one by one, each through unification with the surviving class. If that class is
open, the first of them goes through the occurs check, and if the survivor occurs in it,
it is dropped, although it was no recursive type before. So a point that has a type keeps
one, except where the call reports that it dropped a type for the class of that point:

* `Unifier.Persists` — what is known of the calls below a level: a point that has a type,
  or is given a constructed one, has a type afterwards, or one was dropped for its class.
* `unify_keeps_typed` — the same for whole calls.
* `merge_drops_only_type` — the shortest sequence of calls after which a point that had a
  type has none.
-/

namespace TraitInference.Unification

variable {u u' u'' : Unification} {allowed : Unification → Point → Point → Prop}

-- ---------------------------------------------------------------------------
-- Classes
-- ---------------------------------------------------------------------------

/-- Recording a type changes no class. -/
theorem record_representative (h : u.classes.IsForest) (p : Point) (t : Ty) (q : Point) :
    (u.record p t).representative q = u.representative q := by
  rcases record_cases u p t with ⟨-, hEq⟩ | ⟨-, -, hEq⟩ | ⟨-, -, hEq⟩ <;>
    · rw [hEq]
      exact find_representative h p q

theorem Step.joined (h : u.WellFormed) (hStep : Step allowed u u') {p q : Point}
    (hJoined : u.representative p = u.representative q) :
    u'.representative p = u'.representative q := by
  cases hStep with
  | find x => rw [find_representative h.forest, find_representative h.forest, hJoined]
  | note n => exact hJoined
  | record x _ => rw [record_representative h.forest, record_representative h.forest, hJoined]
  | merge _ _ => rw [merge_representative h.forest, merge_representative h.forest, hJoined]

/-- **Classes only grow.** -/
theorem Steps.joined (h : u.WellFormed) (hSteps : Steps allowed u u') {p q : Point}
    (hJoined : u.representative p = u.representative q) :
    u'.representative p = u'.representative q := by
  induction hSteps with
  | refl => exact hJoined
  | tail hBefore hStep ih => exact hStep.joined (h.steps hBefore) ih

-- ---------------------------------------------------------------------------
-- Types
-- ---------------------------------------------------------------------------

/-- The class of the point has a type. -/
def Typed (u : Unification) (p : Point) : Prop :=
  u.typesOf p ≠ []

/-- According to the notes, a type was dropped for what is now the class of the point. -/
def DroppedFor (u : Unification) (notes : List Note) (p : Point) : Prop :=
  ∃ r, .recursive r ∈ notes ∧ u.representative r = u.representative p

theorem Agrees.typed_iff (h : Agrees u u') {p : Point} : u'.Typed p ↔ u.Typed p := by
  unfold Typed typesOf
  rw [h.representative, h.typesAt]

/-- Points of one class are typed together. -/
theorem Typed.congr {p q : Point} (h : u.Typed p)
    (hJoined : u.representative p = u.representative q) :
    u.Typed q := by
  unfold Typed typesOf at h ⊢
  exact hJoined ▸ h

/-- A point of which a type is known is typed. -/
theorem Knows.typed {p : Point} {t : Ty} (h : u.Knows (.point p) t) : u.Typed p := by
  cases h with
  | point hHead =>
    intro hOpen
    rw [typesOf] at hOpen
    simp [hOpen] at hHead

/-- A class has the type that is added to it. -/
theorem typed_addType {r p : Point} (hRoot : u.representative p = r) (t : Ty) :
    (u.addType r t).Typed p := by
  show (u.addType r t).typesAt (u.representative p) ≠ []
  rw [typesAt_addType, if_pos hRoot]
  simp

/-- Recording a type takes none away. -/
theorem Typed.record (hFormed : u.WellFormed) {q : Point} (h : u.Typed q) (p : Point) (t : Ty) :
    (u.record p t).Typed q := by
  have hAgrees := agrees_find hFormed.forest p
  have hFind : (u.find p).2.Typed q := hAgrees.typed_iff.mpr h
  rcases record_cases u p t with ⟨-, hEq⟩ | ⟨-, -, hEq⟩ | ⟨-, -, hEq⟩
  · rw [hEq]
    exact hFind
  · rw [hEq]
    exact hFind
  · rw [hEq]
    by_cases hRoot : (u.find p).2.representative q = u.representative p
    · exact typed_addType hRoot t
    · show ((u.find p).2.addType _ t).typesAt ((u.find p).2.representative q) ≠ []
      rw [typesAt_addType, if_neg hRoot]
      exact hFind

/-- Without a merge no type is taken away. -/
theorem Steps.typed (h : u.WellFormed) (hSteps : Steps (fun _ _ _ => False) u u') {p : Point}
    (hTyped : u.Typed p) : u'.Typed p := by
  induction hSteps with
  | refl => exact hTyped
  | tail hBefore hStep ih =>
    have hFormed := h.steps hBefore
    cases hStep with
    | find x => exact (agrees_find hFormed.forest x).typed_iff.mpr ih
    | note n => exact ih
    | record x _ => exact ih.record hFormed x _
    | merge _ hNever => exact hNever.elim

-- ---------------------------------------------------------------------------
-- What a sequence of calls accounts for
-- ---------------------------------------------------------------------------

/-- From `u` to `u'` exactly `notes` were reported, and every point that had a type, or of
which `given` holds, has one now, unless one was dropped for its class. -/
structure Persists (u : Unification) (notes : List Note) (given : Point → Prop)
    (u' : Unification) : Prop where
  journal : u'.journal = notes ++ u.journal
  joined  : ∀ {p q}, u.representative p = u.representative q →
    u'.representative p = u'.representative q
  typed   : ∀ p, u.Typed p ∨ given p → u'.Typed p ∨ u'.DroppedFor notes p

variable {notes notes' : List Note} {given given' : Point → Prop}

/-- Less may be given than is accounted for. -/
theorem Persists.mono (h : Persists u notes given u')
    (hGiven : ∀ p, given' p → u.Typed p ∨ given p) :
    Persists u notes given' u' :=
  ⟨h.journal, h.joined, fun p hp => h.typed p (hp.elim .inl (hGiven p))⟩

/-- What is accounted for twice in a row is accounted for as a whole. -/
theorem Persists.trans (h : Persists u notes given u') (h' : Persists u' notes' given' u'') :
    Persists u (notes' ++ notes) (fun p => given p ∨ given' p) u'' where
  journal := by rw [h'.journal, h.journal, List.append_assoc]
  joined hJoined := h'.joined (h.joined hJoined)
  typed p hp := by
    -- a type that is there after the first part is followed through the second one
    have hSecond : u'.Typed p ∨ given' p →
        u''.Typed p ∨ u''.DroppedFor (notes' ++ notes) p := fun hp' =>
      (h'.typed p hp').imp_right fun ⟨r, hr, hClass⟩ => ⟨r, List.mem_append_left _ hr, hClass⟩
    have hFirst : u.Typed p ∨ given p → u''.Typed p ∨ u''.DroppedFor (notes' ++ notes) p := by
      intro hp'
      rcases h.typed p hp' with hTyped | ⟨r, hr, hClass⟩
      · exact hSecond (.inl hTyped)
      · exact .inr ⟨r, List.mem_append_right _ hr, h'.joined hClass⟩
    rcases hp with hTyped | hGiven | hGiven'
    · exact hFirst (.inl hTyped)
    · exact hFirst (.inr hGiven)
    · exact hSecond (.inr hGiven')

/-- Without a merge, only what is reported has to be known. -/
theorem persists_of_steps (h : u.WellFormed) (hSteps : Steps (fun _ _ _ => False) u u') :
    ∃ notes, Persists u notes (fun _ => False) u' := by
  obtain ⟨notes, hNotes⟩ := Steps.reports hSteps
  refine ⟨notes, hNotes.journal, Steps.joined h hSteps, fun p hp => .inl ?_⟩
  exact Steps.typed h hSteps (hp.resolve_right id)

/-- A type that is recorded for a class is there afterwards, or was dropped. -/
theorem persists_record (h : u.WellFormed) (p : Point) (t : Ty) :
    ∃ notes, Persists u notes (fun q => u.representative q = u.representative p)
      (u.record p t) := by
  have hJoined : ∀ {q q'}, u.representative q = u.representative q' →
      (u.record p t).representative q = (u.record p t).representative q' := by
    intro q q' hEq
    rw [record_representative h.forest, record_representative h.forest, hEq]
  have hForest := h.forest
  have hSelf : (u.record p t).representative (u.representative p) = u.representative p := by
    rw [record_representative hForest, representative_representative hForest]
  rcases record_cases u p t with ⟨-, hEq⟩ | ⟨-, ⟨t', ht', -⟩, hEq⟩ | ⟨-, -, hEq⟩
  · refine ⟨[.recursive (u.representative p)], by rw [hEq]; rfl, hJoined, fun q hq => ?_⟩
    refine hq.imp (fun hTyped => hTyped.record h p t) fun hClass => ⟨_, List.mem_cons_self, ?_⟩
    rw [hSelf, record_representative hForest, hClass]
  · refine ⟨[], by rw [hEq]; rfl, hJoined, fun q hq => .inl ?_⟩
    have hTyped : u.Typed p := List.ne_nil_of_mem ht'
    exact (hq.elim id fun hClass => hTyped.congr hClass.symm).record h p t
  · refine ⟨[], by rw [hEq]; rfl, hJoined, fun q hq => .inl ?_⟩
    rcases hq with hTyped | hClass
    · exact hTyped.record h p t
    · rw [hEq]
      exact typed_addType ((find_representative hForest p q).trans hClass) t

/-- The points to which the pairs give a constructed type. -/
def Given (pairs : List (Ty × Ty)) (p : Point) : Prop :=
  ∃ t, (.point p, t) ∈ pairs ∧ ∀ q, t ≠ .point q

/-- Whatever `f` does, points with types, and the point to which it gives one, are
accounted for. -/
def Unifier.Persists (f : Unifier) : Prop :=
  ∀ left right u conflict u', u.WellFormed → f left right u = some (conflict, u') →
    ∃ notes, Unification.Persists u notes (Given [(left, right)]) u'

/-- One pair after another. -/
theorem unifyEach_persists {f : Unifier} (hSteps : f.StepsBy allowed) (hf : f.Persists)
    (pairs : List (Ty × Ty)) {u u' : Unification} {conflict : Bool} (h : u.WellFormed)
    (hRun : unifyEach f pairs u = some (conflict, u')) :
    ∃ notes, Persists u notes (Given pairs) u' := by
  induction pairs generalizing u conflict with
  | nil =>
    obtain ⟨-, rfl⟩ := unifyEach_nil_iff.mp hRun
    refine ⟨[], rfl, id, fun p hp => .inl (hp.resolve_right ?_)⟩
    rintro ⟨t, ht, -⟩
    exact absurd ht List.not_mem_nil
  | cons pair rest ih =>
    obtain ⟨left, right⟩ := pair
    obtain ⟨c, v, c', hFirst, hLater, -⟩ := unifyEach_cons_iff.mp hRun
    obtain ⟨notes, hNotes⟩ := hf _ _ _ _ _ h hFirst
    obtain ⟨notes', hNotes'⟩ := ih (h.steps (hSteps _ _ _ _ _ h hFirst)) hLater
    refine ⟨_, (hNotes.trans hNotes').mono ?_⟩
    rintro p ⟨t, ht, hCon⟩
    rcases List.mem_cons.mp ht with hHead | hTail
    · exact .inr (.inl ⟨t, List.mem_singleton.mpr hHead, hCon⟩)
    · exact .inr (.inr ⟨t, hTail, hCon⟩)

/-- Two constructed types, or a note that they differ. -/
theorem unifyParts_persists {f : Unifier} (hSteps : f.StepsBy allowed) (hf : f.Persists)
    {tag tag' : Tag} {children children' : List Ty} {conflict : Bool} (h : u.WellFormed)
    (hRun : unifyParts f tag children tag' children' u = some (conflict, u')) :
    ∃ notes, Persists u notes (fun _ => False) u' := by
  unfold unifyParts at hRun
  split at hRun
  · obtain ⟨notes, hNotes⟩ := unifyEach_persists hSteps hf _ h hRun
    exact ⟨notes, hNotes.mono fun _ => False.elim⟩
  · obtain ⟨-, rfl⟩ := Prod.mk.inj (Option.some.inj hRun)
    exact persists_of_steps h (.single (.note u _))

/-- After a merge a point has the types that its class had, or it is in the class that
was absorbed by an open one. -/
theorem typed_merge (h : u.WellFormed) {a b p : Point}
    (hNe : u.representative a ≠ u.representative b) (hTyped : u.Typed p) :
    (u.merge a b).Typed p ∨
      (u.merge a b).representative p = (u.merge a b).representative a ∧ u.Typed b := by
  have hTop : (u.merge a b).representative a = a := by
    rw [merge_representative h.forest, if_pos (.inl rfl)]
  unfold Typed typesOf at hTyped ⊢
  rw [hTop, merge_representative h.forest]
  split
  · rename_i hClass
    rcases hClass with hA | hB
    · left
      rw [typesAt_merge h hNe, if_pos rfl, ← hA]
      exact hTyped
    · exact .inr ⟨rfl, hB ▸ hTyped⟩
  · rename_i hClass
    left
    have hOther : u.representative p ≠ a := by
      rintro rfl
      exact hClass (.inl (representative_representative h.forest p).symm)
    rw [typesAt_merge h hNe, if_neg hOther, if_neg hClass]
    exact hTyped

/-- One level of a unification, case by case. -/
theorem Level.persists {f : Unifier} (hSteps : f.StepsBy allowed) (hf : f.Persists)
    {left right : Ty} {conflict : Bool} (h : u.WellFormed)
    (hLevel : Level f u left right (conflict, u')) :
    ∃ notes, Persists u notes (Given [(left, right)]) u' := by
  have hFormed := h.touch left right
  obtain ⟨before, hBefore⟩ := persists_of_steps h (steps_touch u left right)
  -- at this level a type is given to `left`, if that is a point and `right` is none
  have hGiven : ∀ {p}, Given [(left, right)] p → left = .point p ∧ ∀ q, right ≠ .point q := by
    rintro p ⟨t, ht, hCon⟩
    obtain ⟨rfl, rfl⟩ := Prod.mk.inj (List.mem_singleton.mp ht)
    exact ⟨rfl, hCon⟩
  -- a side of which the type is known needs no new one
  have hKnown : ∀ {t}, u.Knows left t → ∀ p, Given [(left, right)] p → u.Typed p := by
    intro t hLeft p hp
    obtain ⟨rfl, -⟩ := hGiven hp
    exact hLeft.typed
  cases hLevel with
  | same hSame =>
    refine ⟨[], rfl, id, fun p hp => .inl (hp.resolve_right fun hNew => ?_)⟩
    obtain ⟨rfl, hCon⟩ := hGiven hNew
    cases right with
    | point q => exact hCon q rfl
    | con => simp [Ty.same] at hSame
  | joined hRoots => exact ⟨before, hBefore.mono fun p hp => absurd rfl ((hGiven hp).2 _)⟩
  | @merged a b _ hNe hRest =>
    have hNe' := touch_representative_ne h (.point a) (.point b) hNe
    obtain ⟨notes, hNotes⟩ := unifyEach_persists hSteps hf _ (hFormed.merge hNe') hRest
    have hAgrees := agrees_touch h (.point a) (.point b)
    refine ⟨notes, ?_, fun hJoined => hNotes.joined ?_, fun p hp => ?_⟩
    · rw [hNotes.journal]
      exact congrArg (notes ++ ·) hAgrees.journal
    · rw [merge_representative hFormed.forest, merge_representative hFormed.forest,
        hBefore.joined hJoined]
    · have hTyped : u.Typed p := hp.resolve_right fun hNew => absurd rfl ((hGiven hNew).2 b)
      rcases typed_merge hFormed hNe' (hAgrees.typed_iff.mpr hTyped) with hKept | ⟨hClass, hTypes⟩
      · exact hNotes.typed p (.inl hKept)
      · -- the types of the absorbed class are given to `a`, and `p` is now in its class
        obtain ⟨t, ht⟩ := List.exists_mem_of_ne_nil _ (hAgrees.typed_iff.mp hTypes)
        have hCon : ∀ q, t ≠ .point q := by
          rintro q rfl
          exact h.point_not_mem_typesAt _ q ht
        have hEnd := hNotes.joined hClass
        rcases hNotes.typed a (.inr ⟨t, List.mem_map_of_mem ht, hCon⟩) with hA | ⟨r, hr, hSame⟩
        · exact .inl (hA.congr hEnd.symm)
        · exact .inr ⟨r, hr, hSame.trans hEnd.symm⟩
  | @pinned _ _ t p hSides hCon _ =>
    obtain ⟨notes, hNotes⟩ := persists_record hFormed (u.representative p) t
    refine ⟨_, (hBefore.trans hNotes).mono fun q hq => .inr (.inr ?_)⟩
    obtain ⟨hLeft, -⟩ := hGiven hq
    have hAgrees := agrees_touch h left right
    rcases hSides with ⟨hSide, -⟩ | ⟨hSide, -⟩
    · obtain rfl := Ty.point.inj (hSide.symm.trans hLeft)
      rw [hAgrees.representative, hAgrees.representative, representative_representative h.forest]
    · exact absurd (hSide.symm.trans hLeft) (hCon q)
  | compared hLeft _ hParts =>
    obtain ⟨notes, hNotes⟩ := unifyParts_persists hSteps hf hFormed hParts
    exact ⟨_, (hBefore.trans hNotes).mono fun p hp => .inl (hKnown hLeft p hp)⟩
  | @clashed _ _ tag tag' children children' emit emit' v hLeft _ hParts =>
    obtain ⟨notes, hNotes⟩ := unifyParts_persists hSteps hf hFormed hParts
    have hRecorded : Steps (fun _ _ _ => False) v
        ((v.recordBoth (.con tag children emit) (.con tag' children' emit') left).recordBoth
          (.con tag children emit) (.con tag' children' emit') right) :=
      (steps_recordBoth v (by simp) (by simp) left).trans
        (steps_recordBoth _ (by simp) (by simp) right)
    obtain ⟨after, hAfter⟩ := persists_of_steps
      (hFormed.steps (unifyParts_steps hSteps hFormed hParts)) hRecorded
    exact ⟨_, ((hBefore.trans hNotes).trans hAfter).mono fun p hp => .inl (hKnown hLeft p hp)⟩

/-- All levels, by induction on the fuel. -/
theorem unifyWithin_persists (fuel : Nat) : (unifyWithin fuel).Persists := by
  induction fuel with
  | zero =>
    intro left right u conflict u' _ hRun
    simp [unifyWithin] at hRun
  | succ fuel ih =>
    intro left right u conflict u' h hRun
    exact (unifyStep_level h hRun).persists (unifyWithin_steps fuel) ih h

-- ---------------------------------------------------------------------------
-- Calls of unification
-- ---------------------------------------------------------------------------

/--
**A point that has a type keeps one, unless a type is dropped for its class.** For every
call from a reachable state that ends:

* points that shared a class before share one after;
* a point whose class had a type before has a class with a type after, or the call
  reports that the occurs check dropped a type for that class.
-/
theorem unify_keeps_typed (hu : u.Reachable) {fuel : Nat} {left right : Ty} {notes : List Note}
    (hRun : u.unify fuel left right = some (notes, u')) :
    (∀ p q, u.representative p = u.representative q → u'.representative p = u'.representative q) ∧
    ∀ p, u.typesOf p ≠ [] → u'.typesOf p ≠ [] ∨
      ∃ r, .recursive r ∈ notes ∧ u'.representative r = u'.representative p := by
  obtain ⟨conflict, v, hWithin, rfl, rfl⟩ := unify_eq_some_iff.mp hRun
  obtain ⟨notes, hNotes⟩ := unifyWithin_persists fuel _ _ _ _ _ hu.wellFormed hWithin
  have hJournal : v.journal = notes := by
    rw [hNotes.journal, hu.journal_eq_nil, List.append_nil]
  refine ⟨fun p q => hNotes.joined, fun p hTyped => ?_⟩
  rcases hNotes.typed p (.inl hTyped) with hTyped' | ⟨r, hr, hClass⟩
  · exact .inl hTyped'
  · exact .inr ⟨r, List.mem_reverse.mpr (hJournal ▸ hr), hClass⟩

/-- The class of point 0, which is a list of point 1, is absorbed by that of point 2, which
is open: the type is put back. -/
theorem unify_keeps_typed_absorbed :
    ∃ u u' : Unification, u.Reachable ∧
      u.unify 3 (.point ⟨2⟩) (.point ⟨0⟩) = some ([], u') ∧
      u.typesOf ⟨0⟩ ≠ [] ∧ u'.typesOf ⟨0⟩ ≠ [] := by
  have hFirst : ({} : Unification).unify 2 (.point ⟨0⟩) (.con (.named ⟨5⟩) [.point ⟨1⟩] none) =
      some ([], _) := rfl
  have hReachable := Reachable.unify .empty hFirst
  have hKeeps := @unify_keeps_typed _ _ hReachable 3 (.point ⟨2⟩) (.point ⟨0⟩) [] rfl
  refine ⟨_, _, hReachable, rfl, by decide, ?_⟩
  rcases hKeeps.2 ⟨0⟩ (by decide) with hTyped | ⟨r, hr, -⟩
  · exact hTyped
  · exact absurd hr List.not_mem_nil

/-- Point 0 is a list of point 1. Made equal to point 1, it has no type any more: the only
type of the absorbed class contains the survivor and is dropped. -/
theorem merge_drops_only_type :
    ∃ u u' : Unification, u.Reachable ∧
      u.unify 3 (.point ⟨1⟩) (.point ⟨0⟩) = some ([.recursive ⟨1⟩], u') ∧
      u.typesOf ⟨0⟩ = [.con (.named ⟨5⟩) [.point ⟨1⟩] none] ∧ u'.typesOf ⟨0⟩ = [] := by
  have hFirst : ({} : Unification).unify 2 (.point ⟨0⟩) (.con (.named ⟨5⟩) [.point ⟨1⟩] none) =
      some ([], _) := rfl
  exact ⟨_, _, .unify .empty hFirst, rfl, rfl, rfl⟩

end TraitInference.Unification
