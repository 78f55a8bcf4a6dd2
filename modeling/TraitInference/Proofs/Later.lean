import TraitInference.Proofs.NormalForm
import TraitInference.Proofs.Solutions

/-!
# TraitInference — what later states know

A session goes from state to state by unifying types, looking points up, keeping
substitutions for the end, and by trying things out on a fork that is then
committed. `Later u u'` says what each of these keeps, so that whatever was
established early on can be read off the last state:

* flags that are up stay up, and kept substitutions stay where they are;
* if both flags are down in the end, every solution of `u'` solves `u`, so what
  `u` entails is still entailed (`Later.entails`);
* unless a conflict was found, no class gets a second type.

A fork starts with its flags down and so is not later than its origin, but the
state into which it is committed is (`Later.commit`).
-/

namespace TraitInference.Unification

variable {u u' u'' branch : Unification} {allowed : Unification → Point → Point → Prop}

-- ---------------------------------------------------------------------------
-- A second type comes with a conflict
-- ---------------------------------------------------------------------------

/-- Only the types matter. -/
theorem Single.congr (h : u.Single) (hTypes : u'.types = u.types) : u'.Single := by
  intro r
  rw [typesAt, hTypes]
  exact h r

/-- A merge takes the types of one class out before the other gets any. -/
theorem Single.merge (hFormed : u.WellFormed) (h : u.Single) {a b : Point}
    (hNe : u.representative a ≠ u.representative b) : (u.merge a b).Single := by
  intro r
  rw [typesAt_merge hFormed hNe]
  split
  · exact h _
  · split
    · exact Nat.zero_le 1
    · exact h r

/-- An open class may be given a type. -/
theorem Single.record (h : u.Single) {p : Point} (hOpen : u.typesAt (u.representative p) = [])
    (t : Ty) : (u.record p t).Single := by
  rcases record_cases u p t with ⟨-, hEq⟩ | ⟨-, -, hEq⟩ | ⟨-, -, hEq⟩
  · rw [hEq]
    exact h.congr rfl
  · rw [hEq]
    exact h.congr rfl
  · intro r
    rw [hEq, typesAt_addType]
    simp only [find_typesAt]
    split
    · simp [hOpen]
    · exact h r

/-- Unless `f` finds a conflict, no class gets a second type. -/
def Unifier.KeepsSingle (f : Unifier) : Prop :=
  ∀ left right u u', u.WellFormed → f left right u = some (false, u') → u.Single → u'.Single

/-- No conflict in a row of pairs is no conflict in any. -/
theorem unifyEach_keepsSingle {f : Unifier} (hSteps : f.StepsBy allowed) (hf : f.KeepsSingle)
    (pairs : List (Ty × Ty)) {u u' : Unification} (hFormed : u.WellFormed)
    (hRun : unifyEach f pairs u = some (false, u')) (h : u.Single) : u'.Single := by
  induction pairs generalizing u with
  | nil =>
    exact (unifyEach_nil_iff.mp hRun).2 ▸ h
  | cons pair rest ih =>
    obtain ⟨left, right⟩ := pair
    obtain ⟨c, v, c', hFirst, hLater, hQuiet⟩ := unifyEach_cons_iff.mp hRun
    obtain ⟨rfl, rfl⟩ := Bool.or_eq_false_iff.mp hQuiet
    have hFormed' := hFormed.steps (hSteps _ _ _ _ _ hFormed hFirst)
    exact ih hFormed' hLater (hf _ _ _ _ hFormed hFirst h)

/-- One level without a conflict: a type is recorded for open classes only. -/
theorem Level.keepsSingle {f : Unifier} (hSteps : f.StepsBy allowed) (hf : f.KeepsSingle)
    {left right : Ty} (hFormed : u.WellFormed) (hLevel : Level f u left right (false, u'))
    (h : u.Single) : u'.Single := by
  have hAgrees := agrees_touch hFormed left right
  have hTouched := hFormed.touch left right
  have hTouch : (u.touch left right).Single := h.congr hAgrees.types
  cases hLevel with
  | same _ => exact h
  | joined _ => exact hTouch
  | @merged a b _ hNe hRest =>
    have hNe' := touch_representative_ne hFormed (.point a) (.point b) hNe
    exact unifyEach_keepsSingle hSteps hf _ (hTouched.merge hNe') hRest
      (hTouch.merge hTouched hNe')
  | @pinned _ _ t p _ _ hOpen =>
    apply hTouch.record
    rw [hAgrees.representative, hAgrees.typesAt, representative_representative hFormed.forest]
    exact hOpen
  -- the tags agree, for there was no conflict
  | compared _ _ hParts =>
    unfold unifyParts at hParts
    split at hParts
    · exact unifyEach_keepsSingle hSteps hf _ hTouched hParts hTouch
    · cases hParts

/-- **Without a conflict no class gets a second type.** -/
theorem unifyWithin_keepsSingle (fuel : Nat) : (unifyWithin fuel).KeepsSingle := by
  induction fuel with
  | zero =>
    intro left right u u' _ hRun
    simp [unifyWithin] at hRun
  | succ fuel ih =>
    intro left right u u' hFormed hRun h
    exact (unifyStep_level hFormed hRun).keepsSingle (unifyWithin_steps fuel) ih hFormed h

-- ---------------------------------------------------------------------------
-- Later states
-- ---------------------------------------------------------------------------

/-- No conflict was found and no type was dropped. -/
structure Clean (u : Unification) : Prop where
  noError : u.hasError = false
  noDrop  : u.hasDropped = false

/-- What `u'` has kept of `u`. -/
structure Later (u u' : Unification) : Prop where
  noError  : u'.hasError = false → u.hasError = false
  noDrop   : u'.hasDropped = false → u.hasDropped = false
  models   : u'.Clean → ∀ (A : Type) (node : Tag → List A → A) (σ : Point → A),
    Models node σ u' → Models node σ u
  single   : u'.hasError = false → u.Single → u'.Single
  deferred : u.deferred <+: u'.deferred

/-- What is clean in the end was clean before. -/
theorem Later.clean (h : Later u u') (hClean : u'.Clean) : u.Clean :=
  ⟨h.noError hClean.noError, h.noDrop hClean.noDrop⟩

theorem Later.refl (u : Unification) : Later u u :=
  ⟨id, id, fun _ _ _ _ => id, fun _ => id, List.prefix_rfl⟩

/-- States go on getting later. -/
theorem Later.trans (h : Later u u') (h' : Later u' u'') : Later u u'' where
  noError := h.noError ∘ h'.noError
  noDrop := h.noDrop ∘ h'.noDrop
  models hClean A node σ hModels :=
    h.models (h'.clean hClean) A node σ (h'.models hClean A node σ hModels)
  single hNoError hSingle := h'.single hNoError (h.single (h'.noError hNoError) hSingle)
  deferred := h.deferred.trans h'.deferred

/-- What was entailed once is entailed by every later state that is clean. -/
theorem Later.entails (h : Later u u') (hClean : u'.Clean) {t t' : Ty}
    (hEntails : u.Entails t t') : u'.Entails t t' :=
  fun A node σ hModels => hEntails A node σ (h.models hClean A node σ hModels)

/-- Looking up loses nothing. -/
theorem Agrees.later (h : Agrees u u') : Later u u' where
  noError hNoError := h.hasError ▸ hNoError
  noDrop hNoDrop := h.hasDropped ▸ hNoDrop
  models _ _ _ _ := h.models_iff.mp
  single _ hSingle := hSingle.congr h.types
  deferred := h.deferred ▸ List.prefix_rfl

theorem Reachable.later_isOpen (h : u.Reachable) (p : Point) : Later u (u.isOpen p).2 := by
  rw [isOpen_snd]
  exact (agrees_find h.wellFormed.forest p).later

/-- Putting something aside loses nothing. -/
theorem later_defer (u : Unification) (s : Substitution) : Later u (u.defer s).2 where
  noError := id
  noDrop := id
  models _ _ _ _ hModels := ⟨hModels.representative, hModels.types⟩
  single _ hSingle := hSingle.congr rfl
  deferred := List.prefix_append ..

/-- A unification from a reachable state that ends in a clean one reports nothing. -/
theorem Reachable.silent_of_clean (hu : u.Reachable) {fuel : Nat} {left right : Ty}
    {conflict : Bool} (hRun : unifyWithin fuel left right u = some (conflict, u'))
    (hClean : u'.Clean) : u'.journal = u.journal := by
  obtain ⟨notes, hNotes⟩ := Steps.reports
    (unifyWithin_steps fuel _ _ _ _ _ hu.wellFormed hRun)
  have hConflict := hNotes.hasError.symm.trans hClean.noError
  have hDropped := hNotes.hasDropped.symm.trans hClean.noDrop
  rw [Bool.or_eq_false_iff] at hConflict hDropped
  -- any note raises one of the two flags
  have hNone : notes = [] := by
    cases notes with
    | nil => rfl
    | cons n notes =>
      have hConflict' := hConflict.1
      have hDropped' := hDropped.1
      cases n <;> simp [Note.isConflict] at hConflict' hDropped'
  rw [hNotes.journal, hNone]
  rfl

/-- A solution of the state after a unification solved the state before, and equates both
sides. -/
theorem Reachable.reflectsModels (hu : u.Reachable) {fuel : Nat} {left right : Ty}
    {notes : List Note} (hRun : u.unify fuel left right = some (notes, u')) (hClean : u'.Clean)
    {A : Type} {node : Tag → List A → A} {σ : Point → A} (hModels : Models node σ u') :
    Models node σ u ∧ left.eval node σ = right.eval node σ := by
  obtain ⟨conflict, v, hWithin, -, rfl⟩ := unify_eq_some_iff.mp hRun
  have hSilent := hu.silent_of_clean hWithin ⟨hClean.noError, hClean.noDrop⟩
  exact unifyWithin_reflectsModels fuel _ _ _ _ _ hu.wellFormed hWithin hSilent A node σ
    ⟨hModels.representative, hModels.types⟩

/-- Unifying defers nothing. -/
theorem Reachable.deferred_unify (hu : u.Reachable) {fuel : Nat} {left right : Ty}
    {notes : List Note} (hRun : u.unify fuel left right = some (notes, u')) :
    u'.deferred = u.deferred := by
  obtain ⟨conflict, v, hWithin, -, rfl⟩ := unify_eq_some_iff.mp hRun
  obtain ⟨noted, hNotes⟩ := Steps.reports
    (unifyWithin_steps fuel _ _ _ _ _ hu.wellFormed hWithin)
  exact hNotes.deferred

/-- **Unification loses nothing.** -/
theorem Reachable.later_unify (hu : u.Reachable) {fuel : Nat} {left right : Ty}
    {notes : List Note} (hRun : u.unify fuel left right = some (notes, u')) : Later u u' where
  noError hNoError := by
    rw [(hu.reports_of_unify hRun).1, Bool.or_eq_false_iff] at hNoError
    exact hNoError.2
  noDrop hNoDrop := by
    rw [(hu.reports_of_unify hRun).2, Bool.or_eq_false_iff] at hNoDrop
    exact hNoDrop.2
  models hClean A node σ hModels := (hu.reflectsModels hRun hClean hModels).1
  single hNoError hSingle := by
    obtain ⟨conflict, v, hWithin, -, rfl⟩ := unify_eq_some_iff.mp hRun
    obtain ⟨noted, hNotes, hTells⟩ :=
      unifyWithin_tellsConflicts fuel _ _ _ _ _ hu.wellFormed hWithin
    -- the flag is down, so the answer was that there is no conflict
    have hQuiet : conflict = false := by
      have hError : v.hasError = false := hNoError
      rw [hNotes.hasError, hTells, Bool.or_eq_false_iff] at hError
      exact hError.1
    subst hQuiet
    exact (unifyWithin_keepsSingle fuel _ _ _ _ hu.wellFormed hWithin hSingle).congr rfl
  deferred := hu.deferred_unify hRun ▸ List.prefix_rfl

/-- **What was unified is equal**, if the state is clean afterwards. -/
theorem Reachable.entails_unify (hu : u.Reachable) {fuel : Nat} {left right : Ty}
    {notes : List Note} (hRun : u.unify fuel left right = some (notes, u')) (hClean : u'.Clean) :
    u'.Entails left right :=
  fun _ _ _ hModels => (hu.reflectsModels hRun hClean hModels).2

/-- A state into which a branch was committed has the flags of both. -/
theorem clean_of_commit (h : (u.commit branch).Clean) : u.Clean ∧ branch.Clean := by
  have hError := Bool.or_eq_false_iff.mp h.noError
  have hDropped := Bool.or_eq_false_iff.mp h.noDrop
  exact ⟨⟨hError.2, hDropped.2⟩, ⟨hError.1, hDropped.1⟩⟩

/-- A committed branch goes on. -/
theorem later_commit (u branch : Unification) : Later branch (u.commit branch) where
  noError hNoError := (Bool.or_eq_false_iff.mp hNoError).1
  noDrop hNoDrop := (Bool.or_eq_false_iff.mp hNoDrop).1
  models _ _ _ _ hModels := ⟨hModels.representative, hModels.types⟩
  single _ hSingle := hSingle.congr rfl
  deferred := List.prefix_rfl

/-- Whatever a fork has kept of a state, the state keeps by committing it. -/
theorem Later.commit (h : Later u.fork branch) : Later u (u.commit branch) where
  noError hNoError := (Bool.or_eq_false_iff.mp hNoError).2
  noDrop hNoDrop := (Bool.or_eq_false_iff.mp hNoDrop).2
  models hClean A node σ hModels :=
    have hBranch : Models node σ branch := ⟨hModels.representative, hModels.types⟩
    have hFork := h.models (clean_of_commit hClean).2 A node σ hBranch
    ⟨hFork.representative, hFork.types⟩
  single hNoError hSingle :=
    (h.single (Bool.or_eq_false_iff.mp hNoError).1 (hSingle.congr rfl)).congr rfl
  deferred := h.deferred

end TraitInference.Unification
