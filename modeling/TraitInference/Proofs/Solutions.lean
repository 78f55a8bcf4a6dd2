import TraitInference.Proofs.Meaning

/-!
# TraitInference — unification and its solutions

Unification makes two types equal and nothing else. In terms of assignments of
finite trees to points:

* it loses no solution — an assignment that solves a state and gives the two
  types one value solves the state afterwards (`unifyWithin_keepsSolutions`);
* it complains only with reason — if there is such an assignment, no conflict is
  found and no type is dropped;
* it forgets nothing — if it reports nothing, every assignment that solves the
  state afterwards solved it before and gives the two types one value
  (`unifyWithin_reflectsModels`). This direction needs nothing of finite trees:
  it holds for values of any kind.

In both directions the calls below a level are used through the same two
statements. Types of an absorbed class are out of the table while they are unified
with the surviving one; the equations they stand for are those that the calls
still to be made will establish, which is what `Models.of_merge` asks for.
-/

namespace TraitInference

namespace Ty

variable {A : Type} {node : Tag → List A → A} {σ : Point → A}

/-- Two rows of types have the same values when they do so item by item. -/
theorem evalAll_eq_iff (ts us : List Ty) : evalAll node σ ts = evalAll node σ us ↔
    ts.length = us.length ∧ ∀ pair ∈ ts.zip us, pair.1.eval node σ = pair.2.eval node σ := by
  induction ts generalizing us with
  | nil => cases us <;> simp [evalAll]
  | cons t ts ih =>
    cases us with
    | nil => simp [evalAll]
    | cons v us =>
      simp only [evalAll, List.cons.injEq, List.length_cons, Nat.add_right_cancel_iff,
        List.zip_cons_cons, List.forall_mem_cons, ih us]
      constructor
      · rintro ⟨hHead, hLength, hTail⟩
        exact ⟨hLength, hHead, hTail⟩
      · rintro ⟨hLength, hHead, hTail⟩
        exact ⟨hHead, hLength, hTail⟩

/-- Where values differ when their tags or their children do, constructed types have one
value when their tags are equal and their children have the same values. -/
theorem eval_con_eq_iff (hNode : Function.Injective2 node) {tag tag' : Tag}
    {children children' : List Ty} {emit emit' : Option String} :
    (con tag children emit).eval node σ = (con tag' children' emit').eval node σ ↔
      (tag = tag' ∧ children.length = children'.length) ∧
        ∀ pair ∈ children.zip children', pair.1.eval node σ = pair.2.eval node σ := by
  rw [eval, eval, hNode.eq_iff, evalAll_eq_iff, and_assoc]

/-- Trees are equal only if their tags and their children are. -/
theorem value_con_inj {σ : Assignment} {tag tag' : Tag} {children children' : List Ty}
    {emit emit' : Option String}
    (h : (con tag children emit).value σ = (con tag' children' emit').value σ) :
    tag = tag' ∧ children.length = children'.length ∧
      ∀ pair ∈ children.zip children', pair.1.value σ = pair.2.value σ := by
  have hNode : Function.Injective2 Tree.node := fun _ _ _ _ => Tree.node.inj
  exact and_assoc.mp ((eval_con_eq_iff hNode).mp h)

end Ty

namespace Unification

variable {u u' : Unification} {allowed : Unification → Point → Point → Prop}

-- ---------------------------------------------------------------------------
-- No solution is lost
-- ---------------------------------------------------------------------------

/-- `f` keeps the solutions that give its two types one value, and reports
nothing if there is one. -/
def Unifier.KeepsSolutions (f : Unifier) : Prop :=
  ∀ left right u conflict u' σ, u.WellFormed → f left right u = some (conflict, u') →
    Solves σ u → left.value σ = right.value σ →
    Solves σ u' ∧ conflict = false ∧ u'.journal = u.journal

/-- One pair after another. -/
theorem unifyEach_keepsSolutions {f : Unifier} (hSteps : f.StepsBy allowed)
    (hf : f.KeepsSolutions) (pairs : List (Ty × Ty)) {u u' : Unification} {conflict : Bool}
    {σ : Assignment} (h : u.WellFormed) (hRun : unifyEach f pairs u = some (conflict, u'))
    (hSolves : Solves σ u) (hEqual : ∀ pair ∈ pairs, pair.1.value σ = pair.2.value σ) :
    Solves σ u' ∧ conflict = false ∧ u'.journal = u.journal := by
  induction pairs generalizing u conflict with
  | nil =>
    obtain ⟨rfl, rfl⟩ := unifyEach_nil_iff.mp hRun
    exact ⟨hSolves, rfl, rfl⟩
  | cons pair rest ih =>
    obtain ⟨left, right⟩ := pair
    obtain ⟨c, v, c', hFirst, hLater, rfl⟩ := unifyEach_cons_iff.mp hRun
    rw [List.forall_mem_cons] at hEqual
    obtain ⟨hSolves', rfl, hJournal⟩ := hf _ _ _ _ _ σ h hFirst hSolves hEqual.1
    have hFormed := h.steps (hSteps _ _ _ _ _ h hFirst)
    obtain ⟨hSolves'', rfl, hJournal'⟩ := ih hFormed hLater hSolves' hEqual.2
    exact ⟨hSolves'', rfl, hJournal'.trans hJournal⟩

/-- Constructed types of one value do not differ in tag or number of children. -/
theorem unifyParts_keepsSolutions {f : Unifier} (hSteps : f.StepsBy allowed)
    (hf : f.KeepsSolutions) {tag tag' : Tag} {children children' : List Ty}
    {emit emit' : Option String} {conflict : Bool} {σ : Assignment} (h : u.WellFormed)
    (hRun : unifyParts f tag children tag' children' u = some (conflict, u'))
    (hSolves : Solves σ u)
    (hEqual : (Ty.con tag children emit).value σ = (Ty.con tag' children' emit').value σ) :
    Solves σ u' ∧ conflict = false ∧ u'.journal = u.journal := by
  obtain ⟨hTag, hLength, hPairs⟩ := Ty.value_con_inj hEqual
  rw [unifyParts, if_pos ⟨hTag, hLength⟩] at hRun
  exact unifyEach_keepsSolutions hSteps hf _ h hRun hSolves hPairs

/-- One level of a unification, case by case. -/
theorem Level.keepsSolution {f : Unifier} (hSteps : f.StepsBy allowed) (hf : f.KeepsSolutions)
    {left right : Ty} {conflict : Bool} {σ : Assignment} (h : u.WellFormed)
    (hLevel : Level f u left right (conflict, u')) (hSolves : Solves σ u)
    (hEqual : left.value σ = right.value σ) :
    Solves σ u' ∧ conflict = false ∧ u'.journal = u.journal := by
  have hAgrees := agrees_touch h left right
  have hFormed := h.touch left right
  have hTouch : Solves σ (u.touch left right) := hAgrees.models_iff.mpr hSolves
  cases hLevel with
  | same _ => exact ⟨hSolves, rfl, rfl⟩
  | joined _ => exact ⟨hTouch, rfl, hAgrees.journal⟩
  | @merged a b _ hNe hRest =>
    have hNe' := touch_representative_ne h (.point a) (.point b) hNe
    have hMerged : Solves σ ((u.touch (.point a) (.point b)).merge a b) :=
      Models.merge hFormed hNe' hTouch hEqual
    -- the types taken out of the table have the value of the new class
    have hPending : ∀ pair ∈ (u.typesAt (u.representative b)).map fun t => (Ty.point a, t),
        pair.1.value σ = pair.2.value σ := by
      intro pair hPair
      obtain ⟨t, ht, rfl⟩ := List.mem_map.mp hPair
      exact hEqual.trans (hSolves.eval_eq ht)
    obtain ⟨hSolves', hConflict, hJournal⟩ :=
      unifyEach_keepsSolutions hSteps hf _ (hFormed.merge hNe') hRest hMerged hPending
    exact ⟨hSolves', hConflict, hJournal.trans hAgrees.journal⟩
  | @pinned _ _ t p hSides hCon _ =>
    have hValue : σ (u.representative p) = t.value σ := by
      rw [← hSolves.representative p]
      rcases hSides with ⟨rfl, rfl⟩ | ⟨rfl, rfl⟩
      · exact hEqual
      · exact hEqual.symm
    refine ⟨hTouch.record hFormed hValue, rfl, ?_⟩
    have hFind := agrees_find hFormed.forest (u.representative p)
    have hNot : ((u.touch left right).find (u.representative p)).2.occurs
        ((u.touch left right).representative (u.representative p)) t = false := by
      have hSolves' : Solves σ ((u.touch left right).find (u.representative p)).2 :=
        hFind.models_iff.mpr hTouch
      refine hSolves'.not_occurs (hFormed.find _) hCon ?_
      rw [← hTouch.representative]
      exact hValue
    rcases record_cases (u.touch left right) (u.representative p) t with
      ⟨hOccurs, -⟩ | ⟨-, -, hEq⟩ | ⟨-, -, hEq⟩
    · rw [hNot] at hOccurs
      cases hOccurs
    · rw [hEq]
      exact hFind.journal.trans hAgrees.journal
    · rw [hEq]
      exact hFind.journal.trans hAgrees.journal
  | compared hLeft hRight hParts =>
    have hKnown := (hSolves.eval_known hLeft).symm.trans (hEqual.trans (hSolves.eval_known hRight))
    obtain ⟨hSolves', -, hJournal⟩ :=
      unifyParts_keepsSolutions hSteps hf hFormed hParts hTouch hKnown
    exact ⟨hSolves', rfl, hJournal.trans hAgrees.journal⟩
  | clashed hLeft hRight hParts =>
    -- types of one value cannot clash
    have hKnown := (hSolves.eval_known hLeft).symm.trans (hEqual.trans (hSolves.eval_known hRight))
    obtain ⟨-, hConflict, -⟩ :=
      unifyParts_keepsSolutions hSteps hf hFormed hParts hTouch hKnown
    cases hConflict

/-- **No solution is lost, and none is complained about.** -/
theorem unifyWithin_keepsSolutions (fuel : Nat) : (unifyWithin fuel).KeepsSolutions := by
  induction fuel with
  | zero =>
    intro left right u conflict u' σ _ hRun
    simp [unifyWithin] at hRun
  | succ fuel ih =>
    intro left right u conflict u' σ h hRun hSolves hEqual
    exact (unifyStep_level h hRun).keepsSolution (unifyWithin_steps fuel) ih h hSolves hEqual

-- ---------------------------------------------------------------------------
-- No equation is forgotten
-- ---------------------------------------------------------------------------

/-- Unless `f` reports something, what solves the state after it solved the
state before, and its two types have one value. -/
def Unifier.ReflectsModels (f : Unifier) : Prop :=
  ∀ left right u conflict u', u.WellFormed → f left right u = some (conflict, u') →
    u'.journal = u.journal → ∀ (A : Type) (node : Tag → List A → A) (σ : Point → A),
    Models node σ u' → Models node σ u ∧ left.eval node σ = right.eval node σ

/-- One pair after another: a silent sequence of calls consists of silent calls. -/
theorem unifyEach_reflectsModels {f : Unifier} (hSteps : f.StepsBy allowed)
    (hf : f.ReflectsModels) (pairs : List (Ty × Ty)) {u u' : Unification} {conflict : Bool}
    (h : u.WellFormed) (hRun : unifyEach f pairs u = some (conflict, u'))
    (hSilent : u'.journal = u.journal) {A : Type} {node : Tag → List A → A} {σ : Point → A}
    (hModels : Models node σ u') :
    Models node σ u ∧ ∀ pair ∈ pairs, pair.1.eval node σ = pair.2.eval node σ := by
  induction pairs generalizing u conflict with
  | nil =>
    obtain ⟨-, rfl⟩ := unifyEach_nil_iff.mp hRun
    exact ⟨hModels, by simp⟩
  | cons pair rest ih =>
    obtain ⟨left, right⟩ := pair
    obtain ⟨c, v, c', hFirst, hLater, -⟩ := unifyEach_cons_iff.mp hRun
    have hBefore := hSteps _ _ _ _ _ h hFirst
    have hFormed := h.steps hBefore
    have hAfter := unifyEach_steps hSteps rest hFormed hLater
    obtain ⟨hSilent', hSilent''⟩ := Steps.journal_eq hBefore hAfter hSilent
    obtain ⟨hModels', hRest⟩ := ih hFormed hLater hSilent''
    obtain ⟨hModels'', hHead⟩ := hf _ _ _ _ _ h hFirst hSilent' A node σ hModels'
    exact ⟨hModels'', List.forall_mem_cons.mpr ⟨hHead, hRest⟩⟩

/-- Where the parts are unified silently, the wholes have one value. -/
theorem unifyParts_reflectsModels {f : Unifier} (hSteps : f.StepsBy allowed)
    (hf : f.ReflectsModels) {tag tag' : Tag} {children children' : List Ty}
    (emit emit' : Option String) {conflict : Bool} (h : u.WellFormed)
    (hRun : unifyParts f tag children tag' children' u = some (conflict, u'))
    (hSilent : u'.journal = u.journal) {A : Type} {node : Tag → List A → A} {σ : Point → A}
    (hModels : Models node σ u') :
    Models node σ u ∧
      (Ty.con tag children emit).eval node σ = (Ty.con tag' children' emit').eval node σ := by
  unfold unifyParts at hRun
  split at hRun
  · rename_i hParts
    obtain ⟨rfl, hLength⟩ := hParts
    obtain ⟨hModels', hPairs⟩ := unifyEach_reflectsModels hSteps hf _ h hRun hSilent hModels
    refine ⟨hModels', ?_⟩
    rw [Ty.eval, Ty.eval, (Ty.evalAll_eq_iff children children').mpr ⟨hLength, hPairs⟩]
  · obtain ⟨-, rfl⟩ := Prod.mk.inj (Option.some.inj hRun)
    exact absurd hSilent (by simp [note])

theorem Level.reflectsModel {f : Unifier} (hSteps : f.StepsBy allowed) (hf : f.ReflectsModels)
    (hTells : f.TellsConflicts) {left right : Ty} {conflict : Bool} (h : u.WellFormed)
    (hLevel : Level f u left right (conflict, u')) (hSilent : u'.journal = u.journal)
    {A : Type} {node : Tag → List A → A} {σ : Point → A} (hModels : Models node σ u') :
    Models node σ u ∧ left.eval node σ = right.eval node σ := by
  have hAgrees := agrees_touch h left right
  have hFormed := h.touch left right
  -- an answer that there was a conflict is not silent
  have hQuiet : conflict = false := by
    obtain ⟨notes, hNotes, rfl⟩ := hLevel.tellsConflict hSteps hTells h
    have hNil : notes = [] := by
      have hJournal := hNotes.journal
      rw [hSilent] at hJournal
      simpa using hJournal
    rw [hNil]
    rfl
  cases hLevel with
  | same hSame => exact ⟨hModels, Ty.eval_eq_of_same hSame⟩
  | @joined a b hRoots =>
    have hModels' := hAgrees.models_iff.mp hModels
    refine ⟨hModels', ?_⟩
    show σ a = σ b
    rw [hModels'.representative a, hRoots, ← hModels'.representative b]
  | @merged a b _ hNe hRest =>
    have hNe' := touch_representative_ne h (.point a) (.point b) hNe
    have hJournal : u'.journal = ((u.touch (.point a) (.point b)).merge a b).journal :=
      hSilent.trans hAgrees.journal.symm
    obtain ⟨hMerged, hPairs⟩ := unifyEach_reflectsModels hSteps hf _ (hFormed.merge hNe') hRest
      hJournal hModels
    have hPending : ∀ t ∈ (u.touch (.point a) (.point b)).typesAt
        ((u.touch (.point a) (.point b)).representative b), σ a = t.eval node σ := by
      intro t ht
      rw [hAgrees.representative, hAgrees.typesAt] at ht
      exact hPairs _ (List.mem_map_of_mem ht)
    obtain ⟨hBefore, hEq⟩ := hMerged.of_merge hFormed hNe' hPending
    exact ⟨hAgrees.models_iff.mp hBefore, hEq⟩
  | @pinned _ _ t p hSides _ _ =>
    rw [models_record hFormed (hSilent.trans hAgrees.journal.symm)] at hModels
    have hModels' := hAgrees.models_iff.mp hModels.1
    have hValue : σ p = t.eval node σ := (hModels'.representative p).trans hModels.2
    refine ⟨hModels', ?_⟩
    rcases hSides with ⟨rfl, rfl⟩ | ⟨rfl, rfl⟩
    · exact hValue
    · exact hValue.symm
  | @compared _ _ _ _ _ _ emit emit' _ hLeft hRight hParts =>
    obtain ⟨hBefore, hKnown⟩ := unifyParts_reflectsModels hSteps hf emit emit' hFormed hParts
      (hSilent.trans hAgrees.journal.symm) hModels
    have hModels' := hAgrees.models_iff.mp hBefore
    exact ⟨hModels', (hModels'.eval_known hLeft).trans
      (hKnown.trans (hModels'.eval_known hRight).symm)⟩
  | clashed _ _ _ => cases hQuiet

/-- **No equation is forgotten.** -/
theorem unifyWithin_reflectsModels (fuel : Nat) : (unifyWithin fuel).ReflectsModels := by
  induction fuel with
  | zero =>
    intro left right u conflict u' _ hRun
    simp [unifyWithin] at hRun
  | succ fuel ih =>
    intro left right u conflict u' h hRun hSilent A node σ hModels
    exact (unifyStep_level h hRun).reflectsModel (unifyWithin_steps fuel) ih
      (unifyWithin_tellsConflicts fuel) h hSilent hModels

-- ---------------------------------------------------------------------------
-- Calls of unification
-- ---------------------------------------------------------------------------

/-- What a call reports is what its unification has noted. -/
theorem Reachable.reports_of_unify (hu : u.Reachable) {fuel : Nat} {left right : Ty}
    {notes : List Note} (hRun : u.unify fuel left right = some (notes, u')) :
    u'.hasError = (notes.any Note.isConflict || u.hasError) ∧
      u'.hasDropped = (notes.any (fun n => !n.isConflict) || u.hasDropped) := by
  obtain ⟨conflict, v, hWithin, rfl, rfl⟩ := unify_eq_some_iff.mp hRun
  obtain ⟨notes, hNotes, -⟩ := unifyWithin_tellsConflicts fuel _ _ _ _ _ hu.wellFormed hWithin
  have hJournal : v.journal = notes := by
    rw [hNotes.journal, hu.journal_eq_nil, List.append_nil]
  rw [hJournal, List.any_reverse, List.any_reverse]
  exact ⟨hNotes.hasError, hNotes.hasDropped⟩

/--
**Unification is sound and complete over finite trees.** For every call from a
reachable state that ends:

* the flags are raised exactly by what the call reports, a conflict or a dropped
  type;
* an assignment that solves the state before and gives both types one tree
  solves the state after;
* if there is such an assignment, nothing is reported;
* if nothing is reported, whatever solves the state after solved the state
  before and gives both types one tree.
-/
theorem unify_solutions (hu : u.Reachable) {fuel : Nat} {left right : Ty} {notes : List Note}
    (hRun : u.unify fuel left right = some (notes, u')) :
    (u'.hasError = (notes.any Note.isConflict || u.hasError) ∧
      u'.hasDropped = (notes.any (fun n => !n.isConflict) || u.hasDropped)) ∧
    (∀ σ, Solves σ u → left.value σ = right.value σ → Solves σ u') ∧
    ((∃ σ, Solves σ u ∧ left.value σ = right.value σ) → notes = []) ∧
    (notes = [] → ∀ σ, Solves σ u' → Solves σ u ∧ left.value σ = right.value σ) := by
  have hFlags := hu.reports_of_unify hRun
  obtain ⟨conflict, v, hWithin, hNotes, rfl⟩ := unify_eq_some_iff.mp hRun
  have hFormed := hu.wellFormed
  have hKeeps := unifyWithin_keepsSolutions fuel left right u conflict v
  -- emptying the journal changes no equation
  have hEmptied : ∀ σ, Solves σ { v with journal := [] } ↔ Solves σ v := by
    intro σ
    exact ⟨fun h => ⟨h.representative, h.types⟩, fun h => ⟨h.representative, h.types⟩⟩
  refine ⟨hFlags, ?_, ?_, ?_⟩
  · intro σ hSolves hEqual
    exact (hEmptied σ).mpr (hKeeps σ hFormed hWithin hSolves hEqual).1
  · rintro ⟨σ, hSolves, hEqual⟩
    have hJournal := (hKeeps σ hFormed hWithin hSolves hEqual).2.2
    rw [hNotes, hJournal, hu.journal_eq_nil]
    rfl
  · intro hSilent σ hSolves
    have hJournal : v.journal = u.journal := by
      rw [hu.journal_eq_nil, ← List.reverse_eq_nil_iff, ← hNotes]
      exact hSilent
    exact unifyWithin_reflectsModels fuel _ _ _ _ _ hFormed hWithin hJournal _ _ σ
      ((hEmptied σ).mp hSolves)

/-- `List y` and then `List Number` for one point: its class keeps the first type,
and what says that `y` is a number is the call that unified the children. -/
theorem unify_solutions_children :
    ∃ u u' : Unification, u.Reachable ∧
      u.unify 3 (.point ⟨0⟩) (.con (.named ⟨2⟩) [.con (.named ⟨3⟩) [] none] none) =
        some ([], u') ∧
      ∀ σ, Solves σ u' → Solves σ u ∧
        (Ty.point ⟨0⟩).value σ =
          (Ty.con (.named ⟨2⟩) [.con (.named ⟨3⟩) [] none] none).value σ := by
  have hFirst : ({} : Unification).unify 3 (.point ⟨0⟩) (.con (.named ⟨2⟩) [.point ⟨1⟩] none) =
      some (_, _) := rfl
  have hReachable := Reachable.unify .empty hFirst
  refine ⟨_, _, hReachable, rfl, ?_⟩
  exact (unify_solutions hReachable
    (show Unification.unify _ 3 _ _ = some ([], _) from rfl)).2.2.2 rfl

end Unification

end TraitInference
