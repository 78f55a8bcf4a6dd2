import TraitInference.Proofs.WellFormed

/-!
# TraitInference — unification as a sequence of steps

Unification looks intricate because it calls itself while the table of types is
half updated. Two descriptions of it make it tractable:

* `Level` — what one level of unification does, with the calls below left open:
  one constructor for each way through the code (`unifyStep_level`). Proofs
  about unification are case distinctions over it.
* `Step` — what happens to the state, whatever the calls: a point is recorded,
  something is noted, a constructed type is recorded for a class, or two classes
  are merged. Every unification is a sequence of such steps
  (`unifyWithin_steps`), so an invariant has to be checked for the four steps
  only.

Merges may be restricted by a predicate `allowed`; this is how runs that avoid
some kind of merge are spoken of.
-/

namespace TraitInference.Unification

variable {u u' : Unification}

-- ---------------------------------------------------------------------------
-- Looking up both sides
-- ---------------------------------------------------------------------------

/-- The state after both sides of an equation were looked up. -/
def touch (u : Unification) (left right : Ty) : Unification :=
  ((u.resolve left).2.resolve right).2

/-- Looking up a type records a point, if anything. -/
theorem resolve_snd (u : Unification) (t : Ty) :
    (u.resolve t).2 = u ∨ ∃ p, (u.resolve t).2 = (u.find p).2 := by
  cases t with
  | point p => exact .inr ⟨p, rfl⟩
  | con => exact .inl rfl

/-- Nothing but the set of recorded points differs. -/
structure Agrees (u u' : Unification) : Prop where
  representative : ∀ p, u'.representative p = u.representative p
  types          : u'.types = u.types
  journal        : u'.journal = u.journal
  hasError       : u'.hasError = u.hasError
  hasDropped     : u'.hasDropped = u.hasDropped
  deferred       : u'.deferred = u.deferred

theorem Agrees.typesAt (h : Agrees u u') (r : Point) : u'.typesAt r = u.typesAt r := by
  unfold Unification.typesAt
  rw [h.types]

theorem Agrees.trans {u'' : Unification} (h : Agrees u u') (h' : Agrees u' u'') :
    Agrees u u'' where
  representative p := (h'.representative p).trans (h.representative p)
  types := h'.types.trans h.types
  journal := h'.journal.trans h.journal
  hasError := h'.hasError.trans h.hasError
  hasDropped := h'.hasDropped.trans h.hasDropped
  deferred := h'.deferred.trans h.deferred

theorem Agrees.refl (u : Unification) : Agrees u u :=
  ⟨fun _ => rfl, rfl, rfl, rfl, rfl, rfl⟩

/-- Recording a point changes nothing else. -/
theorem agrees_find (h : u.classes.IsForest) (p : Point) : Agrees u (u.find p).2 :=
  ⟨find_representative h p, rfl, rfl, rfl, rfl, rfl⟩

/-- Nor does looking up a type. -/
theorem agrees_resolve (h : u.classes.IsForest) (t : Ty) : Agrees u (u.resolve t).2 := by
  rcases resolve_snd u t with hEq | ⟨p, hEq⟩
  · rw [hEq]
    exact .refl u
  · rw [hEq]
    exact agrees_find h p

theorem WellFormed.resolve (h : u.WellFormed) (t : Ty) : (u.resolve t).2.WellFormed := by
  rcases resolve_snd u t with hEq | ⟨p, hEq⟩
  · rw [hEq]
    exact h
  · rw [hEq]
    exact h.find p

/-- A state stays well formed while both sides are looked up. -/
theorem WellFormed.touch (h : u.WellFormed) (left right : Ty) :
    (u.touch left right).WellFormed :=
  (h.resolve left).resolve right

theorem agrees_touch (h : u.WellFormed) (left right : Ty) : Agrees u (u.touch left right) :=
  (agrees_resolve h.forest left).trans (agrees_resolve (h.resolve left).forest right)

/-- Points of different classes are still in different ones once both were looked up. -/
theorem touch_representative_ne (h : u.WellFormed) (left right : Ty) {a b : Point}
    (hNe : u.representative a ≠ u.representative b) :
    (u.touch left right).representative a ≠ (u.touch left right).representative b := by
  rw [(agrees_touch h left right).representative, (agrees_touch h left right).representative]
  exact hNe

-- ---------------------------------------------------------------------------
-- One level of unification
-- ---------------------------------------------------------------------------

/-- What a type is known to be: a constructed type is itself, a point is the
first type of its class. -/
inductive Knows (u : Unification) : Ty → Ty → Prop
  | con (tag : Tag) (children : List Ty) (emit : Option String) :
      Knows u (.con tag children emit) (.con tag children emit)
  | point {p : Point} {t : Ty} (hHead : (u.typesAt (u.representative p)).head? = some t) :
      Knows u (.point p) t

/-- The ways through one level of unification, with `f` for the levels below. -/
inductive Level (f : Unifier) (u : Unification) : Ty → Ty → Bool × Unification → Prop
  | same {left right : Ty} (hSame : left.same right = true) :
      Level f u left right (false, u)
  /-- The points are in one class already. -/
  | joined {a b : Point} (hRoots : u.representative a = u.representative b) :
      Level f u (.point a) (.point b) (false, u.touch (.point a) (.point b))
  | merged {a b : Point} {result : Bool × Unification}
      (hNe : u.representative a ≠ u.representative b)
      (hRest : unifyEach f ((u.typesAt (u.representative b)).map fun t => (.point a, t))
        ((u.touch (.point a) (.point b)).merge a b) = some result) :
      Level f u (.point a) (.point b) result
  /-- An open class gets its first type. -/
  | pinned {left right t : Ty} {p : Point}
      (hSides : left = .point p ∧ right = t ∨ left = t ∧ right = .point p)
      (hCon : ∀ q, t ≠ .point q) (hOpen : u.typesAt (u.representative p) = []) :
      Level f u left right (false, (u.touch left right).record (u.representative p) t)
  | compared {left right : Ty} {tag tag' : Tag} {children children' : List Ty}
      {emit emit' : Option String} {v : Unification}
      (hLeft : u.Knows left (.con tag children emit))
      (hRight : u.Knows right (.con tag' children' emit'))
      (hParts : unifyParts f tag children tag' children' (u.touch left right) = some (false, v)) :
      Level f u left right (false, v)
  | clashed {left right : Ty} {tag tag' : Tag} {children children' : List Ty}
      {emit emit' : Option String} {v : Unification}
      (hLeft : u.Knows left (.con tag children emit))
      (hRight : u.Knows right (.con tag' children' emit'))
      (hParts : unifyParts f tag children tag' children' (u.touch left right) = some (true, v)) :
      Level f u left right
        (true, (v.recordBoth (.con tag children emit) (.con tag' children' emit') left).recordBoth
          (.con tag children emit) (.con tag' children' emit') right)

/-- Looking up a point of a well-formed state: its class is open, or pinned down
to a constructed type. -/
theorem resolve_point_cases (h : u.WellFormed) (p : Point) :
    (u.typesAt (u.representative p) = [] ∧
      (u.resolve (.point p)).1 = .point (u.representative p)) ∨
    ∃ tag children emit, (u.resolve (.point p)).1 = .con tag children emit ∧
      u.Knows (.point p) (.con tag children emit) := by
  unfold resolve
  simp only [find_fst, find_typesAt]
  cases hTypes : u.typesAt (u.representative p) with
  | nil => exact .inl ⟨rfl, rfl⟩
  | cons t ts =>
    have hMem : t ∈ u.typesAt (u.representative p) := by simp [hTypes]
    obtain ⟨tag, children, emit, rfl⟩ := h.exists_con hMem
    exact .inr ⟨tag, children, emit, rfl, .point (by rw [hTypes]; rfl)⟩

/-- Two points are in one class already, or their classes are merged. -/
theorem unifyPoints_level {f : Unifier} (h : u.WellFormed) {a b : Point}
    {result : Bool × Unification} (hRun : unifyPoints f a b u = some result) :
    Level f u (.point a) (.point b) result := by
  have hAgrees := agrees_find h.forest a
  unfold unifyPoints at hRun
  simp only [find_fst, find_typesAt, hAgrees.representative] at hRun
  split at hRun
  · rename_i hRoots
    obtain rfl := Option.some.inj hRun
    exact .joined hRoots
  · exact .merged ‹_› hRun

/-- Two known types agree below, or clash. -/
theorem unifyKnown_level {f : Unifier} {left right : Ty} {tag tag' : Tag}
    {children children' : List Ty} {emit emit' : Option String} {result : Bool × Unification}
    (hLeft : u.Knows left (.con tag children emit))
    (hRight : u.Knows right (.con tag' children' emit'))
    (hRun : unifyKnown f left right (.con tag children emit) (.con tag' children' emit')
      (u.touch left right) = some result) : Level f u left right result := by
  simp only [unifyKnown, Option.bind_eq_bind, Option.bind_eq_some_iff] at hRun
  obtain ⟨⟨conflict, v⟩, hParts, hResult⟩ := hRun
  cases conflict with
  | false =>
    obtain rfl := Option.some.inj hResult
    exact .compared hLeft hRight hParts
  | true =>
    obtain rfl := Option.some.inj hResult
    exact .clashed hLeft hRight hParts

/-- **What one level of unification does.** -/
theorem unifyStep_level {f : Unifier} (h : u.WellFormed) {left right : Ty}
    {result : Bool × Unification} (hRun : unifyStep f left right u = some result) :
    Level f u left right result := by
  unfold unifyStep at hRun
  by_cases hSame : left.same right = true
  · rw [if_pos hSame] at hRun
    obtain rfl := Option.some.inj hRun
    exact .same hSame
  · rw [if_neg hSame] at hRun
    cases left with
    | point a =>
      cases right with
      | point b => exact unifyPoints_level h hRun
      | con tag children emit =>
        have hCon : ∀ q, Ty.con tag children emit ≠ .point q := by simp
        -- open, or pinned down to a constructed type
        rcases resolve_point_cases h a with ⟨hOpen, hFirst⟩ | ⟨_, _, _, hFirst, hKnown⟩
        · simp only [hFirst] at hRun
          obtain rfl := Option.some.inj hRun
          exact .pinned (.inl ⟨rfl, rfl⟩) hCon hOpen
        · simp only [hFirst] at hRun
          exact unifyKnown_level hKnown (.con tag children emit) hRun
    | con tag children emit =>
      cases right with
      | point b =>
        rcases resolve_point_cases h b with ⟨hOpen, hFirst⟩ | ⟨_, _, _, hFirst, hKnown⟩
        · simp only [resolve, find_fst, find_typesAt, hOpen] at hRun
          obtain rfl := Option.some.inj hRun
          exact .pinned (.inr ⟨rfl, rfl⟩) (by simp) hOpen
        · have hFirst' : ((u.resolve (.con tag children emit)).2.resolve (.point b)).1 = _ := hFirst
          simp only [hFirst'] at hRun
          exact unifyKnown_level (.con tag children emit) hKnown hRun
      | con tag' children' emit' =>
        exact unifyKnown_level (.con tag children emit) (.con tag' children' emit') hRun

-- ---------------------------------------------------------------------------
-- Steps
-- ---------------------------------------------------------------------------

/-- The kinds of change that unification makes to a state. -/
inductive Step (allowed : Unification → Point → Point → Prop) :
    Unification → Unification → Prop
  | find (u : Unification) (p : Point) : Step allowed u (u.find p).2
  | note (u : Unification) (n : Note) : Step allowed u (u.note n)
  | record (u : Unification) (p : Point) {t : Ty} (hCon : ∀ q, t ≠ .point q) :
      Step allowed u (u.record p t)
  | merge {u : Unification} {a b : Point} (hNe : u.representative a ≠ u.representative b)
      (hAllowed : allowed u a b) : Step allowed u (u.merge a b)

/-- A sequence of steps. -/
abbrev Steps (allowed : Unification → Point → Point → Prop) :
    Unification → Unification → Prop :=
  Relation.ReflTransGen (Step allowed)

variable {allowed : Unification → Point → Point → Prop}

/-- **Each of the four steps keeps a state well formed.** -/
theorem WellFormed.step (h : u.WellFormed) (hStep : Step allowed u u') : u'.WellFormed := by
  cases hStep with
  | find p => exact h.find p
  | note n => exact h.note n
  | record p hCon => exact h.record p hCon
  | merge hNe _ => exact h.merge hNe

/-- So does a sequence of them. -/
theorem WellFormed.steps (h : u.WellFormed) (hSteps : Steps allowed u u') : u'.WellFormed := by
  induction hSteps with
  | refl => exact h
  | tail _ hStep ih => exact ih.step hStep

theorem steps_resolve (u : Unification) (t : Ty) : Steps allowed u (u.resolve t).2 := by
  rcases resolve_snd u t with hEq | ⟨p, hEq⟩
  · rw [hEq]
  · rw [hEq]
    exact .single (.find u p)

theorem steps_touch (u : Unification) (left right : Ty) :
    Steps allowed u (u.touch left right) :=
  (steps_resolve u left).trans (steps_resolve _ right)

/-- Both types are recorded, one after the other, if the side is a point. -/
theorem steps_recordBoth (u : Unification) {left right : Ty} (hLeft : ∀ q, left ≠ .point q)
    (hRight : ∀ q, right ≠ .point q) (side : Ty) :
    Steps allowed u (u.recordBoth left right side) := by
  cases side with
  | point p => exact (Relation.ReflTransGen.single (.record u p hLeft)).tail (.record _ p hRight)
  | con => exact .refl

/-- Whatever `f` does is a sequence of steps. -/
def Unifier.StepsBy (f : Unifier) (allowed : Unification → Point → Point → Prop) : Prop :=
  ∀ left right u conflict u', u.WellFormed → f left right u = some (conflict, u') →
    Steps allowed u u'

/-- Pair after pair; each pair needs the state before it to be well formed. -/
theorem unifyEach_steps {f : Unifier} (hf : f.StepsBy allowed) (pairs : List (Ty × Ty))
    {u u' : Unification} {conflict : Bool} (h : u.WellFormed)
    (hRun : unifyEach f pairs u = some (conflict, u')) : Steps allowed u u' := by
  induction pairs generalizing u conflict with
  | nil =>
    rw [(unifyEach_nil_iff.mp hRun).2]
  | cons pair rest ih =>
    obtain ⟨left, right⟩ := pair
    obtain ⟨c, v, c', hFirst, hLater, -⟩ := unifyEach_cons_iff.mp hRun
    have hSteps : Steps allowed u v := hf _ _ _ _ _ h hFirst
    exact hSteps.trans (ih (h.steps hSteps) hLater)

/-- Children are unified, or a conflict is noted. -/
theorem unifyParts_steps {f : Unifier} (hf : f.StepsBy allowed) {tag tag' : Tag}
    {children children' : List Ty} {conflict : Bool} (h : u.WellFormed)
    (hRun : unifyParts f tag children tag' children' u = some (conflict, u')) :
    Steps allowed u u' := by
  unfold unifyParts at hRun
  split at hRun
  · exact unifyEach_steps hf _ h hRun
  · obtain ⟨-, rfl⟩ := Prod.mk.inj (Option.some.inj hRun)
    exact .single (.note u _)

/-- One level of unification is a sequence of steps if the levels below are and
the merge made at this level, if any, is allowed. -/
theorem Level.steps {f : Unifier} (hf : f.StepsBy allowed) {left right : Ty} {conflict : Bool}
    (h : u.WellFormed) (hLevel : Level f u left right (conflict, u'))
    (hAllowed : ∀ a b, left = .point a → right = .point b →
      u.representative a ≠ u.representative b → allowed (u.touch left right) a b) :
    Steps allowed u u' := by
  have hTouch := h.touch left right
  cases hLevel with
  | same _ => exact .refl
  | joined _ => exact steps_touch u _ _
  -- both points are recorded, then merged; the rest happens in the merged state
  | @merged a b _ hNe hRest =>
    have hNe' := touch_representative_ne h (.point a) (.point b) hNe
    have hMerge := (steps_touch u (.point a) (.point b)).tail
      (.merge hNe' (hAllowed a b rfl rfl hNe))
    exact hMerge.trans (unifyEach_steps hf _ (hTouch.merge hNe') hRest)
  | pinned _ hCon _ => exact (steps_touch u left right).tail (.record _ _ hCon)
  | compared _ _ hParts =>
    exact (steps_touch u left right).trans (unifyParts_steps hf hTouch hParts)
  | clashed _ _ hParts =>
    have hBelow := (steps_touch u left right).trans (unifyParts_steps hf hTouch hParts)
    exact (hBelow.trans (steps_recordBoth _ (by simp) (by simp) left)).trans
      (steps_recordBoth _ (by simp) (by simp) right)

/-- **Every unification is a sequence of steps.** -/
theorem unifyWithin_steps (fuel : Nat) : (unifyWithin fuel).StepsBy fun _ _ _ => True := by
  induction fuel with
  | zero =>
    intro left right u conflict u' _ hRun
    simp [unifyWithin] at hRun
  | succ fuel ih =>
    intro left right u conflict u' h hRun
    exact (unifyStep_level h hRun).steps ih h fun _ _ _ _ _ => trivial

-- ---------------------------------------------------------------------------
-- What is reported
-- ---------------------------------------------------------------------------

/-- Between the two states exactly `notes` were reported, the newest first, and
the flags have been raised accordingly. -/
structure Reports (u : Unification) (notes : List Note) (u' : Unification) : Prop where
  journal    : u'.journal = notes ++ u.journal
  hasError   : u'.hasError = (notes.any Note.isConflict || u.hasError)
  hasDropped : u'.hasDropped = (notes.any (fun n => !n.isConflict) || u.hasDropped)
  deferred   : u'.deferred = u.deferred

theorem Reports.refl (u : Unification) : Reports u [] u :=
  ⟨rfl, rfl, rfl, rfl⟩

/-- Notes add up, the later ones in front. -/
theorem Reports.trans {notes notes' : List Note} {u'' : Unification} (h : Reports u notes u')
    (h' : Reports u' notes' u'') : Reports u (notes' ++ notes) u'' where
  journal := by rw [h'.journal, h.journal, List.append_assoc]
  hasError := by rw [h'.hasError, h.hasError, List.any_append, Bool.or_assoc]
  hasDropped := by rw [h'.hasDropped, h.hasDropped, List.any_append, Bool.or_assoc]
  deferred := h'.deferred.trans h.deferred

/-- Looking up reports nothing. -/
theorem Agrees.reports (h : Agrees u u') : Reports u [] u' :=
  ⟨h.journal, h.hasError, h.hasDropped, h.deferred⟩

theorem reports_note (u : Unification) (n : Note) : Reports u [n] (u.note n) where
  journal := rfl
  hasError := by simp [note]
  hasDropped := by simp [note]
  deferred := rfl

/-- Recording a type reports at most that it was dropped. -/
theorem reports_record (u : Unification) (p : Point) (t : Ty) :
    Reports u [] (u.record p t) ∨
      Reports u [.recursive (u.representative p)] (u.record p t) := by
  have hFind : Reports u [] (u.find p).2 := ⟨rfl, rfl, rfl, rfl⟩
  rcases record_cases u p t with ⟨-, hEq⟩ | ⟨-, -, hEq⟩ | ⟨-, -, hEq⟩
  · rw [hEq]
    exact .inr (hFind.trans (reports_note _ _))
  · rw [hEq]
    exact .inl hFind
  · rw [hEq]
    exact .inl ⟨rfl, rfl, rfl, rfl⟩

/-- A single step reports one note at most. -/
theorem Step.reports (h : Step allowed u u') : ∃ notes, Reports u notes u' := by
  cases h with
  | find p => exact ⟨[], rfl, rfl, rfl, rfl⟩
  | note n => exact ⟨[n], reports_note u n⟩
  | record p _ =>
    rcases reports_record u p _ with h | h
    · exact ⟨_, h⟩
    · exact ⟨_, h⟩
  | merge _ _ => exact ⟨[], rfl, rfl, rfl, rfl⟩

/-- Whatever the steps, the flags follow from what was reported. -/
theorem Steps.reports (h : Steps allowed u u') : ∃ notes, Reports u notes u' := by
  induction h with
  | refl => exact ⟨[], .refl u⟩
  | tail _ hStep ih =>
    obtain ⟨notes, hNotes⟩ := ih
    obtain ⟨notes', hNotes'⟩ := hStep.reports
    exact ⟨_, hNotes.trans hNotes'⟩

/-- If nothing was reported from `u` to `u''`, nothing was on the way. -/
theorem Steps.journal_eq {u'' : Unification} (h : Steps allowed u u') (h' : Steps allowed u' u'')
    (hSilent : u''.journal = u.journal) :
    u'.journal = u.journal ∧ u''.journal = u'.journal := by
  obtain ⟨notes, hNotes⟩ := Steps.reports h
  obtain ⟨notes', hNotes'⟩ := Steps.reports h'
  have hJournal := hNotes'.journal
  rw [hNotes.journal, hSilent] at hJournal
  -- the journal only grows, so it is enough to count
  have hLength := congrArg List.length hJournal
  simp only [List.length_append] at hLength
  obtain rfl : notes = [] := List.length_eq_zero_iff.mp (by omega)
  obtain rfl : notes' = [] := List.length_eq_zero_iff.mp (by omega)
  exact ⟨hNotes.journal, hNotes'.journal⟩

/-- `f` says that there was a conflict exactly when it reports one. -/
def Unifier.TellsConflicts (f : Unifier) : Prop :=
  ∀ left right u conflict u', u.WellFormed → f left right u = some (conflict, u') →
    ∃ notes, Reports u notes u' ∧ notes.any Note.isConflict = conflict

/-- There was a conflict in a row of pairs exactly if there was one in some pair. -/
theorem unifyEach_tellsConflicts {f : Unifier} (hSteps : f.StepsBy allowed)
    (hf : f.TellsConflicts) (pairs : List (Ty × Ty)) {u u' : Unification} {conflict : Bool}
    (h : u.WellFormed) (hRun : unifyEach f pairs u = some (conflict, u')) :
    ∃ notes, Reports u notes u' ∧ notes.any Note.isConflict = conflict := by
  induction pairs generalizing u conflict with
  | nil =>
    obtain ⟨rfl, rfl⟩ := unifyEach_nil_iff.mp hRun
    exact ⟨[], .refl u, rfl⟩
  | cons pair rest ih =>
    obtain ⟨left, right⟩ := pair
    obtain ⟨c, v, c', hFirst, hLater, rfl⟩ := unifyEach_cons_iff.mp hRun
    obtain ⟨notes, hNotes, rfl⟩ := hf _ _ _ _ _ h hFirst
    obtain ⟨notes', hNotes', rfl⟩ := ih (h.steps (hSteps _ _ _ _ _ h hFirst)) hLater
    exact ⟨_, hNotes.trans hNotes', by rw [List.any_append, Bool.or_comm]⟩

/-- Tags that differ are a conflict in themselves. -/
theorem unifyParts_tellsConflicts {f : Unifier} (hSteps : f.StepsBy allowed)
    (hf : f.TellsConflicts) {tag tag' : Tag} {children children' : List Ty} {conflict : Bool}
    (h : u.WellFormed) (hRun : unifyParts f tag children tag' children' u = some (conflict, u')) :
    ∃ notes, Reports u notes u' ∧ notes.any Note.isConflict = conflict := by
  unfold unifyParts at hRun
  split at hRun
  · exact unifyEach_tellsConflicts hSteps hf _ h hRun
  · obtain ⟨rfl, rfl⟩ := Prod.mk.inj (Option.some.inj hRun)
    exact ⟨_, reports_note u _, rfl⟩

/-- Recording may report that a type was dropped, but no conflict. -/
theorem reports_recordBoth (u : Unification) (left right side : Ty) :
    ∃ notes, Reports u notes (u.recordBoth left right side) ∧
      notes.any Note.isConflict = false := by
  cases side with
  | point p =>
    rcases reports_record u p left with h | h <;>
      rcases reports_record (u.record p left) p right with h' | h' <;>
      exact ⟨_, h.trans h', rfl⟩
  | con => exact ⟨[], .refl u, rfl⟩

/-- One level, by the way through it. -/
theorem Level.tellsConflict {f : Unifier} (hSteps : f.StepsBy allowed) (hf : f.TellsConflicts)
    {left right : Ty} {conflict : Bool} (h : u.WellFormed)
    (hLevel : Level f u left right (conflict, u')) :
    ∃ notes, Reports u notes u' ∧ notes.any Note.isConflict = conflict := by
  have hTouch := (agrees_touch h left right).reports
  have hFormed := h.touch left right
  cases hLevel with
  | same _ => exact ⟨[], .refl u, rfl⟩
  | joined _ => exact ⟨[], hTouch, rfl⟩
  -- a merge in itself reports nothing
  | @merged a b _ hNe hRest =>
    have hNe' := touch_representative_ne h (.point a) (.point b) hNe
    have hMerge : Reports (u.touch (.point a) (.point b)) []
        ((u.touch (.point a) (.point b)).merge a b) := ⟨rfl, rfl, rfl, rfl⟩
    obtain ⟨notes, hNotes, hAny⟩ :=
      unifyEach_tellsConflicts hSteps hf _ (hFormed.merge hNe') hRest
    exact ⟨_, (hTouch.trans hMerge).trans hNotes, by simpa using hAny⟩
  | @pinned _ _ t p _ _ _ =>
    rcases reports_record (u.touch left right) (u.representative p) t with hRecord | hRecord
    · exact ⟨_, hTouch.trans hRecord, rfl⟩
    · exact ⟨_, hTouch.trans hRecord, rfl⟩
  | compared _ _ hParts =>
    obtain ⟨notes, hNotes, hAny⟩ := unifyParts_tellsConflicts hSteps hf hFormed hParts
    exact ⟨_, hTouch.trans hNotes, by simpa using hAny⟩
  | @clashed _ _ tag tag' children children' emit emit' v _ _ hParts =>
    -- what is recorded on the way out may be dropped, which is no conflict
    obtain ⟨notes, hNotes, hAny⟩ := unifyParts_tellsConflicts hSteps hf hFormed hParts
    obtain ⟨notesL, hNotesL, hAnyL⟩ := reports_recordBoth v (.con tag children emit)
      (.con tag' children' emit') left
    obtain ⟨notesR, hNotesR, hAnyR⟩ := reports_recordBoth (v.recordBoth (.con tag children emit)
      (.con tag' children' emit') left) (.con tag children emit) (.con tag' children' emit') right
    refine ⟨_, ((hTouch.trans hNotes).trans hNotesL).trans hNotesR, ?_⟩
    simp [List.any_append, hAny, hAnyL, hAnyR]

/-- **The answer of a unification says whether it has noted a conflict.** -/
theorem unifyWithin_tellsConflicts (fuel : Nat) : (unifyWithin fuel).TellsConflicts := by
  induction fuel with
  | zero =>
    intro left right u conflict u' _ hRun
    simp [unifyWithin] at hRun
  | succ fuel ih =>
    intro left right u conflict u' h hRun
    exact (unifyStep_level h hRun).tellsConflict (unifyWithin_steps fuel) ih h

-- ---------------------------------------------------------------------------
-- Reachable states
-- ---------------------------------------------------------------------------

theorem WellFormed.unifyWithin (h : u.WellFormed) {fuel : Nat} {left right : Ty} {conflict : Bool}
    (hRun : unifyWithin fuel left right u = some (conflict, u')) : u'.WellFormed :=
  h.steps (unifyWithin_steps fuel _ _ _ _ _ h hRun)

/-- The states that the operations lead to from the empty one. Any state may be
committed, whether it was forked from the one it replaces or not. -/
inductive Reachable : Unification → Prop
  | empty : Reachable {}
  | find {u : Unification} (hu : Reachable u) (p : Point) : Reachable (u.find p).2
  | resolve {u : Unification} (hu : Reachable u) (t : Ty) : Reachable (u.resolve t).2
  | isOpen {u : Unification} (hu : Reachable u) (p : Point) : Reachable (u.isOpen p).2
  | unify {u u' : Unification} {fuel : Nat} {left right : Ty} {notes : List Note}
      (hu : Reachable u) (hRun : u.unify fuel left right = some (notes, u')) : Reachable u'
  | defer {u : Unification} (hu : Reachable u) (s : Substitution) : Reachable (u.defer s).2
  | fork {u : Unification} (hu : Reachable u) : Reachable u.fork
  | commit {u branch : Unification} (hu : Reachable u) (hBranch : Reachable branch) :
      Reachable (u.commit branch)

/-- Asking whether a class is open is looking it up. -/
theorem isOpen_snd (u : Unification) (p : Point) : (u.isOpen p).2 = (u.find p).2 := by
  unfold isOpen
  split
  · rename_i hResolve
    exact (congrArg Prod.snd hResolve).symm
  · rename_i hResolve
    exact (congrArg Prod.snd hResolve).symm

/-- A call of `unify` is a unification after which the journal is emptied. -/
theorem unify_eq_some_iff {fuel : Nat} {left right : Ty} {notes : List Note} :
    u.unify fuel left right = some (notes, u') ↔
      ∃ conflict v, Unification.unifyWithin fuel left right u = some (conflict, v) ∧
        notes = v.journal.reverse ∧ u' = { v with journal := [] } := by
  simp only [Unification.unify, takeNotes, Option.bind_eq_bind, Option.bind_eq_some_iff,
    Prod.exists, Option.some.injEq, Prod.mk.injEq]
  constructor
  · rintro ⟨conflict, v, hRun, rfl, rfl⟩
    exact ⟨conflict, v, hRun, rfl, rfl⟩
  · rintro ⟨conflict, v, hRun, rfl, rfl⟩
    exact ⟨conflict, v, hRun, rfl, rfl⟩

/-- **Every reachable state is well formed.** -/
theorem Reachable.wellFormed (h : u.Reachable) : u.WellFormed := by
  induction h with
  | empty => exact wellFormed_empty
  | find _ p ih => exact ih.find p
  | resolve _ t ih => exact ih.resolve t
  | isOpen _ p ih =>
    rw [isOpen_snd]
    exact ih.find p
  | unify _ hRun ih =>
    obtain ⟨conflict, v, hWithin, -, rfl⟩ := unify_eq_some_iff.mp hRun
    exact (ih.unifyWithin hWithin).congr rfl rfl
  | defer _ s ih => exact ih.congr rfl rfl
  | fork _ ih => exact ih.congr rfl rfl
  -- the branch takes the place of the state, which was well formed when it was left
  | commit _ _ _ ih => exact ih.congr rfl rfl

/-- Between unifications the journal is empty. -/
theorem Reachable.journal_eq_nil (h : u.Reachable) : u.journal = [] := by
  induction h with
  | empty => rfl
  | find _ p ih => exact ih
  | @resolve u _ t ih =>
    rcases resolve_snd u t with hEq | ⟨p, hEq⟩
    · rw [hEq]
      exact ih
    · rw [hEq]
      exact ih
  | isOpen _ p ih =>
    rw [isOpen_snd]
    exact ih
  | unify _ hRun _ =>
    obtain ⟨conflict, v, -, -, rfl⟩ := unify_eq_some_iff.mp hRun
    rfl
  | defer _ s ih => exact ih
  | fork _ ih => exact ih
  | commit _ _ _ ih => exact ih

end TraitInference.Unification
