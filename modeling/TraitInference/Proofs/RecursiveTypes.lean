import TraitInference.Proofs.Acyclic

/-!
# TraitInference — when recursive types are kept out

A record never closes a cycle of links; a merge does when the class it absorbs
occurs in a type of the class that survives. So recursive types are kept out
exactly by the runs that make no such merge:

* `unifyUnless` — unification that gives up where it is about to make a call that
  is to be avoided. The runs it completes are the runs of unification without
  such a call.
* `unified_acyclic_iff` — what is reached without a merge that closes a cycle is
  what is reached through acyclic states only.
* `merge_admits_recursive_type` — the shortest sequence of calls that makes such
  a merge.
-/

namespace TraitInference.Unification

open Relation

variable {u u' : Unification}

-- ---------------------------------------------------------------------------
-- One level, with the levels below left open
-- ---------------------------------------------------------------------------

/-- The two sides are points of different classes. -/
def Apart (u : Unification) (left right : Ty) (a b : Point) : Prop :=
  left = .point a ∧ right = .point b ∧ u.representative a ≠ u.representative b

/-- What one level does before it calls the levels below: both sides are looked
up, and if they are points of different classes, these are merged. -/
def Enters (u : Unification) (left right : Ty) (v : Unification) : Prop :=
  (Agrees u v ∧ ∀ a b, ¬ u.Apart left right a b) ∨
    ∃ a b w, u.Apart left right a b ∧ w.WellFormed ∧ Agrees u w ∧ v = w.merge a b

/-- Whatever the levels below are, this level is a row of calls to them, after
which types are recorded but nothing is merged. -/
def Factors (u : Unification) (left right : Ty) : Prop :=
  ∃ pairs v close, v.WellFormed ∧ u.Enters left right v ∧
    (∀ f, unifyStep f left right u = (unifyEach f pairs v).map close) ∧
    ∀ result, Steps (fun _ _ _ => False) result.2 (close result).2

/-- Two points: one class, and there is nothing to do, or two classes, and the types of the
second are given to the first. -/
theorem factors_points (h : u.WellFormed) {a b : Point}
    (hStep : ∀ f, unifyStep f (.point a) (.point b) u = unifyPoints f a b u) :
    u.Factors (.point a) (.point b) := by
  have hTouch := h.touch (.point a) (.point b)
  have hAgrees := agrees_touch h (.point a) (.point b)
  have hFind := agrees_find h.forest a
  by_cases hRoots : u.representative a = u.representative b
  · -- both are in one class
    refine ⟨[], u.touch (.point a) (.point b), id, hTouch, .inl ⟨hAgrees, ?_⟩, fun f => ?_,
      fun _ => .refl⟩
    · rintro _ _ ⟨⟨⟩, ⟨⟩, hNe⟩
      exact hNe hRoots
    simp only [hStep, unifyPoints, find_fst, hFind.representative, if_pos hRoots]
    rfl
  · refine ⟨(u.typesAt (u.representative b)).map fun t => (.point a, t), _, id,
      hTouch.merge (touch_representative_ne h _ _ hRoots),
      .inr ⟨a, b, _, ⟨rfl, rfl, hRoots⟩, hTouch, hAgrees, rfl⟩, fun f => ?_, fun _ => .refl⟩
    simp only [hStep, unifyPoints, find_fst, find_typesAt, hFind.representative, if_neg hRoots]
    exact (Option.map_id_apply ..).symm

/-- An open point and a type that is not a point: the type is recorded. -/
theorem factors_pinned (h : u.WellFormed) {left right t : Ty} {p : Point}
    (hTogether : ∀ a b, ¬ u.Apart left right a b) (hCon : ∀ q, t ≠ .point q)
    (hStep : ∀ f, unifyStep f left right u = some (false, (u.touch left right).record p t)) :
    u.Factors left right := by
  refine ⟨[], u.touch left right, fun result => (false, result.2.record p t), h.touch left right,
    .inl ⟨agrees_touch h left right, hTogether⟩, hStep, ?_⟩
  rintro ⟨conflict, w⟩
  exact .single (.record w p hCon)

/-- Two types that are known: their children pair by pair, and both types on both sides if
there is a conflict. -/
theorem factors_known (h : u.WellFormed) {left right : Ty} (tag tag' : Tag)
    (children children' : List Ty) (emit emit' : Option String)
    (hTogether : ∀ a b, ¬ u.Apart left right a b)
    (hStep : ∀ f, unifyStep f left right u = unifyKnown f left right (.con tag children emit)
      (.con tag' children' emit') (u.touch left right)) : u.Factors left right := by
  -- what is recorded is the same whether the tags or the children disagree
  let recorded (w : Unification) : Unification :=
    (w.recordBoth (.con tag children emit) (.con tag' children' emit') left).recordBoth
      (.con tag children emit) (.con tag' children' emit') right
  have hRecorded : ∀ w, Steps (fun _ _ _ => False) w (recorded w) := fun w =>
    (steps_recordBoth w (by simp) (by simp) left).trans
      (steps_recordBoth _ (by simp) (by simp) right)
  have hEnters : u.Enters left right (u.touch left right) :=
    .inl ⟨agrees_touch h left right, hTogether⟩
  by_cases hShape : tag = tag' ∧ children.length = children'.length
  · refine ⟨children.zip children', _, fun result =>
      if result.1 then (true, recorded result.2) else (false, result.2), h.touch left right,
      hEnters, ?_, ?_⟩
    · intro f
      simp only [hStep, unifyKnown, unifyParts, if_pos hShape, Option.bind_eq_bind]
      cases unifyEach f (children.zip children') (u.touch left right) with
      | none => rfl
      | some result => cases hConflict : result.1 <;> simp [hConflict, recorded]
    · rintro ⟨conflict, w⟩
      cases conflict with
      | false => exact .refl
      | true => exact hRecorded w
  · refine ⟨[], _, fun result => (true, recorded (result.2.note (.conflict tag tag'))),
      h.touch left right, hEnters, ?_, ?_⟩
    · intro f
      simp only [hStep, unifyKnown, unifyParts, if_neg hShape]
      rfl
    · rintro ⟨conflict, w⟩
      exact .head (.note w _) (hRecorded _)

/-- **One level is a row of calls**, whatever its two sides are. -/
theorem unifyStep_factors (h : u.WellFormed) (left right : Ty) : u.Factors left right := by
  by_cases hSame : left.same right = true
  · refine ⟨[], u, id, h, .inl ⟨.refl u, ?_⟩, fun f => ?_, fun _ => .refl⟩
    · rintro a b ⟨rfl, rfl, hNe⟩
      obtain rfl : a = b := by simpa [Ty.same] using hSame
      exact hNe rfl
    · unfold unifyStep
      rw [if_pos hSame]
      rfl
  cases left with
  -- what is known of a point decides whether it is pinned or compared
  | point a =>
    cases right with
    | point b =>
      refine factors_points h fun f => ?_
      unfold unifyStep
      rw [if_neg hSame]
    | con tag children emit =>
      rcases resolve_point_cases h a with ⟨-, hFirst⟩ | ⟨tag', children', emit', hFirst, -⟩
      · refine factors_pinned h (t := .con tag children emit) (p := u.representative a)
          (by simp [Apart]) (by simp) fun f => ?_
        unfold unifyStep
        rw [if_neg hSame]
        simp only [hFirst]
        rfl
      · refine factors_known h tag' tag children' children emit' emit (by simp [Apart]) fun f => ?_
        unfold unifyStep
        rw [if_neg hSame]
        simp only [hFirst]
        rfl
  | con tag children emit =>
    cases right with
    | point b =>
      rcases resolve_point_cases h b with ⟨hOpen, -⟩ | ⟨tag', children', emit', hFirst, -⟩
      · refine factors_pinned h (t := .con tag children emit) (p := u.representative b)
          (by simp [Apart]) (by simp) fun f => ?_
        unfold unifyStep
        rw [if_neg hSame]
        simp only [resolve, find_fst, find_typesAt, hOpen]
        rfl
      · have hFirst' : ((u.resolve (.con tag children emit)).2.resolve (.point b)).1 = _ := hFirst
        refine factors_known h tag tag' children children' emit emit' (by simp [Apart]) fun f => ?_
        unfold unifyStep
        rw [if_neg hSame]
        simp only [hFirst']
        rfl
    | con tag' children' emit' =>
      refine factors_known h tag tag' children children' emit emit' (by simp [Apart]) fun f => ?_
      unfold unifyStep
      rw [if_neg hSame]
      rfl

-- ---------------------------------------------------------------------------
-- Merges that close a cycle
-- ---------------------------------------------------------------------------

/-- Whether the two sides are points whose merge closes a cycle: the class of the
second occurs in a type of the class of the first, which survives. -/
def closesCycle : Ty → Ty → Unification → Bool
  | .point a, .point b, u =>
    u.representative a ≠ u.representative b &&
      (u.typesAt (u.representative a)).any (u.occurs (u.representative b))
  | _, _, _ => false

/-- The check is about ways of at least one link. -/
theorem closesCycle_iff {left right : Ty} :
    closesCycle left right u = true ↔ ∃ a b, u.Apart left right a b ∧
      TransGen u.Links (u.representative a) (u.representative b) := by
  simp only [transGen_links_iff]
  constructor
  · intro hCloses
    match left, right with
    | .point a, .point b =>
      simp only [closesCycle, ne_eq, Bool.and_eq_true, decide_eq_true_eq, List.any_eq_true]
        at hCloses
      exact ⟨a, b, ⟨rfl, rfl, hCloses.1⟩, hCloses.2⟩
  · rintro ⟨a, b, ⟨rfl, rfl, hNe⟩, hOccurs⟩
    simp only [closesCycle, ne_eq, Bool.and_eq_true, decide_eq_true_eq, List.any_eq_true]
    exact ⟨hNe, hOccurs⟩

/-- Before the calls below it, one level takes an acyclic state to an acyclic one
unless it makes a merge that closes a cycle. -/
theorem Enters.acyclic_iff {left right : Ty} {v : Unification} (h : u.Enters left right v)
    (hAcyclic : u.Acyclic) : v.Acyclic ↔ closesCycle left right u = false := by
  rw [← Bool.not_eq_true, closesCycle_iff]
  rcases h with ⟨hAgrees, hTogether⟩ | ⟨a, b, w, hApart, hFormed, hAgrees, rfl⟩
  · constructor
    · rintro - ⟨a, b, hApart, -⟩
      exact hTogether a b hApart
    · intro _
      exact hAgrees.acyclic_iff.mpr hAcyclic
  · -- the merge is made in a state that agrees with `u`, so links are the same there
    obtain ⟨rfl, rfl, hNe⟩ := hApart
    have hLinks : w.Links = u.Links := by
      funext r r'
      exact propext hAgrees.links_iff
    have hNe' : w.representative a ≠ w.representative b := by
      rw [hAgrees.representative, hAgrees.representative]
      exact hNe
    rw [acyclic_merge_iff hFormed (hAgrees.acyclic_iff.mpr hAcyclic) hNe', hLinks,
      hAgrees.representative, hAgrees.representative]
    constructor
    · rintro hOpen ⟨_, _, ⟨⟨⟩, ⟨⟩, -⟩, hWay⟩
      exact hOpen hWay
    · intro hNone hWay
      exact hNone ⟨a, b, ⟨rfl, rfl, hNe⟩, hWay⟩

/-- Without merges, cycles neither come nor go. -/
theorem acyclic_steps_iff (h : u.WellFormed) (hSteps : Steps (fun _ _ _ => False) u u') :
    u'.Acyclic ↔ u.Acyclic := by
  induction hSteps with
  | refl => exact Iff.rfl
  | tail hBefore hStep ih =>
    rw [← ih]
    have hFormed := h.steps hBefore
    cases hStep with
    | find p => exact (agrees_find hFormed.forest p).acyclic_iff
    | note n => exact acyclic_note n
    | record p _ => exact ⟨acyclic_of_record hFormed, fun hAcyclic => hAcyclic.record hFormed p _⟩
    | merge _ hAllowed => exact hAllowed.elim

-- ---------------------------------------------------------------------------
-- Runs that avoid some calls
-- ---------------------------------------------------------------------------

/-- Unification that has no result when it comes to a call that is to be avoided. -/
def unifyUnless (avoid : Ty → Ty → Unification → Bool) : Nat → Unifier
  | 0 => fun _ _ _ => none
  | fuel + 1 => fun left right u =>
    if avoid left right u then none
    else unifyStep (unifyUnless avoid fuel) left right u

/-- A run that completes although some calls are to be avoided is a run of unification. -/
theorem unifyUnless_extends (avoid : Ty → Ty → Unification → Bool) (fuel : Nat) :
    (unifyUnless avoid fuel).Extends (unifyWithin fuel) := by
  induction fuel with
  | zero =>
    intro left right u result hRun
    exact hRun
  | succ fuel ih =>
    intro left right u result hRun
    simp only [unifyUnless, Option.ite_none_left_eq_some] at hRun
    exact unifyStep_extends ih left right u result hRun.2

theorem WellFormed.unifyUnless (h : u.WellFormed) {avoid : Ty → Ty → Unification → Bool}
    {fuel : Nat} {left right : Ty} {conflict : Bool}
    (hRun : unifyUnless avoid fuel left right u = some (conflict, u')) : u'.WellFormed :=
  h.unifyWithin (unifyUnless_extends avoid fuel _ _ _ _ hRun)

/-- The calls that are made in a state with a cycle. -/
def startsCyclic (_ _ : Ty) (u : Unification) : Bool :=
  u.hasCycle

/-- A run that makes no call in a state with a cycle did not start in one. -/
theorem acyclic_of_unifyUnless_startsCyclic {fuel : Nat} {left right : Ty}
    {result : Bool × Unification}
    (hRun : unifyUnless startsCyclic fuel left right u = some result) : u.Acyclic := by
  cases fuel with
  | zero => simp [unifyUnless] at hRun
  | succ fuel =>
    simp only [unifyUnless, Option.ite_none_left_eq_some] at hRun
    exact hasCycle_eq_false_iff.mp (Bool.eq_false_iff.mpr hRun.1)

-- forwards, the invariant is that the state before a call is acyclic

/-- The row of calls below one level, from left to right. -/
theorem unifyEach_startsAcyclic {fuel : Nat}
    (hf : ∀ left right u conflict u', u.WellFormed → u.Acyclic →
      unifyUnless closesCycle fuel left right u = some (conflict, u') →
      unifyUnless startsCyclic fuel left right u = some (conflict, u') ∧ u'.Acyclic)
    (pairs : List (Ty × Ty)) {u u' : Unification} {conflict : Bool} (h : u.WellFormed)
    (hAcyclic : u.Acyclic)
    (hRun : unifyEach (unifyUnless closesCycle fuel) pairs u = some (conflict, u')) :
    unifyEach (unifyUnless startsCyclic fuel) pairs u = some (conflict, u') ∧ u'.Acyclic := by
  induction pairs generalizing u conflict with
  | nil =>
    exact ⟨hRun, (unifyEach_nil_iff.mp hRun).2 ▸ hAcyclic⟩
  | cons pair rest ih =>
    obtain ⟨left, right⟩ := pair
    obtain ⟨c, v, c', hFirst, hLater, hConflict⟩ := unifyEach_cons_iff.mp hRun
    obtain ⟨hFirst', hNext⟩ := hf _ _ _ _ _ h hAcyclic hFirst
    obtain ⟨hLater', hLast⟩ := ih (h.unifyUnless hFirst) hNext hLater
    exact ⟨unifyEach_cons_iff.mpr ⟨c, v, c', hFirst', hLater', hConflict⟩, hLast⟩

/-- Without a merge that closes a cycle, every call starts in an acyclic state,
and so does what comes after the run. -/
theorem unifyUnless_startsCyclic_of_closesCycle (fuel : Nat) :
    ∀ left right u conflict u', u.WellFormed → u.Acyclic →
      unifyUnless closesCycle fuel left right u = some (conflict, u') →
      unifyUnless startsCyclic fuel left right u = some (conflict, u') ∧ u'.Acyclic := by
  induction fuel with
  | zero =>
    intro left right u conflict u' _ _ hRun
    simp [unifyUnless] at hRun
  | succ fuel ih =>
    intro left right u conflict u' h hAcyclic hRun
    obtain ⟨pairs, v, close, hFormed, hEnters, hFactors, hSteps⟩ := unifyStep_factors h left right
    simp only [unifyUnless, Option.ite_none_left_eq_some, hFactors, Option.map_eq_some_iff]
      at hRun ⊢
    obtain ⟨hOpen, ⟨c, w⟩, hBelow, hClose⟩ := hRun
    -- the merge, if there is one, closes no cycle, so the calls below start in an acyclic state
    have hEntered : v.Acyclic := (hEnters.acyclic_iff hAcyclic).mpr (Bool.eq_false_iff.mpr hOpen)
    obtain ⟨hBelow', hLeft⟩ := unifyEach_startsAcyclic ih pairs hFormed hEntered hBelow
    have hFormedLeft : w.WellFormed := by
      exact hFormed.steps (unifyEach_steps (unifyWithin_steps fuel) pairs hFormed
        (unifyEach_extends (unifyUnless_extends closesCycle fuel) pairs hBelow))
    refine ⟨⟨Bool.eq_false_iff.mp (hasCycle_eq_false_iff.mpr hAcyclic), _, hBelow', hClose⟩, ?_⟩
    have hClosed := (acyclic_steps_iff hFormedLeft (hSteps (c, w))).mpr hLeft
    rw [hClose] at hClosed
    exact hClosed

-- backwards, it is that the state after a call is

/-- The same row from right to left. -/
theorem unifyEach_closesNoCycle {fuel : Nat}
    (hf : ∀ left right u conflict u', u.WellFormed → u'.Acyclic →
      unifyUnless startsCyclic fuel left right u = some (conflict, u') →
      unifyUnless closesCycle fuel left right u = some (conflict, u'))
    (pairs : List (Ty × Ty)) {u u' : Unification} {conflict : Bool} (h : u.WellFormed)
    (hAcyclic : u'.Acyclic)
    (hRun : unifyEach (unifyUnless startsCyclic fuel) pairs u = some (conflict, u')) :
    unifyEach (unifyUnless closesCycle fuel) pairs u = some (conflict, u') ∧ u.Acyclic := by
  induction pairs generalizing u conflict with
  | nil =>
    exact ⟨hRun, (unifyEach_nil_iff.mp hRun).2 ▸ hAcyclic⟩
  | cons pair rest ih =>
    obtain ⟨left, right⟩ := pair
    obtain ⟨c, v, c', hFirst, hLater, hConflict⟩ := unifyEach_cons_iff.mp hRun
    obtain ⟨hLater', hNext⟩ := ih (h.unifyUnless hFirst) hLater
    have hFirst' := hf _ _ _ _ _ h hNext hFirst
    exact ⟨unifyEach_cons_iff.mpr ⟨c, v, c', hFirst', hLater', hConflict⟩,
      acyclic_of_unifyUnless_startsCyclic hFirst⟩

/-- A run through acyclic states that ends in one makes no merge that closes a
cycle. -/
theorem unifyUnless_closesCycle_of_startsCyclic (fuel : Nat) :
    ∀ left right u conflict u', u.WellFormed → u'.Acyclic →
      unifyUnless startsCyclic fuel left right u = some (conflict, u') →
      unifyUnless closesCycle fuel left right u = some (conflict, u') := by
  induction fuel with
  | zero =>
    intro left right u conflict u' _ _ hRun
    simp [unifyUnless] at hRun
  | succ fuel ih =>
    intro left right u conflict u' h hAcyclic hRun
    have hStart := acyclic_of_unifyUnless_startsCyclic hRun
    obtain ⟨pairs, v, close, hFormed, hEnters, hFactors, hSteps⟩ := unifyStep_factors h left right
    simp only [unifyUnless, Option.ite_none_left_eq_some, hFactors, Option.map_eq_some_iff]
      at hRun ⊢
    obtain ⟨-, ⟨c, w⟩, hBelow, hClose⟩ := hRun
    have hFormedLeft : w.WellFormed := by
      exact hFormed.steps (unifyEach_steps (unifyWithin_steps fuel) pairs hFormed
        (unifyEach_extends (unifyUnless_extends startsCyclic fuel) pairs hBelow))
    -- what is recorded at the end makes no difference, so the row of calls ends acyclic
    have hLeft : w.Acyclic := by
      rw [← acyclic_steps_iff hFormedLeft (hSteps (c, w)), hClose]
      exact hAcyclic
    obtain ⟨hBelow', hEntered⟩ := unifyEach_closesNoCycle ih pairs hFormed hLeft hBelow
    exact ⟨Bool.eq_false_iff.mp ((hEnters.acyclic_iff hStart).mp hEntered), _, hBelow', hClose⟩

-- ---------------------------------------------------------------------------
-- Sequences of unifications
-- ---------------------------------------------------------------------------

/-- The states that unifications lead to from the empty one, without a call that
is to be avoided on any level of any of them. -/
inductive UnifiedUnless (avoid : Ty → Ty → Unification → Bool) : Unification → Prop
  | empty : UnifiedUnless avoid {}
  | unify {u u' : Unification} {fuel : Nat} {left right : Ty} {notes : List Note}
      (hu : UnifiedUnless avoid u) (hRun : u.unify fuel left right = some (notes, u'))
      (hAvoids : (unifyUnless avoid fuel left right u).isSome) : UnifiedUnless avoid u'

theorem UnifiedUnless.wellFormed {avoid : Ty → Ty → Unification → Bool}
    (h : UnifiedUnless avoid u) : u.WellFormed := by
  induction h with
  | empty => exact wellFormed_empty
  | unify _ hRun _ ih =>
    obtain ⟨conflict, v, hWithin, -, rfl⟩ := unify_eq_some_iff.mp hRun
    exact (ih.unifyWithin hWithin).congr rfl rfl

/-- What a completed run that avoids some calls leads to is what `unify` gives,
up to the journal. -/
theorem exists_unifyUnless {avoid : Ty → Ty → Unification → Bool} {fuel : Nat} {left right : Ty}
    {notes : List Note} (hRun : u.unify fuel left right = some (notes, u'))
    (hAvoids : (unifyUnless avoid fuel left right u).isSome) :
    ∃ conflict v, unifyUnless avoid fuel left right u = some (conflict, v) ∧
      u' = { v with journal := [] } := by
  obtain ⟨⟨conflict, v⟩, hCompleted⟩ := Option.isSome_iff_exists.mp hAvoids
  obtain ⟨conflict', v', hWithin, -, rfl⟩ := unify_eq_some_iff.mp hRun
  have hEq := unifyUnless_extends avoid fuel _ _ _ _ hCompleted
  rw [hWithin] at hEq
  obtain ⟨-, rfl⟩ := Prod.mk.inj (Option.some.inj hEq)
  exact ⟨conflict, v', hCompleted, rfl⟩

theorem acyclic_empty : Acyclic {} := by
  intro r hCycle
  obtain ⟨t, ht, -⟩ := transGen_links_iff.mp hCycle
  simp [typesAt] at ht

/-- **Recursive types are kept out exactly by the sequences of unifications that
never merge a class into one in whose types it occurs.** -/
theorem unified_acyclic_iff (u : Unification) :
    UnifiedUnless closesCycle u ↔ UnifiedUnless startsCyclic u ∧ u.Acyclic := by
  constructor
  · intro h
    induction h with
    | empty => exact ⟨.empty, acyclic_empty⟩
    | unify _ hRun hAvoids ih =>
      obtain ⟨hReached, hAcyclic⟩ := ih
      obtain ⟨conflict, v, hCompleted, rfl⟩ := exists_unifyUnless hRun hAvoids
      obtain ⟨hStarts, hEnd⟩ := unifyUnless_startsCyclic_of_closesCycle _ _ _ _ _ _
        hReached.wellFormed hAcyclic hCompleted
      exact ⟨.unify hReached hRun (by rw [hStarts]; rfl), hEnd⟩
  · rintro ⟨h, hAcyclic⟩
    induction h with
    | empty => exact .empty
    | unify hReached hRun hAvoids ih =>
      obtain ⟨conflict, v, hCompleted, rfl⟩ := exists_unifyUnless hRun hAvoids
      have hEnd : v.Acyclic := hAcyclic
      have hCloses := unifyUnless_closesCycle_of_startsCyclic _ _ _ _ _ _ hReached.wellFormed
        hEnd hCompleted
      exact .unify (ih (acyclic_of_unifyUnless_startsCyclic hCompleted)) hRun
        (by rw [hCloses]; rfl)

/-- Point 0 is made a list of point 1, and then the two points are made equal:
their class now occurs in its own type, and nothing was reported. -/
theorem merge_admits_recursive_type :
    ∃ u, UnifiedUnless (fun _ _ _ => false) u ∧ ¬ u.Acyclic ∧
      u.hasError = false ∧ u.hasDropped = false := by
  have hFirst : ({} : Unification).unify 2 (.point ⟨0⟩) (.con (.named ⟨5⟩) [.point ⟨1⟩] none) =
      some ([], _) := rfl
  have hEmpty : UnifiedUnless (fun _ _ _ => false) {} := .empty
  have hListed := hEmpty.unify hFirst rfl
  have hMerged := hListed.unify
    (show Unification.unify _ 2 (.point ⟨0⟩) (.point ⟨1⟩) = some ([], _) from rfl) rfl
  refine ⟨_, hMerged, ?_, rfl, rfl⟩
  rw [← hasCycle_eq_false_iff, Bool.not_eq_false]
  rfl

end TraitInference.Unification
