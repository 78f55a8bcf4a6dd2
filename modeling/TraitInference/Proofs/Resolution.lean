import TraitInference.Solve
import TraitInference.Proofs.Counterparts
import TraitInference.Proofs.Evolution
import TraitInference.Proofs.Grouping

/-!
# TraitInference — resolved bounds are instances

When a bound is resolved, the types that the chosen instance gives are unified with
those of the bound: the supplied ones on the fork on which the instance was tried,
the inferred ones once the fork is committed. The types of the bound are
normalised when the session is over. This module follows the equations from the
one moment to the other.

* `Session.Later` — what a session keeps of an earlier one, and what is known of
  the bounds that were resolved in between (`Resolution.Justified`).
* `Session.Effect.later` — every turn leads to a later session, and so does every run
  (`Session.later_runBefore`).
* `Session.resolved_bound_eq_instance_head` — a session that ends in a clean and
  acyclic state has resolved its bounds to instances of which they are instances.
-/

namespace TraitInference

-- ---------------------------------------------------------------------------
-- Justified resolutions
-- ---------------------------------------------------------------------------

/-- The types of the bound are those of the instance, put into the terms of the
bound, as far as the state knows. -/
def Bound.Fits (a : Arena) (u : Unification) (b : Bound) (i : Instance) : Prop :=
  ∃ m : Instantiation a i.node b.source, ∀ (q : Parameter) (t : Ty), i.args[q]? = some t →
    ∃ t', b.args[q]? = some t' ∧ (u.Clean → u.Entails t' (m.image t))

/-- The point occurs in a type that some instance gives. -/
def Program.InHead (program : Program) (p : Point) : Prop :=
  ∃ trait, ∃ i ∈ program.instancesOf trait, ∃ (q : Parameter) (t : Ty),
    i.args[q]? = some t ∧ p ∈ t.points

/-- A bound that was resolved fits a known instance at the node that was chosen,
and its types wait for the end. -/
def Resolution.Justified (program : Program) (a : Arena) (u : Unification) (r : Resolution) :
    Prop :=
  ∀ node isError, r.outcome = .resolved node isError →
    u.deferred[r.deferred]? = some r.bound.args ∧
      ∃ i ∈ program.instancesOf r.bound.trait, i.node = node ∧ r.bound.Fits a u i

/-- What fits an instance fits it in later states. -/
theorem Bound.Fits.later {a : Arena} {u u' : Unification} {b : Bound} {i : Instance}
    (hFits : b.Fits a u i) (h : u.Later u') : b.Fits a u' i := by
  obtain ⟨m, hArgs⟩ := hFits
  refine ⟨m, fun q t hq => ?_⟩
  obtain ⟨t', hFound, hEntails⟩ := hArgs q t hq
  exact ⟨t', hFound, fun hClean => h.entails hClean (hEntails (h.clean hClean))⟩

/-- And what waits for the end waits where it was. -/
theorem Resolution.Justified.later {program : Program} {a : Arena} {u u' : Unification}
    {r : Resolution} (hJustified : r.Justified program a u) (h : u.Later u') :
    r.Justified program a u' := by
  intro node isError hOutcome
  obtain ⟨hDeferred, i, hi, hNode, hFits⟩ := hJustified node isError hOutcome
  refine ⟨?_, i, hi, hNode, hFits.later h⟩
  obtain ⟨more, hMore⟩ := h.deferred
  rw [← hMore, List.getElem?_append_left (List.getElem?_eq_some_iff.mp hDeferred).1]
  exact hDeferred

namespace Session

variable {program : Program} {a : Arena} {s s' s'' : Session}

/-- What `s'` has kept of `s`, and what it knows of the bounds resolved since. -/
structure Later (program : Program) (a : Arena) (s s' : Session) : Prop where
  unification : s.unification.Later s'.unification
  reachable   : s'.unification.Reachable
  resolutions : ∀ r ∈ s'.resolutions, r ∈ s.resolutions ∨ r.Justified program a s'.unification

theorem Later.refl (hs : s.unification.Reachable) : Later program a s s :=
  ⟨.refl _, hs, fun _ => .inl⟩

/-- Resolutions of the first part stay justified in the second. -/
theorem Later.trans (h : Later program a s s') (h' : Later program a s' s'') :
    Later program a s s'' where
  unification := h.unification.trans h'.unification
  reachable := h'.reachable
  resolutions r hr := by
    rcases h'.resolutions r hr with hr' | hJustified
    · exact (h.resolutions r hr').imp_right fun hJustified => hJustified.later h'.unification
    · exact .inr hJustified

/-- A step that resolves nothing. -/
theorem Later.of_unification {u : Unification} (h : s.unification.Later u) (hu : u.Reachable) :
    Later program a s { s with unification := u } :=
  ⟨h, hu, fun _ => .inl⟩

/-- A session that goes on with its fork is later than it was. -/
theorem Later.commit {branch : Session} (hs : s.unification.Reachable)
    (h : Later program a s.fork branch) : Later program a s (s.commit branch) where
  unification := h.unification.commit
  reachable := .commit hs h.reachable
  resolutions r hr := (h.resolutions r hr).imp_right fun hJustified =>
    hJustified.later (Unification.later_commit s.unification branch.unification)

-- ---------------------------------------------------------------------------
-- A bound that is resolved
-- ---------------------------------------------------------------------------

end Session

namespace Unification

variable {depth : Nat} {u u' : Unification} {eqs : List (Ty × Ty)}

/-- After unifications a state is later. -/
theorem Reachable.later_unifyAll (hu : u.Reachable) (hRun : u.unifyAll depth eqs = some u') :
    u'.Reachable ∧ u.Later u' := by
  have hEvolves : u.Evolves (fun _ _ => True) u' := .unifyAll (fun _ _ => trivial) hRun
  exact hEvolves.later hu

/-- What was unified is equal. -/
theorem Reachable.entails_unifyAll (hu : u.Reachable) (hRun : u.unifyAll depth eqs = some u') :
    ∀ eq ∈ eqs, u'.Clean → u'.Entails eq.1 eq.2 := by
  induction eqs generalizing u with
  | nil => exact fun eq hEq => absurd hEq List.not_mem_nil
  | cons eq eqs ih =>
    obtain ⟨notes, v, hFirst, hRest⟩ := unifyAll_cons_iff.mp hRun
    have hv : v.Reachable := .unify hu hFirst
    have hLater := (hv.later_unifyAll hRest).2
    refine List.forall_mem_cons.mpr ⟨fun hClean => ?_, ih hv hRest⟩
    exact hLater.entails hClean (hu.entails_unify hFirst (hLater.clean hClean))

end Unification

namespace Session

variable {b : Bound} {tier : Tier} {i : Instance} {branch : Session} {args found : Substitution}
  {u u' : Unification} {depth : Nat} {settle : Session → SolveM Session} {w : World}

/-- **An instance is taken in the terms of the bound.** -/
theorem Tries.exists_instantiation {D : Point → Prop} {cs : List Constraint} {start stop : World}
    (h : Tries program settle b i s w cs args start branch stop)
    (hOver : program.Over a.Holds D) (hInstance : i.Over a.Holds D)
    (hFree : ∀ (q : Parameter) (t : Ty), i.args[q]? = some t → ∀ p ∈ t.points, ¬ D p)
    (ha : a.Grown w.arena) :
    ∃ m : Instantiation a i.node b.source, args = i.args.mapTypes m.image := by
  obtain ⟨hUnfold, hArgs, -⟩ := h
  obtain ⟨st, hCopy, rfl, hArena⟩ := Call.copying_of_unfold hUnfold
  -- unfolding the instance leaves a copier at work, which goes on with its types
  have hServes := Copier.serves_ofSource a D i.node b.source ∅
  have hReady := CopyM.yields_constraints (fun x hx => hOver.definition hx) ⟨hServes, ha⟩ cs st
    hCopy
  obtain ⟨st', hCopy', -, -⟩ := SolveM.copying_of_copy hArgs
  rw [← hArena] at hCopy'
  obtain ⟨hReady', hChosen⟩ := CopyM.yields_substitution hInstance.args hReady args st' hCopy'
  obtain ⟨m, hm⟩ := hReady'.serves.exists_instantiation
  refine ⟨m, ?_⟩
  rw [← hChosen hFree st'.copier (.refl _) hReady'.serves]
  exact Substitution.mapTypes_congr fun q t hq => hm t (hFree q t hq)

/-- **A bound fits the instance with which its session goes on.** What the instance gives for
a supplied parameter was unified on the fork, what it gives for an inferred one after that. -/
theorem Adopts.bound_fits (h : Adopts depth b tier i s branch args u found u' s')
    (hs : s.unification.Reachable) (hBranch : branch.unification.Reachable)
    {m : Instantiation a i.node b.source} (hArgs : args = i.args.mapTypes m.image) :
    b.Fits a u' i := by
  obtain ⟨hMatched, hCompares⟩ := Unification.matchArgs_ok h.matched
  obtain ⟨hu, -⟩ := hBranch.later_unifyAll hMatched
  have hCommit : (s.unification.commit u).Reachable := .commit hs hu
  have hLater : u.Later u' :=
    (Unification.later_commit s.unification u).trans (hCommit.later_unifyAll h.adopted).2
  have hDistinct : args.toList.Pairwise fun x y => x.1 ≠ y.1 := by
    refine Std.ExtTreeMap.distinct_keys_toList.imp fun hNe hEq => hNe ?_
    simp [hEq]
  refine ⟨m, fun q t hq => ?_⟩
  have hEntry : (q, m.image t) ∈ args.toList := by
    rw [Std.ExtTreeMap.mem_toList_iff_getElem?_eq_some, hArgs, Substitution.mapTypes,
      Std.ExtTreeMap.getElem?_map, hq]
    rfl
  cases hSupplied : b.args.supplied[q]? with
  -- supplied: compared on the fork, and what holds there holds after the commit
  | some t' =>
    refine ⟨t', Substitution.getElem?_of_supplied hSupplied, fun hClean => ?_⟩
    have hEq : (t', m.image t) ∈ b.equations args.toList :=
      Bound.mem_equations.mpr ⟨q, hEntry, hSupplied⟩
    exact hLater.entails hClean
      (hBranch.entails_unifyAll hMatched _ hEq (hLater.clean hClean))
  -- inferred: found on the fork and unified with the slot afterwards
  | none =>
    obtain ⟨slot, hSlot⟩ : ∃ slot, b.args.inferred[q]? = some slot := by
      refine (hCompares.known _ hEntry).resolve_left ?_
      rintro ⟨t', hSome⟩
      rw [hSupplied] at hSome
      cases hSome
    have hFound := hCompares.found hDistinct _ hEntry hSupplied
    have hEq : (slot, m.image t) ∈ b.slots found.toList :=
      Bound.mem_slots.mpr ⟨q, Std.ExtTreeMap.mem_toList_iff_getElem?_eq_some.mpr hFound, hSlot⟩
    exact ⟨slot, Substitution.getElem?_of_inferred hSlot,
      hCommit.entails_unifyAll h.adopted _ hEq⟩

/-- A bound may be closed as resolved to an instance that it fits. -/
theorem later_close (hs : s.unification.Reachable) {b : Bound} {outcome : Option Outcome}
    (hFits : ∀ node isError, outcome = some (.resolved node isError) →
      ∃ i ∈ program.instancesOf b.trait, i.node = node ∧ b.Fits a s.unification i) :
    Later program a s (s.close b outcome) where
  unification := Unification.later_defer _ _
  reachable := .defer hs b.args
  resolutions r hr := by
    rcases List.mem_append.mp hr with hOld | hNew
    · exact .inl hOld
    · right
      obtain ⟨o, rfl, rfl⟩ : ∃ o, outcome = some o ∧ r = ⟨b, s.unification.deferred.length, o⟩ := by
        cases outcome with
        | none => simp at hNew
        | some o => exact ⟨o, rfl, by simpa using hNew⟩
      intro node isError hResolved
      obtain rfl : o = .resolved node isError := hResolved
      obtain ⟨i, hi, hNode, hFit⟩ := hFits node isError rfl
      refine ⟨?_, i, hi, hNode, hFit.later (Unification.later_defer _ _)⟩
      simp [close, Unification.defer]

/-- Going on with a fork of which the bound fits the instance, unless that was assumed. -/
theorem Adopts.later (h : Adopts depth b tier i s branch args u found u' s')
    (hs : s.unification.Reachable) (hBranch : Later program a s.fork branch)
    (hFits : tier ≠ .implied → i ∈ program.instancesOf b.trait ∧ b.Fits a u' i) :
    Later program a s s' := by
  obtain ⟨hu, hMatched⟩ :=
    hBranch.reachable.later_unifyAll (Unification.matchArgs_ok h.matched).1
  have hCommit := Later.commit hs (hBranch.trans (.of_unification hMatched hu))
  obtain ⟨hu', hAdopted⟩ := hCommit.reachable.later_unifyAll h.adopted
  rw [h.closed]
  refine (hCommit.trans (.of_unification hAdopted hu')).trans
    (later_close hu' fun node isError hOutcome => ?_)
  unfold Tier.outcome at hOutcome
  split at hOutcome
  · cases hOutcome
  · rename_i hTier
    obtain ⟨rfl, -⟩ := Outcome.resolved.inj (Option.some.inj hOutcome)
    exact ⟨i, (hFits hTier).1, rfl, (hFits hTier).2⟩

-- ---------------------------------------------------------------------------
-- Turns and runs
-- ---------------------------------------------------------------------------

/-- **A turn leads to a later session**: nothing is forgotten, and if a bound is resolved it
fits an instance. -/
theorem Effect.later {steps : Nat} {c : Constraint} {w' : World}
    (h : Effect program depth (runBefore program depth (some .bound) steps) s c w s' w')
    (hOver : program.Over a.Holds fun p => ¬ program.InHead p) (hs : s.unification.Reachable)
    (ha : a.Grown w.arena)
    (hSettle : Leads a (fun s => s.unification.Reachable) (Later program a)
      (runBefore program depth (some .bound) steps)) : Later program a s s' := by
  have hFork : s.fork.unification.Reachable := .fork hs
  cases h with
  | kept hKeeps =>
    cases hKeeps with
    | ascribed _ hState hEq =>
      have hEvolves : s.unification.Evolves (fun _ _ => True) _ := .ascribe trivial hState
      obtain ⟨hu, hLater⟩ := hEvolves.later hs
      rw [hEq]
      exact .of_unification hLater hu
    | skipped _ _ hEq =>
      rw [hEq]
      exact .refl hs
    | unresolved _ _ _ hEq =>
      rw [hEq]
      refine later_close hs fun node isError hOutcome => ?_
      cases hOutcome
    | assumed _ _ _ hAdopts =>
      exact hAdopts.later hs (.refl hFork) fun hTier => absurd rfl hTier
  | called hCalls =>
    obtain ⟨-, -, rfl⟩ := hCalls
    exact ⟨.refl _, hs, fun _ => .inl⟩
  | accepted hAccepts =>
    obtain ⟨hReachable, hSettled⟩ := hAccepts.leads ha hSettle hFork
    obtain ⟨-, -, hTier, hElects, hTries, hAdopts⟩ := hAccepts
    have hBranch : Later program a s.fork _ :=
      ⟨hSettled.unification, hSettled.reachable, hSettled.resolutions⟩
    -- the instance that was chosen is known to the program, since it is no assumption
    obtain ⟨is, hMem, hi⟩ := hElects.mem
    have hKnown := mem_instancesOf_of_mem_tiers hMem hi hTier
    have hGrown : a.Grown _ := ha.trans (hElects.grown fun hRun => grown_attempt hRun)
    obtain ⟨m, hArgs⟩ := hTries.exists_instantiation hOver (hOver.instancesOf hKnown)
      (fun q t hq p hp hNot => hNot ⟨_, _, hKnown, q, t, hq, hp⟩) hGrown
    exact hAdopts.later hs hBranch fun _ => ⟨hKnown, hAdopts.bound_fits hs hReachable hArgs⟩

/-- **Along a run nothing is forgotten and every resolution is justified.** -/
theorem later_runBefore (hOver : program.Over a.Holds fun p => ¬ program.InHead p)
    (depth steps : Nat) (limit : Option Stage) :
    Leads a (fun s => s.unification.Reachable) (Later program a)
      (runBefore program depth limit steps) := by
  have hCarries : Carries program depth a (fun _ => True) (fun s => s.unification.Reachable)
      (Later program a) :=
    { bound := trivial
      refl := fun hs => .refl hs
      trans := fun h h' => h.trans h'
      turn := fun {_ _ s s' _ agenda _ _} _ hSettle hs ha _ hEffect => ?turn }
  case turn =>
    have hLater : Later program a { s with agenda } s' := hEffect.later hOver hs ha hSettle
    exact ⟨hLater.reachable, hLater.unification, hLater.reachable, hLater.resolutions⟩
  exact hCarries.runBefore steps trivial

end Session

-- ---------------------------------------------------------------------------
-- What is recorded in the end
-- ---------------------------------------------------------------------------

namespace Solution

/-- Groups have nothing to do with bounds. -/
theorem resolvedAt_addGroups (groups : List Group) (solution : Solution) (p : Point) :
    (groups.foldl addGroup solution).resolvedAt p = solution.resolvedAt p := by
  induction groups generalizing solution with
  | nil => rfl
  | cons g groups ih =>
    rw [List.foldl_cons, ih]
    rfl

/-- A bound recorded as resolved at `p` was recorded before, or comes from the
resolution. -/
theorem mem_resolvedAt_addResolution {deferred : List Substitution} {solution : Solution}
    {r : Resolution} {p : Point} {x : ResolvedBound}
    (hx : x ∈ (solution.addResolution deferred r).resolvedAt p) :
    x ∈ solution.resolvedAt p ∨ r.outcome = .resolved x.node x.isError ∧
      x.bound = { r.bound with args := deferred[r.deferred]?.getD r.bound.args } := by
  unfold addResolution at hx
  cases hOutcome : r.outcome with
  | unresolved =>
    simp only [hOutcome] at hx
    exact .inl hx
  | resolved node isError =>
    simp only [hOutcome, resolvedAt, fileUnder, Std.ExtTreeMap.getElem?_alter] at hx
    split at hx
    · rename_i hPoint
      rw [Std.LawfulEqOrd.compare_eq_iff_eq] at hPoint
      rw [Option.getD_some, List.mem_append, List.mem_singleton] at hx
      rcases hx with hOld | rfl
      · exact .inl (hPoint ▸ hOld)
      · exact .inr ⟨rfl, rfl⟩
    · exact .inl hx

/-- The same of several resolutions. -/
theorem mem_resolvedAt_addResolutions {deferred : List Substitution} (rs : List Resolution)
    {solution : Solution} {p : Point} {x : ResolvedBound}
    (hx : x ∈ (rs.foldl (addResolution deferred) solution).resolvedAt p) :
    x ∈ solution.resolvedAt p ∨ ∃ r ∈ rs, r.outcome = .resolved x.node x.isError ∧
      x.bound = { r.bound with args := deferred[r.deferred]?.getD r.bound.args } := by
  induction rs generalizing solution with
  | nil => exact .inl hx
  | cons r rs ih =>
    rcases ih hx with hFirst | ⟨r', hr', hNew⟩
    · exact (mem_resolvedAt_addResolution hFirst).imp_right fun hNew =>
        ⟨r, List.mem_cons_self, hNew⟩
    · exact .inr ⟨r', List.mem_cons_of_mem r hr', hNew⟩

end Solution

namespace Session

variable {program : Program} {s : Session}

/--
**A resolved bound is an instance of the head of the instance that was chosen.**
Let all points of the program be allocated, let no type that an instance gives
mention a point that declares a parameter, and let a session end without a fault
in a state in which no conflict was found, no type was dropped and no class
contains itself. For every bound that it records as resolved there are a known
instance of the bound's trait at the recorded node and one map that puts the
instance into the terms of the bound, such that each type that the instance gives,
for supplied and inferred parameters alike, has the normal form that the bound is
recorded with.
-/
theorem resolved_bound_eq_instance_head {limits : Limits} {w w' : World}
    {implied : List Instance} {cs : List Constraint}
    (hProgram : program.Over w.arena.Holds fun p => ¬ program.InHead p)
    (hRun : (run program limits (start implied cs)).runIn w = (.ok s, w'))
    (hNoError : s.unification.hasError = false) (hNoDrop : s.unification.hasDropped = false)
    (hAcyclic : s.unification.Acyclic) {finished : Finished}
    (hFinish : s.unification.finish w'.arena = .ok finished) (solution : Solution) {p : Point}
    {x : ResolvedBound} (hx : x ∈ (solution.addSession finished s.resolutions).resolvedAt p) :
    x ∈ solution.resolvedAt p ∨ ∃ i ∈ program.instancesOf x.bound.trait, i.node = x.node ∧
      ∃ m : Instantiation w.arena x.node x.bound.source,
        ∀ (q : Parameter) (t : Ty), i.args[q]? = some t → ∃ t', x.bound.args[q]? = some t' ∧
          t'.same (s.unification.apply (m.image t)) = true := by
  have hStart : (start implied cs).unification.Reachable := .empty
  have hSession := (later_runBefore hProgram limits.depth limits.steps none hStart .refl hRun).2
  have hClean : s.unification.Clean := ⟨hNoError, hNoDrop⟩
  have hSingle : s.unification.Single :=
    hSession.unification.single hNoError fun r => by simp [start, Unification.typesAt]
  rw [Solution.addSession] at hx
  rcases Solution.mem_resolvedAt_addResolutions _ hx with hOld | ⟨r, hr, hOutcome, hBound⟩
  · exact .inl (Solution.resolvedAt_addGroups finished.groups solution p ▸ hOld)
  · right
    have hJustified : r.Justified program w.arena s.unification :=
      (hSession.resolutions r hr).resolve_left List.not_mem_nil
    obtain ⟨hDeferred, i, hi, hNode, m, hFits⟩ := hJustified _ _ hOutcome
    -- the bound is reported with the types that were put aside for it, in normal form
    have hArgs : x.bound.args = s.unification.applyAll r.bound.args := by
      rw [hBound, Unification.finish_deferred hFinish, List.getElem?_map, hDeferred]
      rfl
    have hTrait : x.bound.trait = r.bound.trait := by rw [hBound]
    have hSource : x.bound.source = r.bound.source := by rw [hBound]
    rw [hTrait, hSource, ← hNode]
    refine ⟨i, hi, rfl, m, fun q t hq => ?_⟩
    obtain ⟨t', hFound, hEntails⟩ := hFits q t hq
    refine ⟨s.unification.apply t', ?_, ?_⟩
    · rw [hArgs, Unification.applyAll, Substitution.mapTypes, Std.ExtTreeMap.getElem?_map, hFound]
      rfl
    · -- what the state entails shows in normal forms, for it is clean and acyclic
      exact (Unification.entails_iff_apply_same hSession.reachable.wellFormed hAcyclic
        hSingle).mp (hEntails hClean)

-- An instance for pairs that says what the item of a pair is: its first part, the
-- parameter declared at point 2. The second part is point 3, which the instance owns.

/-- The parameter of the trait at point 0 that a bound supplies. -/
def subject : Parameter :=
  ⟨0, "subject", ⟨0⟩, false⟩

/-- The parameter of the trait at point 0 that an instance determines. -/
def item : Parameter :=
  ⟨1, "item", ⟨0⟩, true⟩

/-- The parameter declared at point 2. -/
def firstPart : Ty :=
  .con (.parameter ⟨2, "part", ⟨2⟩, false⟩) [] none

/-- The instance at point 1. -/
def pairs : Instance where
  node := ⟨1⟩
  trait := ⟨0⟩
  args := ((∅ : Substitution).insert subject
    (.con (.named ⟨4⟩) [firstPart, .point ⟨3⟩] none)).insert item firstPart
  isDefault := false
  isError := false

def pairing : Program where
  instances := (∅ : PointMap (List Instance)).insert ⟨0⟩ [pairs]

/-- Asks for the item of a pair of a block and whatever point 6 is; point 7 is to be
that item. -/
def itemWanted : Bound where
  source := ⟨5⟩
  trait := ⟨0⟩
  args := ((∅ : Substitution).insert subject
    (.con (.named ⟨4⟩) [.con .block [] none, .point ⟨6⟩] none)).insert item (.point ⟨7⟩)
  assumed := false
  copied := false

/-- Eight points, of which the third and the fourth belong to the instance. -/
def beforePairing : World where
  arena := ⟨([none, none, some ⟨1⟩, some ⟨1⟩, none, none, none, none].map fun owner =>
    { span := ⟨0, 0⟩, source := "", owner }).toArray⟩

/-- The instance gives two types. -/
theorem pairs_args_cases {q : Parameter} {t : Ty} (h : pairs.args[q]? = some t) :
    t = firstPart ∨ t = .con (.named ⟨4⟩) [firstPart, .point ⟨3⟩] none := by
  simp only [pairs, Std.ExtTreeMap.getElem?_insert] at h
  split at h
  · exact .inl (Option.some.inj h).symm
  · split at h
    · exact .inr (Option.some.inj h).symm
    · simp at h

theorem eq_pairs_of_mem {trait : Point} {i : Instance} (h : i ∈ pairing.instancesOf trait) :
    i = pairs := by
  simp only [Program.instancesOf, pairing, PointMap.getElem?_insert] at h
  split at h
  · simpa using h
  · simp at h

theorem over_pairing : pairing.Over beforePairing.arena.Holds fun p => ¬ pairing.InHead p := by
  have hHead : ∀ p, pairing.InHead p → p = ⟨3⟩ := by
    rintro p ⟨trait, i, hi, q, t, hq, hp⟩
    obtain rfl := eq_pairs_of_mem hi
    rcases pairs_args_cases hq with rfl | rfl
    · simp [firstPart, Ty.points, Ty.pointsOfAll] at hp
    · simpa [firstPart, Ty.points, Ty.pointsOfAll] using hp
  have hPart : ¬ pairing.InHead ⟨2⟩ := fun h => absurd (hHead _ h) (by decide)
  have hHolds : ∀ n < 8, beforePairing.arena.Holds ⟨n⟩ := fun n hn => hn
  refine ⟨by simp [pairing], by simp [pairing], fun trait is hFound => ?_⟩
  simp only [pairing, PointMap.getElem?_insert] at hFound
  split at hFound
  · rename_i hTrait
    obtain rfl := Option.some.inj hFound
    refine ⟨hTrait ▸ hHolds 0 (by decide), fun i hi => ?_⟩
    obtain rfl := List.mem_singleton.mp hi
    refine ⟨hHolds 0 (by decide), fun q t hq => ?_⟩
    rcases pairs_args_cases hq with rfl | rfl
    · exact ⟨hPart, trivial⟩
    · exact ⟨trivial, ⟨hPart, trivial⟩, hHolds 3 (by decide), trivial⟩
  · simp at hFound

/-- The two parameters, one supplied and one inferred, are followed to the end. -/
theorem resolved_bound_eq_instance_head_pairs :
    ∃ s w' finished x,
      (run pairing ⟨3, 3⟩ (start [] [.require itemWanted])).runIn beforePairing = (.ok s, w') ∧
      s.unification.hasError = false ∧ s.unification.hasDropped = false ∧ s.unification.Acyclic ∧
      s.unification.finish w'.arena = .ok finished ∧
      x ∈ (({} : Solution).addSession finished s.resolutions).resolvedAt ⟨5⟩ ∧
      ∃ i ∈ pairing.instancesOf x.bound.trait, i.node = x.node ∧
        ∃ m : Instantiation beforePairing.arena x.node x.bound.source,
          ∀ (q : Parameter) (t : Ty), i.args[q]? = some t → ∃ t', x.bound.args[q]? = some t' ∧
            t'.same (s.unification.apply (m.image t)) = true := by
  have hEnds : (match (run pairing ⟨3, 3⟩ (start [] [.require itemWanted])).runIn beforePairing with
      | (.ok s, w') => !s.unification.hasError && !s.unification.hasDropped &&
        !s.unification.hasCycle && (match s.unification.finish w'.arena with
          | .ok f => !((({} : Solution).addSession f s.resolutions).resolvedAt ⟨5⟩).isEmpty
          | .error _ => false)
      | _ => false) = true := by decide +kernel
  split at hEnds
  · rename_i s w' hRun
    simp only [Bool.and_eq_true, Bool.not_eq_true'] at hEnds
    obtain ⟨⟨⟨hNoError, hNoDrop⟩, hNoCycle⟩, hFinished⟩ := hEnds
    split at hFinished
    · rename_i finished hFinish
      rw [Bool.not_eq_true', List.isEmpty_eq_false_iff] at hFinished
      obtain ⟨x, hx⟩ := List.exists_mem_of_ne_nil _ hFinished
      have hAcyclic := Unification.hasCycle_eq_false_iff.mp hNoCycle
      refine ⟨s, w', finished, x, hRun, hNoError, hNoDrop, hAcyclic, hFinish, hx, ?_⟩
      refine (resolved_bound_eq_instance_head over_pairing hRun hNoError hNoDrop hAcyclic hFinish
        {} hx).resolve_left ?_
      simp [Solution.resolvedAt]
    · cases hFinished
  · cases hEnds

end Session

end TraitInference
