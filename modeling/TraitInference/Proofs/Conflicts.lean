import TraitInference.Proofs.Evolution
import TraitInference.Proofs.Exposure
import TraitInference.Proofs.Lookup
import TraitInference.Proofs.Unfolding

/-!
# TraitInference — conflicts that are found are reported

A session raises a flag when it finds a conflict, but nobody looks at the flag: what the
user gets to see are the groups with several types. This module connects the two.

* A state that evolved by equations about points, has dropped no type and has a solution
  of any kind has not raised the flag (`Unification.Evolves.exposes`).
* A state without a group in conflict has a solution
  (`Unification.models_unfolded_of_no_conflict`).
* So the flag is up exactly if some group is in conflict, and every such group is
  reported as an error (`Session.hasError_iff_conflicting`).

Both conditions are needed (`Session.conflicts_unreported`). The second of two types
that disagree may be a recursive one, and then it is dropped; and a bound that says
itself what an inferred parameter is to be has no point on which a disagreement with the
chosen instance could be recorded.
-/

namespace TraitInference

-- ---------------------------------------------------------------------------
-- The flag
-- ---------------------------------------------------------------------------

namespace Unification

variable {u u' : Unification} {allowed : Ty → Ty → Prop} {A : Type} {node : Tag → List A → A}
  {σ : Point → A}

/-- A fork without a conflict leaves the flag as it was. -/
theorem hasError_commit {branch : Unification} (hFits : branch.hasError = false) :
    (u.commit branch).hasError = u.hasError := by
  simp [Unification.commit, hFits]

/-- **As long as nothing is dropped**, what solves a state solved those from which it
evolved; and if anything solves it, equations about points have raised no flag. -/
theorem Evolves.exposes (h : Evolves allowed u u') (hu : u.Reachable)
    (hNoDrop : u'.hasDropped = false) (hNode : Function.Injective2 node)
    (hModels : Models node σ u') :
    Models node σ u ∧ ((∀ left right, allowed left right → ∃ p, left = .point p) →
      u'.hasError = u.hasError) := by
  induction h with
  | refl => exact ⟨hModels, fun _ => rfl⟩
  | unify h hAllowed hRun ih =>
    have hReachable := (h.later hu).1
    obtain ⟨hBefore, hQuiet⟩ := hReachable.exposes_unify hRun hNoDrop hNode hModels
    obtain ⟨hFirst, hFlag⟩ := ih hu ((hReachable.later_unify hRun).noDrop hNoDrop) hBefore
    exact ⟨hFirst, fun hPoints => (hQuiet (hPoints _ _ hAllowed)).trans (hFlag hPoints)⟩
  -- only shortens the ways to the roots
  | isOpen h p ih =>
    rw [isOpen_snd] at hModels hNoDrop ⊢
    exact ih hu hNoDrop ((agrees_find (h.later hu).1.wellFormed.forest p).models_iff.mp hModels)
  | defer _ _ ih => exact ih hu hNoDrop ⟨hModels.representative, hModels.types⟩
  | commit h _ hFits ih ihBranch =>
    obtain ⟨hNoDropBranch, hNoDropBefore⟩ := Bool.or_eq_false_iff.mp hNoDrop
    obtain ⟨hFork, -⟩ := ihBranch (.fork (h.later hu).1) hNoDropBranch
      ⟨hModels.representative, hModels.types⟩
    -- whatever was unified on the fork, it has found no conflict there
    rw [hasError_commit hFits]
    exact ih hu hNoDropBefore ⟨hFork.representative, hFork.types⟩

end Unification

-- ---------------------------------------------------------------------------
-- Errors
-- ---------------------------------------------------------------------------

namespace Solution

variable {g : Group}

/-- Errors stay where they are, and the groups are lined up. -/
theorem errors_addGroups (gs : List Group) (solution : Solution) :
    solution.errors <+: (gs.foldl addGroup solution).errors ∧
      solution.groups.toList ++ gs = (gs.foldl addGroup solution).groups.toList := by
  induction gs generalizing solution with
  | nil => exact ⟨List.prefix_rfl, by simp⟩
  | cons g gs ih =>
    obtain ⟨hErrors, hGroups⟩ := ih (solution.addGroup g)
    have hFirst : solution.errors <+: (solution.addGroup g).errors := by
      unfold addGroup
      split
      · exact List.prefix_append ..
      · exact List.prefix_rfl
    refine ⟨hFirst.trans hErrors, Eq.trans ?_ hGroups⟩
    simp [addGroup]

/-- Bounds come later, and take back no error either. -/
theorem errors_addResolutions (deferred : List Substitution) (rs : List Resolution)
    (solution : Solution) :
    solution.errors <+: (rs.foldl (addResolution deferred) solution).errors := by
  induction rs generalizing solution with
  | nil => exact List.prefix_rfl
  | cons r rs ih =>
    refine List.IsPrefix.trans ?_ (ih (addResolution deferred solution r))
    unfold addResolution
    cases r.outcome with
    | unresolved => exact List.prefix_append ..
    | resolved node isError =>
      cases isError with
      | false => exact List.prefix_rfl
      | true => exact List.prefix_append ..

/-- **Every group in conflict is an error**, reported at one of its points and under its
number. -/
theorem exists_conflict_of_mem {u : Unification} {a : Arena} {f : Finished}
    (h : u.finish a = .ok f) (hg : g ∈ f.groups) (hConflict : g.isConflicting = true)
    (rs : List Resolution) (solution : Solution) :
    ∃ p ∈ g.nodes, ∃ n, solution.groups.size ≤ n ∧
      (solution.addSession f rs).groups[n]? = some g ∧
      .conflictingTypes p n ∈ (solution.addSession f rs).errors := by
  obtain ⟨before, after, hSplit⟩ := List.append_of_mem hg
  obtain ⟨p, ps, hNodes⟩ :=
    List.exists_cons_of_ne_nil (((Unification.groups_spec h).1 g).mp hg).nodes_ne_nil
  have hEarlier := (errors_addGroups before solution).2
  have hFold : f.groups.foldl addGroup solution =
      after.foldl addGroup ((before.foldl addGroup solution).addGroup g) := by
    rw [hSplit, List.foldl_append, List.foldl_cons]
  obtain ⟨hErrors, hGroups⟩ :=
    errors_addGroups after ((before.foldl addGroup solution).addGroup g)
  refine ⟨p, hNodes ▸ List.mem_cons_self, (before.foldl addGroup solution).groups.size, ?_, ?_, ?_⟩
  · -- its number is not one that was given before
    rw [← Array.length_toList, ← Array.length_toList, ← hEarlier, List.length_append]
    exact Nat.le_add_right ..
  · rw [addSession, (addResolutions_groups f.deferred rs _).1, hFold, ← Array.getElem?_toList,
      ← hGroups]
    simp [addGroup]
  · refine (errors_addResolutions f.deferred rs _).subset ?_
    rw [hFold]
    refine hErrors.subset ?_
    simp [addGroup, hConflict, hNodes]

end Solution

-- ---------------------------------------------------------------------------
-- Sessions
-- ---------------------------------------------------------------------------

namespace Session

/--
**A conflict that was found is reported.** Let every bound of a program and of a session
leave its inferred parameters to points, and let the session end without having dropped
a recursive type. Then it has found a conflict exactly if some of its groups has several
types; and then such a group is added to whatever was found before, with the error that
names it.
-/
theorem hasError_iff_conflicting {program : Program} {limits : Limits}
    {implied : List Instance} {cs : List Constraint} {s : Session} {f : Finished} {w w' : World}
    (hProgram : program.OpenSlots) (hConstraints : ∀ c ∈ cs, c.OpenSlots)
    (hRun : (run program limits (start implied cs)).runIn w = (.ok s, w'))
    (hNoDrop : s.unification.hasDropped = false)
    (hFinish : s.unification.finish w'.arena = .ok f) :
    (s.unification.hasError = true ↔ ∃ g ∈ f.groups, g.isConflicting = true) ∧
      (s.unification.hasError = true → ∀ solution : Solution,
        ∃ g ∈ f.groups, g.isConflicting = true ∧ ∃ p ∈ g.nodes, ∃ n, solution.groups.size ≤ n ∧
          (solution.addSession f s.resolutions).groups[n]? = some g ∧
          .conflictingTypes p n ∈ (solution.addSession f s.resolutions).errors) := by
  have hEvolves := evolves_run hProgram hConstraints hRun
  obtain ⟨hReachable, hLater⟩ := hEvolves.later .empty
  have hFound : s.unification.hasError = true ↔ ∃ g ∈ f.groups, g.isConflicting = true := by
    constructor
    · -- without a group in conflict the state has a solution, infinite types allowed, and then
      -- no flag is up
      intro hError
      by_contra hNone
      have hQuiet : ∀ g ∈ f.groups, g.isConflicting = false := fun g hg => by
        rw [← Bool.not_eq_true]
        exact fun hConflict => hNone ⟨g, hg, hConflict⟩
      have hModels := Unification.models_unfolded_of_no_conflict hReachable.wellFormed hFinish
        hQuiet
      have hFlag := (hEvolves.exposes .empty hNoDrop Unfolded.node_injective hModels).2
        fun _ _ => id
      rw [hError] at hFlag
      cases hFlag
    · -- without the flag every class has one type at most
      rintro ⟨g, hg, hConflict⟩
      by_contra hNoError
      rw [Bool.not_eq_true] at hNoError
      have hSingle : s.unification.Single :=
        hLater.single hNoError fun r => by simp [Unification.typesAt]
      rw [Unification.not_isConflicting_of_single hSingle hFinish hg] at hConflict
      cases hConflict
  refine ⟨hFound, fun hError solution => ?_⟩
  obtain ⟨g, hg, hConflict⟩ := hFound.mp hError
  exact ⟨g, hg, hConflict,
    Solution.exists_conflict_of_mem hFinish hg hConflict s.resolutions solution⟩

-- A trait at point 0 that turns one type into another, with an instance at point 3 that
-- turns the type declared at point 1 into the one declared at point 2.

/-- The type to be turned into another. -/
def before : Parameter :=
  ⟨0, "before", ⟨0⟩, false⟩

/-- What it is turned into, which is inferred. -/
def after : Parameter :=
  ⟨1, "after", ⟨0⟩, true⟩

def turns : Instance where
  node := ⟨3⟩
  trait := ⟨0⟩
  args := ((∅ : Substitution).insert before (.con (.named ⟨1⟩) [] none)).insert after
    (.con (.named ⟨2⟩) [] none)
  isDefault := false
  isError := false

def turning : Program where
  instances := (∅ : PointMap (List Instance)).insert ⟨0⟩ [turns]

/-- Asks what the first type is turned into; that is to be `slot`. -/
def turned (slot : Ty) : Bound where
  source := ⟨4⟩
  trait := ⟨0⟩
  args := ((∅ : Substitution).insert before (.con (.named ⟨1⟩) [] none)).insert after slot
  assumed := false
  copied := false

def beforeTurning : World where
  arena := ⟨(List.replicate 6 { span := ⟨0, 0⟩, source := "" }).toArray⟩

/-- Point 5 is to be of the first type, and the instance says that it is of the second. -/
def disagreeing : List Constraint :=
  [.ascribe { node := ⟨5⟩, type := .con (.named ⟨1⟩) [] none }, .require (turned (.point ⟨5⟩))]

theorem openSlots_disagreeing : ∀ c ∈ disagreeing, c.OpenSlots := by
  simp only [disagreeing, List.forall_mem_cons]
  refine ⟨trivial, fun q t hFound => ?_, by simp⟩
  have hKnown := Substitution.getElem?_of_inferred hFound
  simp only [turned, Std.ExtTreeMap.getElem?_insert] at hKnown
  split at hKnown
  · exact ⟨_, (Option.some.inj hKnown).symm⟩
  · -- the other parameter is supplied
    split at hKnown
    · rename_i hBefore
      rw [Std.LawfulEqOrd.compare_eq_iff_eq] at hBefore
      subst hBefore
      rw [Substitution.inferred, Std.ExtTreeMap.getElem?_filter',
        Option.filter_eq_some_iff] at hFound
      cases hFound.2
    · simp at hKnown

/-- The last state of a session and its groups, if there are any. -/
def lastState (program : Program) (cs : List Constraint) : Option (Session × Finished) :=
  match (run program ⟨3, 3⟩ (start [] cs)).runIn beforeTurning with
  | (.ok s, w') => (s.unification.finish w'.arena).toOption.map fun f => (s, f)
  | (.error _, _) => none

/-- Computing `lastState` is enough to know that the session ends. -/
theorem exists_of_lastState {program : Program} {cs : List Constraint}
    {check : Session × Finished → Bool} (h : (lastState program cs).any check = true) :
    ∃ s w' f, (run program ⟨3, 3⟩ (start [] cs)).runIn beforeTurning = (.ok s, w') ∧
      s.unification.finish w'.arena = .ok f ∧ check (s, f) = true := by
  unfold lastState at h
  split at h
  · rename_i s w' hRun
    cases hFinish : s.unification.finish w'.arena with
    | error e =>
      rw [hFinish] at h
      cases h
    | ok f =>
      rw [hFinish] at h
      exact ⟨s, w', f, hRun, hFinish, h⟩
  · cases h

theorem hasError_iff_conflicting_disagreeing : ∃ s w' f,
    (run turning ⟨3, 3⟩ (start [] disagreeing)).runIn beforeTurning = (.ok s, w') ∧
    s.unification.finish w'.arena = .ok f ∧ s.unification.hasDropped = false ∧
    s.unification.hasError = true ∧
    (s.unification.hasError = true ↔ ∃ g ∈ f.groups, g.isConflicting = true) ∧
    (s.unification.hasError = true → ∀ solution : Solution,
      ∃ g ∈ f.groups, g.isConflicting = true ∧ ∃ p ∈ g.nodes, ∃ n, solution.groups.size ≤ n ∧
        (solution.addSession f s.resolutions).groups[n]? = some g ∧
        .conflictingTypes p n ∈ (solution.addSession f s.resolutions).errors) := by
  have hProgram : turning.OpenSlots := fun d c hc => by simp [turning, Program.definition] at hc
  have hEnds : (lastState turning disagreeing).any (fun last =>
      !last.1.unification.hasDropped && last.1.unification.hasError) = true := by decide +kernel
  obtain ⟨s, w', f, hRun, hFinish, hFlags⟩ := exists_of_lastState hEnds
  rw [Bool.and_eq_true, Bool.not_eq_true'] at hFlags
  exact ⟨s, w', f, hRun, hFinish, hFlags.1, hFlags.2,
    hasError_iff_conflicting hProgram openSlots_disagreeing hRun hFlags.1 hFinish⟩

/-- Point 0 is to be a block of point 1 and a tuple of itself; the second type, being
recursive, is dropped. -/
def recursion : List Constraint :=
  [.ascribe { node := ⟨0⟩, type := .con .block [.point ⟨1⟩] none },
    .ascribe { node := ⟨0⟩, type := .con .tuple [.point ⟨0⟩] none }]

/-- The first type is to be turned into itself, and the instance turns it into the
second. -/
def pinned : List Constraint :=
  [.require (turned (.con (.named ⟨1⟩) [] none))]

/-- The session finds a conflict, and nothing tells the user so. -/
def Unreported (program : Program) (cs : List Constraint) : Prop :=
  ∃ s w' f, (run program ⟨3, 3⟩ (start [] cs)).runIn beforeTurning = (.ok s, w') ∧
    s.unification.finish w'.arena = .ok f ∧ s.unification.hasError = true ∧
    f.groups.any (·.isConflicting) = false ∧
    (Solution.addSession {} f s.resolutions).errors.isEmpty = true

theorem unreported_of_lastState {program : Program} {cs : List Constraint}
    (h : (lastState program cs).any (fun last => last.1.unification.hasError &&
      (!last.2.groups.any (·.isConflicting) &&
        (Solution.addSession {} last.2 last.1.resolutions).errors.isEmpty)) = true) :
    Unreported program cs := by
  obtain ⟨s, w', f, hRun, hFinish, hFlags⟩ := exists_of_lastState h
  rw [Bool.and_eq_true, Bool.and_eq_true, Bool.not_eq_true'] at hFlags
  exact ⟨s, w', f, hRun, hFinish, hFlags⟩

/-- **Two conflicts that are not reported**: neither condition can be left out. -/
theorem conflicts_unreported : Unreported turning recursion ∧ Unreported turning pinned :=
  ⟨unreported_of_lastState (by decide +kernel), unreported_of_lastState (by decide +kernel)⟩

end Session

end TraitInference
