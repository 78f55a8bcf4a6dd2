import Mathlib.Algebra.Order.Group.Multiset
import Mathlib.Data.Multiset.Filter
import TraitInference.Proofs.Bookkeeping
import TraitInference.Proofs.Conflicts
import TraitInference.Proofs.Presentation

/-!
# TraitInference — errors and facts

A solution says twice what went wrong in a program: in its list of errors, and in the
tables, where a group has several types, a bound is filed as unresolved, or a bound is
filed as resolved by an instance that was declared an error. The list and the tables are
filled side by side, by all sessions in turn, and a bound goes into both with types that
are looked up in the list of those that were put aside. They agree nevertheless:

* `Solution.conflictErrors`, `Solution.unresolvedErrors`, `Solution.instanceErrors` — the
  errors that the tables call for.
* `Solution.Accounted` — the errors are those. Each group and each bound that is added
  keeps this (`Solution.Accounted.addGroup`, `Solution.Accounted.addResolution`).
* `Session.errors` — the errors of one session, in order, in terms of the session alone.
* `Program.errors_correspond` — both, for every program that is solved.
-/

namespace TraitInference

-- ---------------------------------------------------------------------------
-- What is filed in a table
-- ---------------------------------------------------------------------------

namespace PointMap

variable {α : Type}

/-- No entry is listed twice, since no point is. -/
theorem nodup_toList (m : PointMap α) : m.toList.Nodup := by
  refine Std.ExtTreeMap.distinct_keys_toList.imp fun hNe hEq => hNe ?_
  rw [hEq]
  exact Std.ReflCmp.compare_self

/-- A table consists of what it holds for one point and of the rest. -/
theorem toList_perm_erase {m : PointMap α} {p : Point} {v : α} (h : m[p]? = some v) :
    m.toList.Perm ((p, v) :: (m.erase p).toList) := by
  have hFresh : (p, v) ∉ (m.erase p).toList := by
    rw [Std.ExtTreeMap.mem_toList_iff_getElem?_eq_some, getElem?_erase, if_pos rfl]
    exact Option.some_ne_none v ∘ Eq.symm
  refine (List.perm_ext_iff_of_nodup m.nodup_toList
    (List.nodup_cons.mpr ⟨hFresh, nodup_toList _⟩)).mpr ?_
  -- both lists have the same entries, each of them once
  rintro ⟨q, x⟩
  rw [List.mem_cons, Std.ExtTreeMap.mem_toList_iff_getElem?_eq_some,
    Std.ExtTreeMap.mem_toList_iff_getElem?_eq_some, getElem?_erase, Prod.mk.injEq]
  by_cases hq : q = p
  · subst hq
    simp [h, eq_comm]
  · simp [hq]

end PointMap

namespace Solution

variable {α : Type} {solution : Solution} {g : Group}

/-- All that is filed in a table, with the point under which it is filed. -/
def entries (table : PointMap (List α)) : Multiset (Point × α) :=
  table.toList.flatMap fun x => x.2.map (x.1, ·)

/-- What is filed in a table is what is filed under one point, and the rest. -/
theorem entries_eq_add_erase (table : PointMap (List α)) (p : Point) :
    entries table = (table[p]?.getD []).map (p, ·) + entries (table.erase p) := by
  cases hFound : table[p]? with
  | some items =>
    exact Multiset.coe_eq_coe.mpr ((PointMap.toList_perm_erase hFound).flatMap_right _)
  -- nothing is filed there, so nothing is erased
  | none =>
    have hSame : table.erase p = table := by
      refine Std.ExtTreeMap.ext_getElem? fun q => ?_
      rw [PointMap.getElem?_erase]
      split
      · rename_i hq
        rw [hq, hFound]
      · rfl
    rw [hSame]
    exact (zero_add _).symm

theorem getElem?_fileUnder (table : PointMap (List α)) (p q : Point) (items : List α) :
    (fileUnder table p items)[q]? =
      if q = p then some (table[p]?.getD [] ++ items) else table[q]? := by
  have hKey : compare p q = .eq ↔ q = p := Std.LawfulEqOrd.compare_eq_iff_eq.trans eq_comm
  rw [fileUnder, Std.ExtTreeMap.getElem?_alter]
  simp only [hKey]

/-- **What is filed is added to what was filed before.** -/
theorem entries_fileUnder (table : PointMap (List α)) (p : Point) (items : List α) :
    entries (fileUnder table p items) = entries table + items.map (p, ·) := by
  have hRest : (fileUnder table p items).erase p = table.erase p := by
    refine Std.ExtTreeMap.ext_getElem? fun q => ?_
    rw [PointMap.getElem?_erase, PointMap.getElem?_erase, getElem?_fileUnder]
    split <;> rfl
  rw [entries_eq_add_erase _ p, entries_eq_add_erase table p, hRest, getElem?_fileUnder,
    if_pos rfl, Option.getD_some, List.map_append, ← Multiset.coe_add, add_right_comm]

/-- Under every other point all stays as it was. -/
theorem getD_fileUnder (table : PointMap (List α)) (p q : Point) (items : List α) :
    (fileUnder table p items)[q]?.getD [] =
      table[q]?.getD [] ++ if q = p then items else [] := by
  rw [getElem?_fileUnder]
  split
  · rename_i hq
    rw [hq]
    rfl
  · rw [List.append_nil]

-- ---------------------------------------------------------------------------
-- The errors that the tables call for
-- ---------------------------------------------------------------------------

/-- The error of each group in conflict, at its first point. -/
def conflictsIn (groups : List (Group × Nat)) : List SolveError :=
  (groups.filter (·.1.isConflicting)).map fun x =>
    .conflictingTypes (x.1.nodes.headD default) x.2

/-- The errors that the groups call for: one for each that is in conflict. -/
def conflictErrors (solution : Solution) : Multiset SolveError :=
  conflictsIn solution.groups.toList.zipIdx

/-- The errors that the unresolved bounds call for: one for each of them. -/
def unresolvedErrors (solution : Solution) : Multiset SolveError :=
  (entries solution.unresolved).map fun x => .unresolvedBound x.1 x.2

/-- The errors that the resolved bounds call for: one for each whose instance was declared
an error. -/
def instanceErrors (solution : Solution) : Multiset SolveError :=
  ((entries solution.resolved).filter (·.2.isError)).map
    fun x => .errorInstance x.1 x.2.bound x.2.node

/-- The list of errors and the tables agree: the errors are those that they call for,
every group has a point, and everything is filed under the point it belongs to. -/
structure Accounted (solution : Solution) : Prop where
  errors     : (solution.errors : Multiset SolveError) =
    solution.conflictErrors + solution.unresolvedErrors + solution.instanceErrors
  nodes      : ∀ g ∈ solution.groups.toList, g.nodes ≠ []
  groupOf    : ∀ (p : Point) (n : Nat), solution.groupOf[p]? = some n →
    ∃ g, solution.groups[n]? = some g ∧ p ∈ g.nodes
  unresolved : ∀ p, ∀ b ∈ solution.unresolvedAt p, b.source = p
  resolved   : ∀ p, ∀ r ∈ solution.resolvedAt p, r.bound.source = p

theorem accounted_empty : Accounted {} where
  errors := rfl
  nodes _ hg := absurd hg List.not_mem_nil
  groupOf p n hn := by simp at hn
  unresolved p b hb := by simp [unresolvedAt] at hb
  resolved p r hr := by simp [resolvedAt] at hr

theorem conflictsIn_append (groups groups' : List (Group × Nat)) :
    conflictsIn (groups ++ groups') = conflictsIn groups ++ conflictsIn groups' := by
  rw [conflictsIn, List.filter_append, List.map_append]
  rfl

/-- A group adds its error, if it calls for one, behind the others. -/
theorem errors_addGroup (solution : Solution) (hg : g.nodes ≠ []) :
    (solution.addGroup g).errors =
      solution.errors ++ conflictsIn [(g, solution.groups.size)] := by
  obtain ⟨p, ps, hNodes⟩ := List.exists_cons_of_ne_nil hg
  unfold addGroup
  cases hConflict : g.isConflicting <;> simp [conflictsIn, hConflict, hNodes]

/-- The number of a group is its place, so the groups before keep theirs. -/
theorem conflictErrors_addGroup (solution : Solution) (g : Group) :
    (solution.addGroup g).conflictErrors =
      solution.conflictErrors + conflictsIn [(g, solution.groups.size)] := by
  have hGroups : (solution.addGroup g).groups.toList.zipIdx =
      solution.groups.toList.zipIdx ++ [(g, solution.groups.size)] := by
    simp [addGroup, List.zipIdx_append]
  rw [conflictErrors, hGroups, conflictsIn_append, ← Multiset.coe_add, conflictErrors]

/-- **A group calls for an error exactly if one is added.** -/
theorem Accounted.addGroup (h : solution.Accounted) (hg : g.nodes ≠ []) :
    (solution.addGroup g).Accounted where
  errors := by
    have hOthers : (solution.addGroup g).unresolvedErrors = solution.unresolvedErrors ∧
        (solution.addGroup g).instanceErrors = solution.instanceErrors := ⟨rfl, rfl⟩
    rw [errors_addGroup solution hg, ← Multiset.coe_add, h.errors, conflictErrors_addGroup,
      hOthers.1, hOthers.2]
    ac_rfl
  nodes := by
    intro g' hg'
    simp only [Solution.addGroup, Array.toList_push, List.mem_append, List.mem_singleton] at hg'
    rcases hg' with hOld | rfl
    · exact h.nodes g' hOld
    · exact hg
  groupOf := by
    intro p n hn
    rw [groupOf_addGroup] at hn
    split at hn
    · -- a point of the new group now goes by its number
      obtain rfl := Option.some.inj hn
      exact ⟨g, Array.getElem?_push_size, ‹_›⟩
    · obtain ⟨g', hGroup, hp⟩ := h.groupOf p n hn
      refine ⟨g', ?_, hp⟩
      have hLt : n < solution.groups.size := (Array.getElem?_eq_some_iff.mp hGroup).1
      rw [← hGroup]
      exact Array.getElem?_push_lt hLt |>.trans (by simp [hLt])
  unresolved := h.unresolved
  resolved := h.resolved

/-- An unresolved bound is filed, and reported. -/
theorem Accounted.fileUnresolved (h : solution.Accounted) (b : Bound) :
    Accounted { solution with
      unresolved := fileUnder solution.unresolved b.source [b]
      errors := solution.errors ++ [.unresolvedBound b.source b] } where
  errors := by
    have hNew : unresolvedErrors
        { solution with unresolved := fileUnder solution.unresolved b.source [b] } =
          solution.unresolvedErrors + {.unresolvedBound b.source b} := by
      rw [unresolvedErrors, entries_fileUnder, Multiset.map_add]
      rfl
    show _ = solution.conflictErrors + unresolvedErrors
      { solution with unresolved := fileUnder solution.unresolved b.source [b] } +
        solution.instanceErrors
    rw [hNew, ← Multiset.coe_add, h.errors, Multiset.coe_singleton]
    ac_rfl
  nodes := h.nodes
  groupOf := h.groupOf
  unresolved := by
    intro p b' hb'
    rw [unresolvedAt, getD_fileUnder, List.mem_append] at hb'
    rcases hb' with hOld | hNew
    · exact h.unresolved p b' hOld
    · split at hNew
      · rw [List.mem_singleton.mp hNew, ‹p = b.source›]
      · cases hNew
  resolved := h.resolved

/-- A resolved bound is filed, and reported if its instance was declared an error. -/
theorem Accounted.fileResolved (h : solution.Accounted) (r : ResolvedBound) :
    Accounted { solution with
      resolved := fileUnder solution.resolved r.bound.source [r]
      errors := if r.isError then
          solution.errors ++ [.errorInstance r.bound.source r.bound r.node]
        else solution.errors } where
  errors := by
    -- only instances that were declared errors count
    have hNew : instanceErrors
        { solution with resolved := fileUnder solution.resolved r.bound.source [r] } =
          solution.instanceErrors +
            if r.isError then {.errorInstance r.bound.source r.bound r.node} else 0 := by
      rw [instanceErrors, entries_fileUnder, Multiset.filter_add, Multiset.map_add]
      cases hError : r.isError <;> simp [instanceErrors, Multiset.filter_singleton, hError]
    show _ = solution.conflictErrors + solution.unresolvedErrors + instanceErrors
      { solution with resolved := fileUnder solution.resolved r.bound.source [r] }
    rw [hNew, ← add_assoc, ← h.errors]
    cases r.isError with
    | false => exact (add_zero _).symm
    | true => rfl
  nodes := h.nodes
  groupOf := h.groupOf
  unresolved := h.unresolved
  resolved := by
    intro p r' hr'
    rw [resolvedAt, getD_fileUnder, List.mem_append] at hr'
    rcases hr' with hOld | hNew
    · exact h.resolved p r' hOld
    · split at hNew
      · rw [List.mem_singleton.mp hNew, ‹p = r.bound.source›]
      · cases hNew

/-- **A bound calls for an error exactly if one is added.** -/
theorem Accounted.addResolution (h : solution.Accounted) (deferred : List Substitution)
    (r : Resolution) : (addResolution deferred solution r).Accounted := by
  unfold Solution.addResolution
  cases r.outcome with
  | resolved node isError => exact h.fileResolved ⟨_, node, isError⟩
  | unresolved => exact h.fileUnresolved _

-- ---------------------------------------------------------------------------
-- Session after session
-- ---------------------------------------------------------------------------

/-- The error that a bound gives rise to, once its types are known. -/
def boundError? (b : Bound) : Outcome → Option SolveError
  | .unresolved => some (.unresolvedBound b.source b)
  | .resolved node true => some (.errorInstance b.source b node)
  | .resolved _ false => none

/-- The groups of a session, numbered on from those that are there. -/
theorem errors_foldl_addGroup {gs : List Group} (hNodes : ∀ g ∈ gs, g.nodes ≠ [])
    (solution : Solution) : (gs.foldl addGroup solution).errors =
      solution.errors ++ conflictsIn (gs.zipIdx solution.groups.size) := by
  induction gs generalizing solution with
  | nil => exact (List.append_nil _).symm
  | cons g gs ih =>
    rw [List.forall_mem_cons] at hNodes
    have hSize : (solution.addGroup g).groups.size = solution.groups.size + 1 := Array.size_push g
    rw [List.foldl_cons, ih hNodes.2, errors_addGroup solution hNodes.1, hSize, List.append_assoc,
      ← conflictsIn_append]
    rfl

/-- The bounds of a session, with the types that were put aside for them. -/
theorem errors_foldl_addResolution (deferred : List Substitution) (rs : List Resolution)
    (solution : Solution) : (rs.foldl (addResolution deferred) solution).errors =
      solution.errors ++ rs.filterMap fun r =>
        boundError? { r.bound with args := deferred[r.deferred]?.getD r.bound.args } r.outcome := by
  induction rs generalizing solution with
  | nil => exact (List.append_nil _).symm
  | cons r rs ih =>
    rw [List.foldl_cons, ih, List.filterMap_cons]
    unfold addResolution
    rcases r.outcome with ⟨node, _ | _⟩ | _
    · rfl
    · exact List.append_assoc ..
    · exact List.append_assoc ..

end Solution

/-- The errors of a session whose groups are numbered from `first` on: those of its groups,
then those of its bounds, whose types are read off the state in which the session ends. -/
def Session.errors (first : Nat) (s : Session) (f : Finished) : List SolveError :=
  Solution.conflictsIn (f.groups.zipIdx first) ++ s.resolutions.filterMap fun r =>
    Solution.boundError? { r.bound with args := s.unification.applyAll r.bound.args } r.outcome

namespace Solution

variable {s : Session} {f : Finished} {a : Arena} {solution : Solution}

theorem nodes_ne_nil_of_finish (hFinish : s.unification.finish a = .ok f) :
    ∀ g ∈ f.groups, g.nodes ≠ [] :=
  fun g hg => (((Unification.groups_spec hFinish).1 g).mp hg).nodes_ne_nil

/-- **A session adds its errors behind those of the sessions before.** -/
theorem errors_addSession (hTidy : s.Tidy) (hFinish : s.unification.finish a = .ok f)
    (solution : Solution) : (solution.addSession f s.resolutions).errors =
      solution.errors ++ s.errors solution.groups.size f := by
  rw [addSession, errors_foldl_addResolution,
    errors_foldl_addGroup (nodes_ne_nil_of_finish hFinish), List.append_assoc, Session.errors]
  -- the types of a bound are found where they were put aside
  refine congrArg _ (congrArg _ (List.filterMap_congr fun r hr => ?_))
  rw [Unification.finish_deferred hFinish, List.getElem?_map, hTidy.recorded r hr]
  rfl

/-- A session adds its groups behind those of the sessions before. -/
theorem groups_addSession (solution : Solution) (f : Finished) (rs : List Resolution) :
    (solution.addSession f rs).groups.toList = solution.groups.toList ++ f.groups := by
  rw [addSession, (addResolutions_groups f.deferred rs _).1, (errors_addGroups _ solution).2]

theorem Accounted.addGroups (h : solution.Accounted) {gs : List Group}
    (hNodes : ∀ g ∈ gs, g.nodes ≠ []) : (gs.foldl Solution.addGroup solution).Accounted := by
  induction gs generalizing solution with
  | nil => exact h
  | cons g gs ih =>
    rw [List.forall_mem_cons] at hNodes
    exact ih (h.addGroup hNodes.1) hNodes.2

theorem Accounted.addResolutions (h : solution.Accounted) (deferred : List Substitution)
    (rs : List Resolution) : (rs.foldl (Solution.addResolution deferred) solution).Accounted := by
  induction rs generalizing solution with
  | nil => exact h
  | cons r rs ih => exact ih (h.addResolution deferred r)

/-- A session keeps errors and tables in agreement, whatever it has found. -/
theorem Accounted.addSession (h : solution.Accounted) (hFinish : s.unification.finish a = .ok f)
    (rs : List Resolution) : (solution.addSession f rs).Accounted :=
  (h.addGroups (nodes_ne_nil_of_finish hFinish)).addResolutions f.deferred rs

end Solution

namespace Program

variable {program : Program} {limits : Limits}

/-- The errors of sessions that follow each other, with the groups of the first of them
numbered from `first` on. -/
def errorsInTurn (first : Nat) : List (Session × Finished) → List SolveError
  | [] => []
  | (s, f) :: rest => s.errors first f ++ errorsInTurn (first + f.groups.length) rest

/-- The run lemma: after any number of sessions errors and tables agree. -/
theorem SolvedInTurn.accounted {a b : Arena} {l : List Task}
    {results : List (Session × Finished)} (h : SolvedInTurn program limits a l results b)
    {solution : Solution} (hAccounted : solution.Accounted) :
    (solution.addSessions results).Accounted ∧
      (solution.addSessions results).groups.toList =
        solution.groups.toList ++ results.flatMap (·.2.groups) ∧
      (solution.addSessions results).errors =
        solution.errors ++ errorsInTurn solution.groups.size results := by
  induction h generalizing solution with
  | nil => exact ⟨hAccounted, (List.append_nil _).symm, (List.append_nil _).symm⟩
  | @cons implied cs s f _ _ _ results _ hRun hFinish _ ih =>
    have hTidy : s.Tidy := (Session.Reached.runBefore (.start implied cs) hRun).tidy
    have hGroups := Solution.groups_addSession solution f s.resolutions
    obtain ⟨hLast, hLastGroups, hErrors⟩ := ih (hAccounted.addSession hFinish s.resolutions)
    refine ⟨hLast, hLastGroups.trans ?_, hErrors.trans ?_⟩
    · rw [hGroups, List.append_assoc, List.flatMap_cons]
    · -- the next session numbers its groups after those of this one
      have hSize : (solution.addSession f s.resolutions).groups.size =
          solution.groups.size + f.groups.length := by
        simpa using congrArg List.length hGroups
      rw [Solution.errors_addSession hTidy hFinish, List.append_assoc, hSize]
      rfl

/--
**Errors and facts correspond.** Let a program be solved, whatever its sessions find. The
errors are, each of them once: one for each group in conflict, at its first point and under
its number; one for each bound in the table of unresolved ones; and one for each bound in
the table of resolved ones whose instance was declared an error. Bounds are filed, and
reported, at their own points, with the same types. Every group has a first point, and a
point is one of its group. The errors of a session stand behind those of the sessions
before it: those of its groups come first, then those of its bounds in the order in which
they were worked off, with their types as they are when the session ends.
-/
theorem errors_correspond {w w' : World} {solution : Solution}
    (hRun : (program.solve limits).runIn w = (.ok solution, w')) :
    (solution.errors : Multiset SolveError) =
      solution.conflictErrors + solution.unresolvedErrors + solution.instanceErrors ∧
    (∀ p, ∀ b ∈ solution.unresolvedAt p, b.source = p) ∧
    (∀ p, ∀ r ∈ solution.resolvedAt p, r.bound.source = p) ∧
    (∀ g ∈ solution.groups.toList, g.nodes ≠ []) ∧
    (∀ (p : Point) (n : Nat), solution.groupOf[p]? = some n →
      ∃ g, solution.groups[n]? = some g ∧ p ∈ g.nodes) ∧
    ∃ results, SolvedInTurn program limits w.arena program.tasks results w'.arena ∧
      solution.groups.toList = results.flatMap (·.2.groups) ∧
      solution.errors = errorsInTurn 0 results := by
  obtain ⟨results, hSolved, rfl⟩ := exists_solvedInTurn hRun
  obtain ⟨hAccounted, hGroups, hErrors⟩ := hSolved.accounted Solution.accounted_empty
  exact ⟨hAccounted.errors, hAccounted.unresolved, hAccounted.resolved, hAccounted.nodes,
    hAccounted.groupOf, results, hSolved, hGroups, hErrors⟩

-- The definition at point 3 gives point 4 two types. At the top level point 5 asks for the
-- trait at point 0, whose only instance was declared an error, and for the trait at point 2,
-- which has none.

/-- Asks at point 5 for a trait without parameters. -/
def asking (trait : Point) : Constraint :=
  .require ⟨⟨5⟩, trait, ∅, false, false⟩

def troubled : Program where
  topLevel := [asking ⟨0⟩, asking ⟨2⟩]
  definitions := (∅ : PointMap (List Constraint)).insert ⟨3⟩
    [.ascribe { node := ⟨4⟩, type := .con .block [] none },
      .ascribe { node := ⟨4⟩, type := .con .tuple [] none }]
  instances := (∅ : PointMap (List Instance)).insert ⟨0⟩ [⟨⟨1⟩, ⟨0⟩, ∅, false, true⟩]

def beforeTrouble : World where
  arena := ⟨(List.replicate 6 { span := ⟨0, 0⟩, source := "" }).toArray⟩

theorem errors_correspond_troubled : ∃ solution w',
    (troubled.solve ⟨3, 3⟩).runIn beforeTrouble = (.ok solution, w') ∧
    solution.errors.map SolveError.point = [⟨4⟩, ⟨5⟩, ⟨5⟩] ∧
    (solution.errors : Multiset SolveError) =
      solution.conflictErrors + solution.unresolvedErrors + solution.instanceErrors ∧
    ∃ results,
      SolvedInTurn troubled ⟨3, 3⟩ beforeTrouble.arena troubled.tasks results w'.arena ∧
      solution.groups.toList = results.flatMap (·.2.groups) ∧
      solution.errors = errorsInTurn 0 results := by
  have hErrors : ((troubled.solve ⟨3, 3⟩).runIn beforeTrouble).1.map
      (·.errors.map SolveError.point) = .ok [⟨4⟩, ⟨5⟩, ⟨5⟩] := by decide +kernel
  rcases hRun : (troubled.solve ⟨3, 3⟩).runIn beforeTrouble with ⟨_ | solution, w'⟩
  · rw [hRun] at hErrors
    cases hErrors
  · rw [hRun] at hErrors
    have hCorrespond := errors_correspond hRun
    exact ⟨solution, w', rfl, Except.ok.inj hErrors, hCorrespond.1, hCorrespond.2.2.2.2.2⟩

end Program

end TraitInference
