import TraitInference.Proofs.Counterparts
import TraitInference.Proofs.Grouping
import TraitInference.Solve

/-!
# TraitInference — looking a point up

A solution keeps two tables about the types of points: the number of a point's group,
and the types found for it. Both are filled group by group and session by session, but
not by the same rule: a new number takes the place of the old one, and new types are
filed behind the old ones. A point that no definition owns can be seen by any number of
sessions, so what is said about it in the end depends on all of them:

* `Program.SolvedInTurn` — the sessions of a program, solved one after the other.
* `Program.exists_solvedInTurn` — a solution is what they add up to.
* `Solution.typesOf_addSession`, `Solution.group?_addSession` — what one session adds.
* `Program.typesOf_eq_group_types_iff` — when the two tables agree.
-/

namespace TraitInference

-- ---------------------------------------------------------------------------
-- The tables
-- ---------------------------------------------------------------------------

namespace Solution

variable {solution : Solution} {g : Group} {p : Point}

/-- One number for all points of a group. -/
theorem getElem?_foldl_insert (ps : List Point) (table : PointMap Nat) (n : Nat) (p : Point) :
    (ps.foldl (fun table q => table.insert q n) table)[p]? =
      if p ∈ ps then some n else table[p]? := by
  induction ps generalizing table with
  | nil => simp
  | cons q ps ih =>
    rw [List.foldl_cons, ih, PointMap.getElem?_insert]
    by_cases hRest : p ∈ ps <;> by_cases hFirst : q = p <;> simp [hRest, hFirst]

/-- The types of a group are filed for each of its points, once since none is listed twice. -/
theorem getD_foldl_fileUnder {α : Type} {ps : List Point} (hNodup : ps.Nodup)
    (table : PointMap (List α)) (items : List α) (p : Point) :
    (ps.foldl (fun table q => fileUnder table q items) table)[p]?.getD [] =
      table[p]?.getD [] ++ if p ∈ ps then items else [] := by
  induction ps generalizing table with
  | nil => simp
  | cons q ps ih =>
    obtain ⟨hFresh, hNodup⟩ := List.nodup_cons.mp hNodup
    rw [List.foldl_cons, ih hNodup, fileUnder, Std.ExtTreeMap.getElem?_alter]
    by_cases hFirst : q = p
    · subst hFirst
      simp [hFresh]
    · simp [hFirst, Ne.symm hFirst]

/-- Every number in the table is the number of a group. -/
def Numbered (solution : Solution) : Prop :=
  ∀ (p : Point) (n : Nat), solution.groupOf[p]? = some n → n < solution.groups.size

/-- The number of a new group is that of its place. -/
theorem groupOf_addGroup (solution : Solution) (g : Group) (p : Point) :
    (solution.addGroup g).groupOf[p]? =
      if p ∈ g.nodes then some solution.groups.size else solution.groupOf[p]? :=
  getElem?_foldl_insert g.nodes solution.groupOf solution.groups.size p

theorem Numbered.addGroup (h : solution.Numbered) (g : Group) : (solution.addGroup g).Numbered := by
  intro p n hn
  show n < (solution.groups.push g).size
  rw [groupOf_addGroup] at hn
  rw [Array.size_push]
  split at hn
  · exact Option.some.inj hn ▸ Nat.lt_succ_self _
  · exact Nat.lt_succ_of_lt (h p n hn)

/-- A later group takes the place of an earlier one. -/
theorem group?_addGroup (h : solution.Numbered) (g : Group) (p : Point) :
    (solution.addGroup g).group? p = if p ∈ g.nodes then some g else solution.group? p := by
  unfold group?
  rw [groupOf_addGroup]
  show Option.bind _ (fun n => (solution.groups.push g)[n]?) = _
  split
  · exact Array.getElem?_push_size
  · cases hNumber : solution.groupOf[p]? with
    | none => rfl
    -- the table is extended at its end, so older numbers still mean the same groups
    | some n => exact Array.getElem?_push_lt (h p n hNumber) |>.trans (by simp [h p n hNumber])

/-- The types of a later group are filed behind those of the earlier ones. -/
theorem typesOf_addGroup (hNodup : g.nodes.Nodup) (solution : Solution) (p : Point) :
    (solution.addGroup g).typesOf p =
      solution.typesOf p ++ if p ∈ g.nodes then g.types else [] :=
  getD_foldl_fileUnder hNodup solution.types g.types p

/-- Over several groups the types of a point add up. -/
theorem typesOf_addGroups {gs : List Group} (hNodup : ∀ g ∈ gs, g.nodes.Nodup)
    (solution : Solution) (p : Point) :
    (gs.foldl addGroup solution).typesOf p =
      solution.typesOf p ++ (gs.filter (p ∈ ·.nodes)).flatMap Group.types := by
  induction gs generalizing solution with
  | nil => simp
  | cons g gs ih =>
    rw [List.forall_mem_cons] at hNodup
    rw [List.foldl_cons, ih hNodup.2, typesOf_addGroup hNodup.1, List.append_assoc]
    by_cases hp : p ∈ g.nodes <;> simp [hp]

/-- Of several groups the last one with the point counts. -/
theorem group?_addGroups (gs : List Group) (h : solution.Numbered) (p : Point) :
    (gs.foldl addGroup solution).Numbered ∧ (gs.foldl addGroup solution).group? p =
      (gs.filter (p ∈ ·.nodes)).getLast?.or (solution.group? p) := by
  induction gs generalizing solution with
  | nil => exact ⟨h, rfl⟩
  | cons g gs ih =>
    obtain ⟨hNumbered, hGroup⟩ := ih (h.addGroup g)
    refine ⟨hNumbered, hGroup.trans ?_⟩
    rw [group?_addGroup h]
    by_cases hp : p ∈ g.nodes
    · cases hLast : (gs.filter (p ∈ ·.nodes)).getLast? <;> simp [hp, List.getLast?_cons, hLast]
    · simp [hp]

/-- What became of bounds is kept apart from groups and types. -/
theorem addResolutions_groups (deferred : List Substitution) (rs : List Resolution)
    (solution : Solution) :
    (rs.foldl (addResolution deferred) solution).groups = solution.groups ∧
      (rs.foldl (addResolution deferred) solution).groupOf = solution.groupOf ∧
      (rs.foldl (addResolution deferred) solution).types = solution.types := by
  induction rs generalizing solution with
  | nil => exact ⟨rfl, rfl, rfl⟩
  | cons r rs ih =>
    obtain ⟨hGroups, hGroupOf, hTypes⟩ := ih (addResolution deferred solution r)
    rw [List.foldl_cons, hGroups, hGroupOf, hTypes]
    unfold addResolution
    cases r.outcome <;> exact ⟨rfl, rfl, rfl⟩

-- ---------------------------------------------------------------------------
-- What a session adds
-- ---------------------------------------------------------------------------

section Session

variable {u : Unification} {a : Arena} {f : Finished}

/-- A session adds the types of the group in which it has the point, if any. -/
theorem typesOf_addSession (h : u.finish a = .ok f) (rs : List Resolution) (solution : Solution)
    (p : Point) : (solution.addSession f rs).typesOf p =
      solution.typesOf p ++ (f.group? p).toList.flatMap Group.types := by
  have hNodup : ∀ g ∈ f.groups, g.nodes.Nodup := fun g hg =>
    (((Unification.groups_spec h).1 g).mp hg).nodup
  rw [← Finished.filter_groups h, ← typesOf_addGroups hNodup, addSession, typesOf,
    (addResolutions_groups f.deferred rs _).2.2, typesOf]

/-- And that group takes the place of the one before. -/
theorem group?_addSession (h : u.finish a = .ok f) (rs : List Resolution)
    (hNumbered : solution.Numbered) (p : Point) :
    (solution.addSession f rs).Numbered ∧
      (solution.addSession f rs).group? p = (f.group? p).or (solution.group? p) := by
  obtain ⟨hGroups, hGroupOf, _⟩ :=
    addResolutions_groups f.deferred rs (f.groups.foldl addGroup solution)
  obtain ⟨hNumbered', hGroup⟩ := group?_addGroups f.groups hNumbered p
  rw [Finished.filter_groups h] at hGroup
  refine ⟨?_, ?_⟩
  · rw [addSession, Numbered, hGroups, hGroupOf]
    exact hNumbered'
  · rw [addSession, group?, hGroups, hGroupOf]
    exact hGroup.trans (by cases f.group? p <;> rfl)

end Session

/-- What the results of sessions add up to. -/
def addSessions (solution : Solution) (results : List (Session × Finished)) : Solution :=
  results.foldl (fun solution r => solution.addSession r.2 r.1.resolutions) solution

end Solution

-- ---------------------------------------------------------------------------
-- Session after session
-- ---------------------------------------------------------------------------

namespace SolveM

/-- A question leaves the world as it is. -/
theorem yields_ask {α : Type} (question : Arena → Except Fault α) (w : World) :
    Yields (ask question) w fun v w' => question w.arena = .ok v ∧ w' = w := by
  intro v w' hRun
  rw [ask, outcome_bind_ok (outcome_get w)] at hRun
  cases hAnswer : question w.arena with
  | error e =>
    rw [hAnswer] at hRun
    cases hRun
  | ok v' =>
    rw [hAnswer] at hRun
    obtain ⟨hOk, rfl⟩ := Prod.mk.inj hRun
    exact ⟨congrArg _ (Except.ok.inj hOk), rfl⟩

theorem yields_log (l : World → List Trace.Entry) (w : World) :
    Yields (modify fun w => { w with log := l w } : SolveM PUnit) w fun _ w' =>
      w'.arena = w.arena := by
  intro v w' hRun
  obtain ⟨-, rfl⟩ := Prod.mk.inj hRun
  rfl

end SolveM

namespace Program

variable {program : Program} {limits : Limits}

/-- What a session may assume and has to solve. -/
abbrev Task := List Instance × List Constraint

/-- A definition may assume its hypotheses. -/
def Task.ofDefinition (cs : List Constraint) : Task :=
  ((cs.filterMap Constraint.hypothesis).map Instance.ofHypothesis, cs)

/-- The tasks of all sessions of a program, in order. -/
def tasks (program : Program) : List Task :=
  program.definitions.toList.map (fun d => Task.ofDefinition d.2) ++ [([], program.topLevel)]

/-- Sessions solved one after the other, each in the arena that the one before has
left, and the results of each. -/
inductive SolvedInTurn (program : Program) (limits : Limits) :
    Arena → List Task → List (Session × Finished) → Arena → Prop
  | nil {a : Arena} : SolvedInTurn program limits a [] [] a
  | cons {implied : List Instance} {cs : List Constraint} {s : Session} {f : Finished}
      {w w' : World} {rest : List Task}
      {results : List (Session × Finished)} {a : Arena}
      (run : ((Session.start implied cs).run program limits).runIn w = (.ok s, w'))
      (finish : s.unification.finish w'.arena = .ok f)
      (next : SolvedInTurn program limits w'.arena rest results a) :
      SolvedInTurn program limits w.arena ((implied, cs) :: rest) ((s, f) :: results) a

/-- Rows of sessions can be put together. -/
theorem SolvedInTurn.append {a b c : Arena} {l l' : List Task}
    {results results' : List (Session × Finished)}
    (h : SolvedInTurn program limits a l results b)
    (h' : SolvedInTurn program limits b l' results' c) :
    SolvedInTurn program limits a (l ++ l') (results ++ results') c := by
  induction h with
  | nil => exact h'
  | cons hRun hFinish _ ih => exact .cons hRun hFinish (ih h')

theorem yields_sessionName (definition : Option Point) (w : World) :
    Yields (sessionName definition) w fun _ w' => w'.arena = w.arena := by
  cases definition with
  | none => exact .pure rfl
  | some d =>
    intro name w' hRun
    rw [(SolveM.yields_ask (·.source d) w name w' hRun).2]

/-- A session adds its results. -/
theorem yields_solveSession (definition : Option Point) (implied : List Instance)
    (cs : List Constraint) (solution : Solution) (w : World) :
    Yields (program.solveSession limits definition implied cs solution) w fun solution' w' =>
      ∃ results, SolvedInTurn program limits w.arena [(implied, cs)] results w'.arena ∧
        solution' = solution.addSessions results := by
  refine (yields_sessionName definition w).bind fun name w₁ hName => ?_
  refine (SolveM.yields_log _ w₁).bind fun _ w₂ hEnter => ?_
  refine Yields.bind (P := fun solution' w' => ∃ results,
    SolvedInTurn program limits w₂.arena [(implied, cs)] results w'.arena ∧
      solution' = solution.addSessions results) ?_ ?_
  · -- inside the span: the run, the groups and the check
    refine Yields.bind (fun s w' hRun => hRun) fun s w₃ hRun => ?_
    refine (SolveM.yields_ask _ w₃).bind fun f w₄ hFinish => ?_
    obtain ⟨hFinish, rfl⟩ := hFinish
    refine (SolveM.yields_log _ w₄).bind fun _ w₅ hEmit => ?_
    refine (SolveM.yields_ask _ w₅).map fun _ w₆ hCheck => ?_
    rw [hCheck.2, hEmit]
    exact ⟨[(s, f)], .cons hRun hFinish .nil, rfl⟩
  · intro solution' w₃ hSolved
    refine (SolveM.yields_log _ w₃).map fun _ w₄ hLeave => ?_
    rw [hLeave, ← hName, ← hEnter]
    exact hSolved

/-- The definitions add the results of their sessions in order. -/
theorem yields_solveDefinitions (l : List (Point × List Constraint)) (solution : Solution)
    (w : World) :
    Yields (program.solveDefinitions limits l solution) w fun solution' w' =>
      ∃ results, SolvedInTurn program limits w.arena (l.map fun d => Task.ofDefinition d.2) results
          w'.arena ∧
        solution' = solution.addSessions results := by
  induction l generalizing solution w with
  | nil => exact .pure ⟨[], .nil, rfl⟩
  | cons d l ih =>
    refine (yields_solveSession (some d.1) _ d.2 solution w).bind fun solution₁ w₁ hFirst => ?_
    intro solution₂ w₂ hRest
    obtain ⟨results, hSolved, rfl⟩ := hFirst
    obtain ⟨results', hSolved', rfl⟩ := ih _ w₁ solution₂ w₂ hRest
    exact ⟨results ++ results', hSolved.append hSolved', by simp [Solution.addSessions]⟩

/-- **A solution is what the sessions of the program add up to**: those of the
definitions in order, then the one of what stands outside. -/
theorem exists_solvedInTurn {w w' : World} {solution : Solution}
    (hRun : (program.solve limits).runIn w = (.ok solution, w')) :
    ∃ results, SolvedInTurn program limits w.arena program.tasks results w'.arena ∧
      solution = Solution.addSessions {} results := by
  obtain ⟨solution₁, w₁, hFirst, hSecond⟩ := outcome_bind_eq_ok.mp hRun
  obtain ⟨results, hSolved, rfl⟩ := yields_solveDefinitions _ _ w solution₁ w₁ hFirst
  obtain ⟨results', hSolved', rfl⟩ := yields_solveSession none [] _ _ w₁ solution w' hSecond
  exact ⟨results ++ results', hSolved.append hSolved', by simp [Solution.addSessions]⟩

-- ---------------------------------------------------------------------------
-- The two tables
-- ---------------------------------------------------------------------------

/-- What is found about a point is made up of its groups in all sessions: the types of
all of them, and the last of them. -/
theorem SolvedInTurn.lookup {a b : Arena} {l : List Task}
    {results : List (Session × Finished)} (h : SolvedInTurn program limits a l results b)
    {solution : Solution} (hNumbered : solution.Numbered) (p : Point) :
    (solution.addSessions results).typesOf p =
        solution.typesOf p ++ (results.filterMap (·.2.group? p)).flatMap Group.types ∧
      (solution.addSessions results).group? p =
        (results.filterMap (·.2.group? p)).getLast?.or (solution.group? p) := by
  induction h generalizing solution with
  | nil => simp [Solution.addSessions]
  | @cons _ _ s f _ _ _ results _ _ hFinish _ ih =>
    obtain ⟨hNumbered', hGroup⟩ := Solution.group?_addSession hFinish s.resolutions hNumbered p
    obtain ⟨hTypes, hLast⟩ := ih hNumbered'
    rw [Solution.typesOf_addSession hFinish, List.append_assoc] at hTypes
    rw [hGroup] at hLast
    refine ⟨hTypes.trans ?_, hLast.trans ?_⟩
    · cases hFound : f.group? p <;> simp [hFound]
    · -- the group of this session counts only if no later session has one
      cases hFound : f.group? p <;> cases hRest : (results.filterMap (·.2.group? p)).getLast? <;>
        simp [hFound, List.getLast?_cons, hRest]

/-- The types of all groups are those of the last one exactly when the others have
none. -/
theorem flatMap_types_eq_getLast?_iff (found : List Group) :
    found.flatMap Group.types = found.getLast?.elim [] Group.types ↔
      ∀ g ∈ found.dropLast, g.types = [] := by
  rcases List.eq_nil_or_concat found with rfl | ⟨others, last, rfl⟩
  · simp
  · simp [List.flatMap_append]

/--
**When the types found for a point are those of its group.** Let a program be solved.
The types found for a point are those of its groups in all sessions, in the order of
the sessions, and its group is the one of the last session that knows it. So the types
found for the point are those of its group exactly when no earlier session has found
types for it; and then several types mean that the group is in conflict.
-/
theorem typesOf_eq_group_types_iff {w w' : World} {solution : Solution}
    (hRun : (program.solve limits).runIn w = (.ok solution, w')) :
    ∃ results, SolvedInTurn program limits w.arena program.tasks results w'.arena ∧
      ∀ p, let found := results.filterMap (·.2.group? p)
        solution.typesOf p = found.flatMap Group.types ∧ solution.group? p = found.getLast? ∧
        (solution.typesOf p = (solution.group? p).elim [] Group.types ↔
          ∀ g ∈ found.dropLast, g.types = []) ∧
        ((∀ g ∈ found.dropLast, g.types = []) → (1 < (solution.typesOf p).length ↔
          ∃ g, solution.group? p = some g ∧ g.isConflicting = true)) := by
  obtain ⟨results, hSolved, rfl⟩ := exists_solvedInTurn hRun
  refine ⟨results, hSolved, fun p => ?_⟩
  have hNumbered : ({} : Solution).Numbered := fun p n hn => by simp at hn
  obtain ⟨hTypes, hGroup⟩ := hSolved.lookup hNumbered p
  have hNone : ({} : Solution).group? p = none ∧ ({} : Solution).typesOf p = [] := by
    simp [Solution.group?, Solution.typesOf]
  rw [hNone.2, List.nil_append] at hTypes
  rw [hNone.1, Option.or_none] at hGroup
  have hAgree := flatMap_types_eq_getLast?_iff (results.filterMap (·.2.group? p))
  rw [← hTypes, ← hGroup] at hAgree
  refine ⟨hTypes, hGroup, hAgree, fun hOthers => ?_⟩
  -- with nothing from earlier sessions, several types are those of one group
  rw [hAgree.mpr hOthers]
  cases (Solution.addSessions {} results).group? p <;> simp [Group.isConflicting]

-- The definition at point 1 and the top level both say that point 2, which belongs to
-- neither of them, is of the type declared at point 0.

/-- That point 2 is of the type declared at point 0. -/
def shared : Constraint :=
  .ascribe { node := ⟨2⟩, type := .con (.named ⟨0⟩) [] none }

/-- Both the definition at point 1 and the top level say so. -/
def sharing : Program where
  topLevel := [shared]
  definitions := (∅ : PointMap (List Constraint)).insert ⟨1⟩ [shared]

def beforeSharing : World where
  arena := ⟨(List.replicate 3 { span := ⟨0, 0⟩, source := "" }).toArray⟩

theorem typesOf_eq_group_types_iff_sharing :
    ∃ solution w', (sharing.solve ⟨2, 2⟩).runIn beforeSharing = (.ok solution, w') ∧
      ∃ results, SolvedInTurn sharing ⟨2, 2⟩ beforeSharing.arena sharing.tasks results w'.arena ∧
        ∀ p, let found := results.filterMap (·.2.group? p)
          solution.typesOf p = found.flatMap Group.types ∧ solution.group? p = found.getLast? ∧
          (solution.typesOf p = (solution.group? p).elim [] Group.types ↔
            ∀ g ∈ found.dropLast, g.types = []) ∧
          ((∀ g ∈ found.dropLast, g.types = []) → (1 < (solution.typesOf p).length ↔
            ∃ g, solution.group? p = some g ∧ g.isConflicting = true)) :=
  ⟨_, _, rfl, typesOf_eq_group_types_iff rfl⟩

/-- A type that two sessions agree on is found twice. -/
theorem typesOf_ne_group_types :
    ∃ solution w', (sharing.solve ⟨2, 2⟩).runIn beforeSharing = (.ok solution, w') ∧
      solution.typesOf ⟨2⟩ = [.con (.named ⟨0⟩) [] none, .con (.named ⟨0⟩) [] none] ∧
      solution.group? ⟨2⟩ = some ⟨[⟨2⟩], [.con (.named ⟨0⟩) [] none]⟩ ∧ solution.errors = [] :=
  ⟨_, _, rfl, rfl, rfl, rfl⟩

end Program

end TraitInference
