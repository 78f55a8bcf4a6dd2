import TraitInference.Proofs.Grouping
import TraitInference.Proofs.Support
import TraitInference.Proofs.Unfolding
import TraitInference.Solve

/-!
# TraitInference — emission templates are only passed along

Forgetting every emission template is a renaming that moves no point
(`Renaming.erasing`), so all that a session does commutes with it. What is read off a
session at the end commutes with it as well: normal forms (`apply_rename`), groups
(`finish_erase`) and the tables of a solution (`addSession_erase`). So a program is
solved, halts or runs on just as it would without templates, in the same arena
(`sim_solve`), and two programs that differ in nothing but templates have solutions that
differ in nothing but templates (`Program.solve_erase`).
-/

namespace TraitInference

variable {φ : Renaming}

-- ---------------------------------------------------------------------------
-- Normal forms under a renaming
-- ---------------------------------------------------------------------------

namespace Ty

mutual

/-- Putting types in the place of points commutes with renaming if what is put there does. -/
theorem bind_rename {f g : Point → Ty} (h : ∀ p, g (φ.point p) = (f p).rename φ) :
    ∀ t : Ty, (t.rename φ).bind g = (t.bind f).rename φ
  | .point p => h p
  | .con tag children emit => by
    rw [rename, bind, bind, rename, bindAll_renameAll h children]

theorem bindAll_renameAll {f g : Point → Ty} (h : ∀ p, g (φ.point p) = (f p).rename φ) :
    ∀ ts : List Ty, bindAll g (renameAll φ ts) = renameAll φ (bindAll f ts)
  | [] => rfl
  | t :: ts => by
    rw [renameAll, bindAll, bindAll, renameAll, bind_rename h t, bindAll_renameAll h ts]

end

/-- Renaming neither makes types the same nor tells them apart. -/
theorem distinct_rename (ts : List Ty) :
    distinct (ts.map (rename φ)) = (distinct ts).map (rename φ) := by
  induction ts using List.reverseRecOn with
  | nil => rfl
  | append_singleton ts t ih =>
    have hAny : ((distinct ts).map (rename φ)).any (·.same (t.rename φ)) =
        (distinct ts).any (·.same t) := by
      simp only [List.any_map, Function.comp_def, same_rename]
    rw [List.map_append, List.map_cons, List.map_nil, distinct_append, distinct_append, ih, hAny]
    split
    · rfl
    · rw [List.map_append, List.map_cons, List.map_nil]

end Ty

namespace Unification

/-- The expansion of a renamed point. The points that are being expanded are renamed along
with it. -/
theorem expand_rename (u : Unification) (fuel : Nat) (visiting : List Point) (p : Point) :
    (u.rename φ).expand fuel (visiting.map φ.point) (φ.point p) =
      (u.expand fuel visiting p).rename φ := by
  induction fuel generalizing visiting p with
  | zero => simp only [expand, rename_representative, Ty.rename]
  | succ fuel ih =>
    -- a class is under way on one side if and only if it is on the other
    have hVisiting : φ.point (u.representative p) ∈ visiting.map φ.point ↔
        u.representative p ∈ visiting := List.mem_map_of_injective φ.point.injective
    simp only [expand, rename_representative, typesAt_rename, List.head?_map, hVisiting]
    split
    · rfl
    · cases (u.typesAt (u.representative p)).head? with
      | none => rfl
      | some t => exact Ty.bind_rename (fun q => ih (u.representative p :: visiting) q) t

/-- **Normal forms commute with renaming.** -/
theorem apply_rename (u : Unification) (t : Ty) :
    (u.rename φ).apply (t.rename φ) = (u.apply t).rename φ := by
  -- the expansion is bounded by the number of classes that have types
  have hSize : (u.rename φ).types.size = u.types.size := PointMap.size_rename u.types
  unfold apply
  rw [hSize]
  exact Ty.bind_rename (fun p => expand_rename u u.types.size [] p) t

theorem applyAll_rename (u : Unification) (s : Substitution) :
    (u.rename φ).applyAll (s.rename φ) = (u.applyAll s).rename φ := by
  refine Std.ExtTreeMap.ext_getElem? fun q => ?_
  simp only [applyAll, Substitution.rename, Substitution.mapTypes, Std.ExtTreeMap.getElem?_map,
    Option.map_map]
  congr 1
  funext t
  exact apply_rename u t

end Unification

-- ---------------------------------------------------------------------------
-- Erasing
-- ---------------------------------------------------------------------------

/-- The renaming that keeps all points and forgets all templates. -/
def Renaming.erasing : Renaming where
  point := .refl Point
  template _ := none

namespace Ty

mutual

/-- Erasing the templates of a type is such a renaming. -/
theorem rename_erasing : ∀ t : Ty, t.rename .erasing = t.erase
  | .point p => rfl
  | .con tag children emit => by rw [rename, erase, renameAll_erasing children]; rfl

theorem renameAll_erasing : ∀ ts : List Ty, renameAll .erasing ts = eraseAll ts
  | [] => rfl
  | t :: ts => by rw [renameAll, eraseAll, rename_erasing t, renameAll_erasing ts]

end

end Ty

/-- A program without templates. -/
def Program.erase (program : Program) : Program :=
  program.rename .erasing

/-- A bound without templates. -/
def Bound.erase (b : Bound) : Bound :=
  b.rename .erasing

/-- A group without templates. -/
def Group.erase (g : Group) : Group :=
  { g with types := g.types.map Ty.erase }

/-- What is left of a state, without templates. -/
def Finished.erase (f : Finished) : Finished where
  groups := f.groups.map Group.erase
  deferred := f.deferred.map (Substitution.mapTypes Ty.erase)

def ResolvedBound.erase (r : ResolvedBound) : ResolvedBound :=
  { r with bound := r.bound.erase }

/-- An error without templates: only the bound that it may speak of has any. -/
def SolveError.erase : SolveError → SolveError
  | .conflictingTypes p group => .conflictingTypes p group
  | .unresolvedBound p b => .unresolvedBound p b.erase
  | .errorInstance p b node => .errorInstance p b.erase node

/-- A solution without templates. -/
def Solution.erase (s : Solution) : Solution where
  groups := s.groups.map Group.erase
  groupOf := s.groupOf
  types := s.types.map fun _ => List.map Ty.erase
  resolved := s.resolved.map fun _ => List.map ResolvedBound.erase
  unresolved := s.unresolved.map fun _ => List.map Bound.erase
  errors := s.errors.map SolveError.erase

-- ---------------------------------------------------------------------------
-- Groups without templates
-- ---------------------------------------------------------------------------

namespace Unification

/-- Erasing moves no point, so the classes are the same. -/
theorem classes_erasing (u : Unification) : (u.rename .erasing).classes = u.classes := by
  have hParents : u.classes.parents.rename (Equiv.refl Point) (Equiv.refl Point) =
      u.classes.parents :=
    PointMap.rename_eq_self fun p q hFound => ⟨rfl, rfl⟩
  exact congrArg UnionFind.mk hParents

/-- The groups of one class, by cases on whether it has types. -/
theorem groupsOf_eq (u : Unification) (root : Point) (nodes : List Point) :
    u.groupsOf root nodes = if u.typesAt root = [] then nodes.map fun p => ⟨[p], []⟩
      else [⟨nodes, Ty.distinct ((u.typesAt root).map u.apply)⟩] := by
  unfold groupsOf
  split
  · rename_i hOpen
    rw [if_pos hOpen]
  · rename_i hTyped
    rw [if_neg hTyped]

/-- Types that differ in templates only were one type in the group before. -/
theorem groupsOf_erase (u : Unification) (root : Point) (nodes : List Point) :
    (u.rename .erasing).groupsOf root nodes = (u.groupsOf root nodes).map Group.erase := by
  have hTypes : (u.rename .erasing).typesAt root = (u.typesAt root).map (Ty.rename .erasing) :=
    typesAt_rename (φ := .erasing) u root
  -- normal forms first, then duplicates are left out, in this order on both sides
  have hNormal : ((u.typesAt root).map (Ty.rename .erasing)).map (u.rename .erasing).apply =
      ((u.typesAt root).map u.apply).map (Ty.rename .erasing) := by
    rw [List.map_map, List.map_map]
    exact List.map_congr_left fun t _ => apply_rename u t
  rw [groupsOf_eq, groupsOf_eq, hTypes, hNormal, Ty.distinct_rename, funext Ty.rename_erasing]
  by_cases hOpen : u.typesAt root = []
  · simp [hOpen, Group.erase]
  · simp [hOpen, Group.erase]

/-- Groups are placed by their points, which are the same. -/
theorem arrange_erase (a : Arena) (groups : List Group) :
    a.arrange (groups.map Group.erase) = (a.arrange groups).map (List.map Group.erase) := by
  have hPlaced : (groups.map Group.erase).mapM (fun g : Group => g.first.map (·, g)) =
      (groups.mapM fun g : Group => g.first.map (·, g)).map
        (List.map (Prod.map id Group.erase)) := by
    rw [List.mapM_map]
    refine mapM_map_ok (fun g => ?_) groups
    show g.first.map _ = (g.first.map _).map _
    cases g.first with
    | error e => rfl
    | ok p => rfl
  have hArrange : ∀ gs : List Group, a.arrange gs =
      (gs.mapM fun g : Group => g.first.map (·, g)).bind fun placed =>
        (a.inSourceOrder Prod.fst placed).map (List.map Prod.snd) := fun _ => rfl
  rw [hArrange, hArrange, hPlaced]
  cases groups.mapM fun g : Group => g.first.map (·, g) with
  | error e => rfl
  | ok placed =>
    have hOrder := a.inSourceOrder_map (f := Prod.map id Group.erase) Prod.fst Prod.fst
      (fun _ => rfl) placed
    simp only [Except.map, Except.bind, hOrder]
    cases a.inSourceOrder Prod.fst placed with
    | error e => rfl
    | ok ordered => simp [Function.comp_def]

/-- **Groups commute with erasing.** -/
theorem finish_erase (u : Unification) (a : Arena) :
    (u.rename .erasing).finish a = (u.finish a).map Finished.erase := by
  have hMembers : (u.rename .erasing).members = u.members := by
    unfold members representative
    rw [classes_erasing]
  -- classes are the same, so the groups are compared class by class
  have hEach : u.members.toList.mapM (fun x =>
        (a.inSourceOrder id x.2).map ((u.rename .erasing).groupsOf x.1)) =
      (u.members.toList.mapM fun x => (a.inSourceOrder id x.2).map (u.groupsOf x.1)).map
        (List.map (List.map Group.erase)) := by
    refine mapM_map_ok (fun x => ?_) _
    cases a.inSourceOrder id x.2 with
    | error e => rfl
    | ok nodes => exact congrArg Except.ok (groupsOf_erase u x.1 nodes)
  have hDeferred : (u.rename .erasing).deferred.map (u.rename .erasing).applyAll =
      (u.deferred.map u.applyAll).map (Substitution.mapTypes Ty.erase) := by
    show (u.deferred.map (Substitution.rename .erasing)).map _ = _
    rw [List.map_map, List.map_map]
    refine List.map_congr_left fun s _ => ?_
    rw [Function.comp_apply, applyAll_rename, Substitution.rename, funext Ty.rename_erasing]
    rfl
  rw [finish_eq, finish_eq, hMembers, hEach, hDeferred]
  cases u.members.toList.mapM fun x => (a.inSourceOrder id x.2).map (u.groupsOf x.1) with
  | error e => rfl
  | ok each =>
    simp only [Except.map, Except.bind, ← List.map_flatten, arrange_erase]
    cases a.arrange each.flatten with
    | error e => rfl
    | ok groups => rfl

end Unification

-- ---------------------------------------------------------------------------
-- Solutions without templates
-- ---------------------------------------------------------------------------

namespace Solution

/-- What is filed may be mapped before or afterwards. -/
theorem fileUnder_map {α β : Type} (f : α → β) (table : PointMap (List α)) (p : Point)
    (items : List α) :
    (fileUnder table p items).map (fun _ => List.map f) =
      fileUnder (table.map fun _ => List.map f) p (items.map f) := by
  refine Std.ExtTreeMap.ext_getElem? fun q => ?_
  simp only [fileUnder, Std.ExtTreeMap.getElem?_map, Std.ExtTreeMap.getElem?_alter]
  split
  · cases table[p]? <;> simp
  · rfl

theorem foldl_fileUnder_map {α β : Type} (f : α → β) (ps : List Point) (items : List α)
    (table : PointMap (List α)) :
    (ps.foldl (fun table p => fileUnder table p items) table).map (fun _ => List.map f) =
      ps.foldl (fun table p => fileUnder table p (items.map f))
        (table.map fun _ => List.map f) := by
  induction ps generalizing table with
  | nil => rfl
  | cons p ps ih => rw [List.foldl_cons, List.foldl_cons, ih, fileUnder_map]

/-- A group is in conflict without templates if and only if it was with them. -/
theorem addGroup_erase (s : Solution) (g : Group) :
    (s.addGroup g).erase = s.erase.addGroup g.erase := by
  have hConflict : g.erase.isConflicting = g.isConflicting := by
    simp [Group.isConflicting, Group.erase]
  have hSize : s.erase.groups.size = s.groups.size := by simp [erase]
  unfold addGroup
  rw [hConflict, hSize]
  simp only [erase, Group.erase, foldl_fileUnder_map, Array.map_push]
  congr 1
  cases g.isConflicting <;> cases g.nodes <;> simp [SolveError.erase]

/-- What became of a bound is filed without templates. -/
theorem addResolution_erase (deferred : List Substitution) (s : Solution) (r : Resolution) :
    (addResolution deferred s r).erase =
      addResolution (deferred.map (Substitution.mapTypes Ty.erase)) s.erase
        (r.rename .erasing) := by
  obtain ⟨b, place, outcome⟩ := r
  have hArgs : (deferred.map (Substitution.mapTypes Ty.erase))[place]?.getD
      (b.args.rename .erasing) = (deferred[place]?.getD b.args).rename .erasing := by
    rw [List.getElem?_map, Substitution.rename, Substitution.rename, funext Ty.rename_erasing]
    cases deferred[place]? <;> rfl
  -- the bound that is filed, with the types that have waited
  have hBound : ({ b.rename .erasing with
        args := (deferred.map (Substitution.mapTypes Ty.erase))[place]?.getD
          (b.args.rename .erasing) } : Bound) =
      Bound.erase { b with args := deferred[place]?.getD b.args } := by
    rw [hArgs]
    rfl
  unfold addResolution
  dsimp only [Resolution.rename]
  dsimp only [Bound.rename] at hBound ⊢
  rw [hBound]
  cases outcome with
  | unresolved =>
    simp only [erase, fileUnder_map, List.map_append, List.map_cons, List.map_nil,
      SolveError.erase]
    rfl
  | resolved node isError =>
    cases isError with
    | false =>
      simp only [erase, fileUnder_map, List.map_cons, List.map_nil, ResolvedBound.erase]
      rfl
    | true =>
      simp only [erase, fileUnder_map, List.map_append, List.map_cons, List.map_nil,
        SolveError.erase, ResolvedBound.erase, if_true]
      rfl

/-- An item of a mapped list. -/
theorem fetch_map {α β : Type} (f : α → β) (items : List α) (index : Nat) :
    fetch (items.map f) index = (fetch items index).map f := by
  unfold fetch
  rw [List.getElem?_map, List.length_map]
  cases items[index]? <;> rfl

/-- The check looks at points and places only. -/
theorem checkSession_erase (f : Finished) (rs : List Resolution) :
    checkSession f.erase (rs.map (Resolution.rename .erasing)) = (checkSession f rs).map id := by
  have hConflicts : f.erase.groups.filter Group.isConflicting =
      (f.groups.filter Group.isConflicting).map Group.erase := by
    rw [Finished.erase, List.filter_map]
    refine congrArg _ (List.filter_congr fun g _ => ?_)
    simp [Group.isConflicting, Group.erase]
  have hFirst : (f.erase.groups.filter Group.isConflicting).mapM Group.first =
      (f.groups.filter Group.isConflicting).mapM Group.first := by
    rw [hConflicts, List.mapM_map]
    rfl
  have hFetch : (rs.map (Resolution.rename .erasing)).mapM
        (fun r => fetch f.erase.deferred r.deferred) =
      (rs.mapM fun r => fetch f.deferred r.deferred).map
        (List.map (Substitution.mapTypes Ty.erase)) := by
    rw [List.mapM_map]
    exact mapM_map_ok (fun r => fetch_map _ f.deferred r.deferred) rs
  unfold checkSession
  rw [hFirst, hFetch]
  cases (f.groups.filter Group.isConflicting).mapM Group.first with
  | error e => rfl
  | ok points => cases rs.mapM fun r => fetch f.deferred r.deferred <;> rfl

/-- **What a session adds commutes with erasing.** -/
theorem addSession_erase (s : Solution) (f : Finished) (rs : List Resolution) :
    (s.addSession f rs).erase =
      s.erase.addSession f.erase (rs.map (Resolution.rename .erasing)) := by
  have hGroups : ∀ (gs : List Group) (s : Solution),
      (gs.foldl addGroup s).erase = (gs.map Group.erase).foldl addGroup s.erase := by
    intro gs
    induction gs with
    | nil => intro s; rfl
    | cons g gs ih =>
      intro s
      rw [List.foldl_cons, List.map_cons, List.foldl_cons, ih, addGroup_erase]
  have hResolutions : ∀ (rs : List Resolution) (s : Solution),
      (rs.foldl (addResolution f.deferred) s).erase =
        (rs.map (Resolution.rename .erasing)).foldl (addResolution f.erase.deferred) s.erase := by
    intro rs
    induction rs with
    | nil => intro s; rfl
    | cons r rs ih =>
      intro s
      rw [List.foldl_cons, List.map_cons, List.foldl_cons, ih, addResolution_erase]
      rfl
  unfold addSession
  rw [hResolutions, hGroups]
  rfl

end Solution

-- ---------------------------------------------------------------------------
-- Solving without templates
-- ---------------------------------------------------------------------------

/-- A session starts with the renamed constraints. -/
theorem Session.start_rename (implied : List Instance) (cs : List Constraint) :
    (start implied cs).rename φ =
      start (implied.map (Instance.rename φ)) (cs.map (Constraint.rename φ)) := by
  have hAgenda : (Agenda.extend {} cs).rename φ =
      Agenda.extend {} (cs.map (Constraint.rename φ)) := (Agenda.extend_rename {} cs).symm
  have hUnification : Unification.rename φ {} = {} := rfl
  simp only [start, rename, hAgenda, hUnification, List.map_nil]

/-- Nothing moves but the templates. -/
def Mirror.erasing : Mirror .erasing :=
  .still fun _ => none

namespace Program

variable (program : Program) (limits : Limits)

/-- A question has the same answer on both sides, but for templates, since the arena is the
same. -/
theorem sim_ask {α β : Type} {f : α → β} {question : Arena → Except Fault α}
    {question' : Arena → Except Fault β} (h : ∀ a, question' a = (question a).map f) :
    Sim Mirror.erasing.solving f (SolveM.ask question) (SolveM.ask question') := by
  have hAsk : ∀ (γ : Type) (asked : Arena → Except Fault γ) (w : World),
      outcome (SolveM.ask asked) w = ((asked w.arena).mapError .fault, w) := by
    intro γ asked w
    rw [SolveM.ask, outcome_bind_ok (outcome_get w)]
    cases asked w.arena <;> rfl
  have hResult : ∀ {w w' : World}, w'.arena = w.arena →
      (question' w'.arena).mapError Halt.fault = ((question w.arena).mapError .fault).map f := by
    intro w w' hArena
    rw [hArena, h]
    cases question w.arena <;> rfl
  constructor
  · intro w
    rw [hAsk]
    exact .refl
  · intro w w' hTwin _
    rw [hAsk, hAsk]
    exact hResult hTwin
  · intro w w' hTwin _
    rw [hAsk, hAsk]
    exact hTwin

/-- A hypothesis stays one. -/
theorem hypothesis_erase : ∀ c : Constraint,
    (c.rename .erasing).hypothesis = c.hypothesis.map (Bound.rename .erasing)
  | .ascribe _ | .call _ | .fallback _ => rfl
  | .require b => by
    show (if b.isHypothesis then _ else _) = Option.map _ (if b.isHypothesis then _ else _)
    split
    · rfl
    · rfl
  | .scoped c => hypothesis_erase c

/-- What a definition may assume. -/
theorem implied_erase (cs : List Constraint) :
    ((cs.map (Constraint.rename .erasing)).filterMap Constraint.hypothesis).map
        Instance.ofHypothesis =
      ((cs.filterMap Constraint.hypothesis).map Instance.ofHypothesis).map
        (Instance.rename .erasing) := by
  induction cs with
  | nil => rfl
  | cons c cs ih =>
    rw [List.map_cons, List.filterMap_cons, List.filterMap_cons, hypothesis_erase c]
    cases c.hypothesis with
    | none => exact ih
    | some b => exact congrArg (_ :: ·) ih

/-- A session of the program without templates runs side by side with that of the program, and
so do the tables it adds to. -/
theorem sim_solveSession (definition : Option Point) (implied : List Instance)
    (cs : List Constraint) (solution : Solution) :
    Sim Mirror.erasing.solving Solution.erase
      (program.solveSession limits definition implied cs solution)
      (program.erase.solveSession limits definition (implied.map (Instance.rename .erasing))
        (cs.map (Constraint.rename .erasing)) solution.erase) := by
  have hName : Sim Mirror.erasing.solving id (sessionName definition) (sessionName definition) := by
    cases definition with
    | none => exact .pure _
    | some d =>
      have hSource : ∀ a : Arena, a.source d = (a.source d).map id := by
        intro a
        cases a.source d <;> rfl
      exact sim_ask hSource
  refine hName.bind fun name => SolveM.sim_within _ _ _ ?_
  rw [← Session.start_rename]
  -- any program is over points of which nothing is asked
  have hRun : Sim Mirror.erasing.solving (Session.rename .erasing)
      ((Session.start implied cs).run program limits)
      (((Session.start implied cs).rename .erasing).run program.erase limits) :=
    Session.sim_runBefore Mirror.erasing limits.depth program.over_true limits.steps none _
  refine hRun.bind fun s => ?_
  refine (sim_ask s.unification.finish_erase).bind fun finished => ?_
  refine (SolveM.sim_emit _ _ _).bind fun _ => ?_
  refine (sim_ask fun _ => Solution.checkSession_erase finished s.resolutions).map fun _ => ?_
  exact (solution.addSession_erase finished s.resolutions).symm

/-- The definitions are solved in the same order. -/
theorem sim_solveDefinitions (l : List (Point × List Constraint)) (solution : Solution) :
    Sim Mirror.erasing.solving Solution.erase (program.solveDefinitions limits l solution)
      (program.erase.solveDefinitions limits
        (l.map fun (d, cs) => (d, cs.map (Constraint.rename .erasing))) solution.erase) := by
  induction l generalizing solution with
  | nil => exact .pure solution
  | cons x l ih =>
    obtain ⟨d, cs⟩ := x
    have hFirst := sim_solveSession program limits (some d)
      ((cs.filterMap Constraint.hypothesis).map Instance.ofHypothesis) cs solution
    rw [← implied_erase] at hFirst
    exact hFirst.bind fun solution => ih solution

/-- **Solving commutes with erasing.** -/
theorem sim_solve :
    Sim Mirror.erasing.solving Solution.erase (program.solve limits)
      (program.erase.solve limits) := by
  have hDefinitions := sim_solveDefinitions program limits program.definitions.toList {}
  have hList : program.erase.definitions.toList = program.definitions.toList.map
      fun (d, cs) => (d, cs.map (Constraint.rename .erasing)) := Std.ExtTreeMap.toList_map
  have hTable : ∀ (α : Type) (f : α → α), (∅ : PointMap α).map (fun _ => f) = ∅ :=
    fun α f => Entries.map_ofList f []
  -- both sides start from nothing
  have hEmpty : Solution.erase {} = {} := by simp [Solution.erase, hTable]
  rw [← hList, hEmpty] at hDefinitions
  exact hDefinitions.bind fun solution =>
    sim_solveSession program limits none [] program.topLevel solution

/--
**Emission templates never influence solving.** Let two programs be equal once all
templates are forgotten, and solve both in the same world and within the same limits.
Then both halt for the same reason or both have a solution; the solutions are equal once
their templates are forgotten; and either way the two leave the same arena.
-/
theorem solve_erase {program program' : Program} (hErase : program.erase = program'.erase)
    (limits : Limits) (w : World) :
    ((program.solve limits).runIn w).1.map Solution.erase =
        ((program'.solve limits).runIn w).1.map Solution.erase ∧
      ((program.solve limits).runIn w).2.arena = ((program'.solve limits).runIn w).2.arena := by
  have hFirst := sim_solve program limits
  have hSecond := sim_solve program' limits
  rw [← hErase] at hSecond
  -- each program runs side by side with the one without templates, in a world of its own; both
  -- start in `w`
  have hTwin : Mirror.erasing.solving.twin w w := rfl
  refine ⟨?_, ?_⟩
  · exact (hFirst.result hTwin trivial).symm.trans (hSecond.result hTwin trivial)
  · exact (hFirst.twin hTwin trivial).symm.trans (hSecond.twin hTwin trivial)

-- The definition at point 1 gives its own point a type with a template, and so does the
-- top level for point 2, which is also a call site of the definition.

/-- A program with a template wherever one can be. -/
def labelled (emit : Option String) : Program where
  topLevel := [.ascribe { node := ⟨2⟩, type := .con .tuple [.point ⟨3⟩] emit },
    .call (.ofSource ⟨2⟩ ⟨1⟩ ∅)]
  definitions := (∅ : PointMap (List Constraint)).insert ⟨1⟩
    [.ascribe { node := ⟨1⟩, type := .con .tuple [.con (.named ⟨0⟩) [] emit] emit }]

def beforeLabelled : World where
  arena := ⟨(List.replicate 4 { span := ⟨0, 0⟩, source := "" }).toArray⟩

theorem solve_erase_labelled : ∃ solution solution' w w',
    ((labelled (some "t")).solve ⟨5, 5⟩).runIn beforeLabelled = (.ok solution, w) ∧
      ((labelled none).solve ⟨5, 5⟩).runIn beforeLabelled = (.ok solution', w') ∧
      solution.erase = solution'.erase ∧ w.arena = w'.arena := by
  have hErase : (labelled (some "t")).erase = (labelled none).erase := rfl
  obtain ⟨hSolution, hArena⟩ := solve_erase hErase ⟨5, 5⟩ beforeLabelled
  exact ⟨_, _, _, _, rfl, rfl, Except.ok.inj hSolution, hArena⟩

end Program

end TraitInference
