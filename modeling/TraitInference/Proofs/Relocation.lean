import TraitInference.Proofs.Evolution
import TraitInference.Proofs.Interleaving
import TraitInference.Proofs.Lookup
import TraitInference.Proofs.Templates

/-!
# TraitInference — the same run in another arena

A session that runs in a larger arena numbers its copies otherwise, and makes the same
copies all the same: they stand for the same points and the same call sites
(`Session.runBefore_relocated`). A renaming that moves only points from beyond the end of
the arena does not touch anything that was found in it (`Session.runBefore_settled`,
`Program.solveDefinitions_settled`).
-/

namespace TraitInference

variable {φ : Renaming}

-- ---------------------------------------------------------------------------
-- Points of programs and sessions
-- ---------------------------------------------------------------------------

section Over

variable {T T' : Point → Prop}

theorem Instance.Over.mono (hT : ∀ p, T p → T' p) {i : Instance} (h : i.Over T T) : i.Over T' T' :=
  ⟨hT _ h.trait, Substitution.Over.mono hT hT h.args⟩

/-- A program over some points is one over more of them. -/
theorem Program.Over.mono (hT : ∀ p, T p → T' p) {program : Program} (h : program.Over T T) :
    program.Over T' T' where
  topLevel c hc := (h.topLevel c hc).mono hT hT
  definitions d cs hFound c hc := (h.definitions d cs hFound c hc).mono hT hT
  instances trait is hFound :=
    ⟨hT _ (h.instances trait is hFound).1,
      fun i hi => ((h.instances trait is hFound).2 i hi).mono hT⟩

/-- A session starts with what it is given, and knows of no other points. -/
theorem Session.over_start {implied : List Instance} {cs : List Constraint}
    (hImplied : ∀ i ∈ implied, i.Over T T) (hcs : ∀ c ∈ cs, c.Over T T) :
    (start implied cs).Over T where
  unification := ⟨by simp [start], by simp [start], by simp [start], by simp [start]⟩
  agenda c hc := by
    rcases List.mem_append.mp ((Agenda.toList_extend {} cs).mem_iff.mp hc) with hNew | hOld
    · exact hcs c hNew
    · cases hOld
  implied := hImplied
  resolutions := by simp [start]

/-- What a definition may assume is made of its own points. -/
theorem Constraint.Over.hypothesis : ∀ {c : Constraint}, c.Over T T → ∀ {b : Bound},
    c.hypothesis = some b → b.Over T T
  | .require b', hOver, b, hb => by
    unfold Constraint.hypothesis at hb
    split at hb
    · exact Option.some.inj hb ▸ hOver
    · cases hb
  | .scoped c, hOver, b, hb => Constraint.Over.hypothesis (c := c) hOver hb

end Over

-- ---------------------------------------------------------------------------
-- A run in a larger arena
-- ---------------------------------------------------------------------------

/-- What is known about a copy, with its call site renamed. -/
def Site.rename (ρ : Equiv.Perm Point) (st : Site) : Site :=
  { st with copiedBy := st.copiedBy.map ρ }

/-- What is known about a copy made for a call site that stays does not change. -/
theorem Site.rename_of_copiedBy {ρ : Equiv.Perm Point} {st : Site} {site : Point}
    (h : (st.rename ρ).copiedBy = some site) (hStays : ρ site = site) :
    st.copiedBy = some site ∧ st.rename ρ = st := by
  obtain ⟨by', hBy, hEq⟩ := Option.map_eq_some_iff.mp h
  obtain rfl : by' = site := ρ.injective (hEq.trans hStays.symm)
  refine ⟨hBy, ?_⟩
  rw [rename, hBy, Option.map_some, hStays, ← hBy]

/-- Twin arenas in which also the copies made from the `n`-th point on correspond. -/
def Mirror.recording (M : Mirror φ) (n : Nat) : Mirror φ where
  template := M.template
  point_eq := M.point_eq
  inside := M.inside
  inside_of_copies := M.inside_of_copies
  twin a a' := M.twin a a' ∧ ∀ p st, n ≤ p.index → a.site p = .ok st →
    a'.site (φ.point p) = .ok (st.rename φ.point)
  site_eq hTwin := M.site_eq hTwin.1
  copy_eq := by
    rintro a a' b p site q ⟨hTwin, hRecorded⟩ hp hCopy hInside
    obtain ⟨b', hCopy', hNext⟩ := M.copy_eq hTwin hp hCopy hInside
    have hCopies : a.Copies b := ⟨p, site, q, hCopy⟩
    have hCopies' : a'.Copies b' := ⟨p, _, _, hCopy'⟩
    refine ⟨b', hCopy', hNext, fun x st hx hSite => ?_⟩
    by_cases hOld : a.Holds x
    · rw [hCopies.site_eq hOld] at hSite
      have hSite' := hRecorded x st hx hSite
      rw [hCopies'.site_eq (Arena.holds_of_site hSite')]
      exact hSite'
    · -- the new copy
      obtain rfl := Arena.eq_of_copy hCopy (Arena.holds_of_site hSite) hOld
      obtain ⟨known, hKnown, -⟩ := Arena.copy_eq_ok_iff.mp hCopy
      have hKnown' := (M.site_eq hTwin hp).trans hKnown
      rw [Arena.site_of_copy hCopy hKnown] at hSite
      rw [Arena.site_of_copy hCopy' hKnown', ← Except.ok.inj hSite]
      rfl

/-- A renaming that moves no point up to the size `high`. What the two arenas say about
points beyond `a` does not matter. -/
def Mirror.below {a : Arena} {high : Nat} (hFix : ∀ p : Point, p.index < high → φ.point p = p)
    (hSize : a.size ≤ high) : Mirror φ where
  template := a.Holds
  point_eq hp := hFix _ (Nat.lt_of_lt_of_le hp hSize)
  inside b := b.size ≤ high
  inside_of_copies hCopies hInside := by
    have hNext := hCopies.size
    omega
  twin b b' := a.size ≤ b.size ∧ b'.size = b.size ∧ ∀ p, a.Holds p → b'.site p = b.site p
  site_eq hTwin hp := hTwin.2.2 _ hp
  copy_eq := by
    rintro b b' c p site q ⟨hLow, hEqual, hSites⟩ hp hCopy hInside
    have hCopies : b.Copies c := ⟨p, site, q, hCopy⟩
    have hNext := hCopies.size
    obtain ⟨st, hSite, -⟩ := Arena.copy_eq_ok_iff.mp hCopy
    rw [← hSites p hp] at hSite
    obtain ⟨c', hCopy'⟩ := Arena.exists_copy hSite (φ.point site)
    have hCopies' : b'.Copies c' := ⟨p, _, _, hCopy'⟩
    have hNext' := hCopies'.size
    -- both arenas allocate the same point next, and it is still below `high`
    have hStays : φ.point q = ⟨b'.size⟩ := by
      rw [Arena.copy_fst hCopy, hEqual]
      exact hFix _ (by dsimp only; omega)
    refine ⟨c', ?_, by omega, by omega, fun x hx => ?_⟩
    · rw [hStays]
      exact hCopy'
    · have hOld : x.index < a.size := hx
      rw [hCopies.site_eq (by omega), hCopies'.site_eq (by omega), hSites x hx]

namespace Session

variable {program : Program} {depth steps : Nat} {limit : Option Stage} {s t : Session}
  {w w' v : World}

/-- **In a larger arena a session runs as before**, up to a permutation of the points that it
allocates: they are the same copies. -/
theorem runBefore_relocated (hProgram : program.Over w.arena.Holds w.arena.Holds)
    (hs : s.Over w.arena.Holds) (hGrown : w.arena.Grown v.arena)
    (hRun : outcome (runBefore program depth limit steps s) w = (.ok t, w')) :
    ∃ (ρ : Equiv.Perm Point) (high : Nat) (v' : World), MovesOnly ρ w.arena.size high ∧
      outcome (runBefore program depth limit steps s) v = (.ok (t.rename (.ofPerm ρ)), v') ∧
      ∀ p st, ¬ w.arena.Holds p → w'.arena.site p = .ok st →
        ¬ v.arena.Holds (ρ p) ∧ v'.arena.site (ρ p) = .ok (st.rename ρ) := by
  -- the `k` points allocated from `n` on change places with those `d` further on
  let n := w.arena.size
  let k := w'.arena.size - n
  let d := v.arena.size - n
  let M := (Mirror.shift n k d).recording n
  have hSim : Sim M.solving _ (runBefore program depth limit steps s) _ :=
    sim_runBefore M depth hProgram steps limit s
  have hFixes : (Renaming.ofPerm (shift n k d)).Fixes w.arena.Holds :=
    (movesOnly_shift n k d).fixes
  rw [Program.rename_eq_self hFixes hProgram, Session.rename_eq_self hFixes hs] at hSim
  have hLarger := hGrown.size_le
  have hLonger := (grown_runBefore hRun).size_le
  have hTwin : M.solving.twin w v := by
    refine ⟨⟨Nat.le_refl _, ?_, fun p hp => hGrown.site_eq hp⟩, fun p st hp hSite => ?_⟩
    · show v.arena.size = w.arena.size + (v.arena.size - w.arena.size)
      omega
    · exact absurd (Arena.holds_of_site hSite) (Nat.not_lt.mpr hp)
  have hInside : M.solving.inside (outcome (runBefore program depth limit steps s) w).2 := by
    rw [hRun]
    show w'.arena.size ≤ w.arena.size + (w'.arena.size - w.arena.size)
    omega
  have hResult := hSim.result hTwin hInside
  obtain ⟨-, hRecorded⟩ := hSim.twin hTwin hInside
  rw [hRun] at hResult hRecorded
  refine ⟨shift n k d, n + k + d, _, movesOnly_shift n k d, Prod.ext hResult rfl, ?_⟩
  -- and so they end up beyond the larger arena
  intro p st hNew hSite
  have hLow : n ≤ p.index := Nat.not_lt.mp hNew
  have hHigh : p.index < w'.arena.size := Arena.holds_of_site hSite
  refine ⟨?_, hRecorded p st hLow hSite⟩
  have hMoved : shift n k d p = ⟨p.index + d⟩ := shift_of_mem hLow (by omega)
  rw [hMoved]
  show ¬ p.index + (v.arena.size - w.arena.size) < v.arena.size
  omega

-- ---------------------------------------------------------------------------
-- What is found in an arena is made of its points
-- ---------------------------------------------------------------------------

/-- **A session that has run is made of points of its arena**: a renaming that moves none of
them leaves it as it is. -/
theorem runBefore_settled (hProgram : program.Over w.arena.Holds w.arena.Holds)
    (hs : s.Over w.arena.Holds) (hFix : φ.Fixes w'.arena.Holds)
    (hRun : outcome (runBefore program depth limit steps s) w = (.ok t, w')) :
    t.rename φ = t := by
  have hGrown := grown_runBefore hRun
  let M : Mirror φ := .below (fun p hp => hFix.point hp) hGrown.size_le
  have hSim : Sim M.solving _ (runBefore program depth limit steps s) _ :=
    sim_runBefore M depth hProgram steps limit s
  have hBefore : φ.Fixes w.arena.Holds :=
    ⟨fun hp => hFix.point (hGrown.holds _ hp), hFix.template⟩
  -- the renamed run is the run itself, which ends in one session only
  rw [Program.rename_eq_self hBefore hProgram, Session.rename_eq_self hBefore hs] at hSim
  have hTwin : M.solving.twin w w := ⟨Nat.le_refl _, rfl, fun _ _ => rfl⟩
  have hInside : M.solving.inside (outcome (runBefore program depth limit steps s) w).2 := by
    rw [hRun]
    exact Nat.le_refl _
  have hResult := hSim.result hTwin hInside
  rw [hRun] at hResult
  exact (Except.ok.inj hResult).symm

end Session

-- ---------------------------------------------------------------------------
-- Looking up what a session has found
-- ---------------------------------------------------------------------------

namespace Unification

variable {R : Point → Prop} {u v : Unification}

/-- In the renamed state the same types are found, renamed. -/
theorem found_rename (u : Unification) (p : Point) :
    (u.rename φ).found (φ.point p) = (u.found p).map (Ty.rename φ) := by
  unfold found typesOf
  rw [rename_representative, typesAt_rename, ← Ty.distinct_rename, List.map_map, List.map_map]
  refine congrArg Ty.distinct (List.map_congr_left fun t _ => ?_)
  exact apply_rename u t

/-- Parallel states find the same about their points. -/
theorem Parallel.found (h : Parallel R u v) {p : Point} (hp : R p) : v.found p = u.found p := by
  have hRoot := h.mem_representative hp
  unfold Unification.found typesOf
  rw [h.representative hp, h.typesAt hRoot]
  refine congrArg Ty.distinct (List.map_congr_left fun t ht => ?_)
  exact h.apply (h.inside_of_mem hRoot ht)

end Unification

namespace Program

variable {program : Program} {limits : Limits}

theorem SolvedInTurn.none {a b : Arena} {results : List (Session × Finished)}
    (h : SolvedInTurn program limits a [] results b) : results = [] ∧ a = b := by
  cases h
  exact ⟨rfl, rfl⟩

/-- One session, with the worlds it ran in. -/
theorem SolvedInTurn.single {implied : List Instance} {cs : List Constraint} {a b : Arena}
    {results : List (Session × Finished)}
    (h : SolvedInTurn program limits a [(implied, cs)] results b) :
    ∃ (s : Session) (f : Finished) (w w' : World), w.arena = a ∧ w'.arena = b ∧
      outcome ((Session.start implied cs).run program limits) w = (.ok s, w') ∧
      s.unification.finish b = .ok f ∧ results = [(s, f)] := by
  cases h with
  | cons hRun hFinish hNext =>
    obtain ⟨rfl, hEnd⟩ := hNext.none
    exact ⟨_, _, _, _, rfl, hEnd, hRun, hEnd ▸ hFinish, rfl⟩

/-- Solving a session makes the arena grow. -/
theorem grown_solveSession {definition : Option Point} {implied : List Instance}
    {cs : List Constraint} {solution solution' : Solution} {w w' : World}
    (hRun : outcome (program.solveSession limits definition implied cs solution) w =
      (.ok solution', w')) : w.arena.Grown w'.arena := by
  have hGrows := (sim_solveSession program limits definition implied cs solution).grows w
  rw [hRun] at hGrows
  exact hGrows

theorem grown_solveDefinitions {l : List (Point × List Constraint)}
    {solution solution' : Solution} {w w' : World}
    (hRun : outcome (program.solveDefinitions limits l solution) w = (.ok solution', w')) :
    w.arena.Grown w'.arena := by
  have hGrows := (sim_solveDefinitions program limits l solution).grows w
  rw [hRun] at hGrows
  exact hGrows

/-- A session that was solved, with what was found in it. -/
theorem solveSession_cases {definition : Option Point} {implied : List Instance}
    {cs : List Constraint} {solution solution' : Solution} {w w' : World}
    (hRun : outcome (program.solveSession limits definition implied cs solution) w =
      (.ok solution', w')) :
    ∃ (s : Session) (v v' : World), v.arena = w.arena ∧ v'.arena = w'.arena ∧
      outcome ((Session.start implied cs).run program limits) v = (.ok s, v') ∧
      s.unification.WellFormed ∧
      ∀ p, solution'.typesOf p = solution.typesOf p ++ s.unification.found p := by
  obtain ⟨results, hSolved, rfl⟩ := yields_solveSession definition implied cs solution w _ _ hRun
  obtain ⟨s, f, v, v', hStart, hEnd, hSession, hFinish, rfl⟩ := hSolved.single
  have hLive : s.Live := .run (.start implied cs) hSession
  have hFormed := (hLive.evolves.later .empty).1.wellFormed
  refine ⟨s, v, v', hStart, hEnd, hSession, hFormed, fun p => ?_⟩
  rw [← Unification.types_group? hFormed hFinish]
  exact Solution.typesOf_addSession hFinish _ solution p

/-- **What a session finds about a point is made of points of the arena**: a renaming that
moves none of them leaves it as it is. -/
theorem solveSession_settled {definition : Option Point} {implied : List Instance}
    {cs : List Constraint} {solution solution' : Solution} {w w' : World}
    (hProgram : program.Over w.arena.Holds w.arena.Holds)
    (hImplied : ∀ i ∈ implied, i.Over w.arena.Holds w.arena.Holds)
    (hcs : ∀ c ∈ cs, c.Over w.arena.Holds w.arena.Holds) (hFix : φ.Fixes w'.arena.Holds)
    (hRun : outcome (program.solveSession limits definition implied cs solution) w =
      (.ok solution', w'))
    {p : Point} (hp : w'.arena.Holds p)
    (hBefore : (solution.typesOf p).map (Ty.rename φ) = solution.typesOf p) :
    (solution'.typesOf p).map (Ty.rename φ) = solution'.typesOf p := by
  obtain ⟨s, v, v', hStart, hEnd, hSession, -, hTypes⟩ := solveSession_cases hRun
  rw [← hStart] at hProgram hImplied hcs
  rw [← hEnd] at hFix hp
  have hSettled :=
    Session.runBefore_settled hProgram (Session.over_start hImplied hcs) hFix hSession
  have hSame : s.unification.rename φ = s.unification := congrArg Session.unification hSettled
  have hFound := s.unification.found_rename (φ := φ) p
  rw [hSame, hFix.point hp] at hFound
  rw [hTypes, List.map_append, hBefore, ← hFound]

/-- The same of all definitions: the arena of each session is still there at the end. -/
theorem solveDefinitions_settled {a : Arena} (hProgram : program.Over a.Holds a.Holds)
    {l : List (Point × List Constraint)} (hl : ∀ x ∈ l, ∀ c ∈ x.2, c.Over a.Holds a.Holds)
    {solution solution' : Solution} {w w' : World} (hGrown : a.Grown w.arena)
    (hFix : φ.Fixes w'.arena.Holds)
    (hRun : outcome (program.solveDefinitions limits l solution) w = (.ok solution', w'))
    {p : Point} (hp : a.Holds p)
    (hBefore : (solution.typesOf p).map (Ty.rename φ) = solution.typesOf p) :
    (solution'.typesOf p).map (Ty.rename φ) = solution'.typesOf p := by
  induction l generalizing solution w with
  | nil =>
    obtain ⟨hOk, -⟩ := Prod.mk.inj hRun
    rw [← Except.ok.inj hOk]
    exact hBefore
  | cons x l ih =>
    obtain ⟨d, cs⟩ := x
    obtain ⟨solution₁, w₁, hFirst, hRest⟩ := outcome_bind_eq_ok.mp hRun
    obtain ⟨hcs, hl⟩ := List.forall_mem_cons.mp hl
    have hNext : a.Grown w₁.arena := hGrown.trans (grown_solveSession hFirst)
    have hLater := grown_solveDefinitions hRest
    refine ih hl hNext hRest (solveSession_settled ?_ ?_ ?_ ?_ hFirst ?_ hBefore)
    · exact hProgram.mono hGrown.holds
    · -- what a definition may assume is among its own bounds
      intro i hi
      obtain ⟨b, hb, rfl⟩ := List.mem_map.mp hi
      obtain ⟨c, hc, hHypothesis⟩ := List.mem_filterMap.mp hb
      have hBound := (hcs c hc).hypothesis hHypothesis
      exact Instance.Over.mono hGrown.holds ⟨hBound.trait, hBound.args⟩
    · exact fun c hc => (hcs c hc).mono hGrown.holds hGrown.holds
    · exact ⟨fun hq => hFix.point (hLater.holds _ hq), hFix.template⟩
    · exact hNext.holds p hp

-- ---------------------------------------------------------------------------
-- What stands outside any definition
-- ---------------------------------------------------------------------------

/-- No step looks at the top level. -/
theorem work_topLevel (ts : List Constraint) (depth : Nat) (settle : Session → SolveM Session)
    (s : Session) : ∀ c : Constraint,
    s.work depth { program with topLevel := ts } settle c = s.work depth program settle c
  | .ascribe _ | .fallback _ | .call _ | .require _ => rfl
  | .scoped c => work_topLevel ts depth settle s c

/-- What stands outside any definition matters only to the session that is given it. -/
theorem runBefore_topLevel (ts : List Constraint) (depth : Nat) (limit : Option Stage)
    (steps : Nat) :
    Session.runBefore { program with topLevel := ts } depth limit steps =
      Session.runBefore program depth limit steps := by
  induction steps generalizing limit with
  | zero => rfl
  | succ steps ih =>
    funext s
    rw [Session.runBefore, Session.runBefore, ih, ih]
    simp only [work_topLevel]

theorem solveSession_topLevel (ts : List Constraint) (definition : Option Point)
    (implied : List Instance) (cs : List Constraint) (solution : Solution) :
    solveSession { program with topLevel := ts } limits definition implied cs solution =
      program.solveSession limits definition implied cs solution := by
  unfold solveSession Session.run
  rw [runBefore_topLevel]

theorem solveDefinitions_topLevel (ts : List Constraint) (l : List (Point × List Constraint))
    (solution : Solution) : solveDefinitions { program with topLevel := ts } limits l solution =
      program.solveDefinitions limits l solution := by
  induction l generalizing solution with
  | nil => rfl
  | cons x l ih =>
    obtain ⟨d, cs⟩ := x
    rw [solveDefinitions, solveDefinitions, solveSession_topLevel, funext ih]

/-- The definitions are solved as they would be without it. -/
theorem solve_topLevel (program : Program) (limits : Limits) (ts : List Constraint) :
    solve { program with topLevel := ts } limits =
      program.solveDefinitions limits program.definitions.toList {} >>=
        program.solveSession limits none [] ts := by
  unfold solve
  rw [solveDefinitions_topLevel, funext (solveSession_topLevel ts none [] ts)]

end Program

end TraitInference
