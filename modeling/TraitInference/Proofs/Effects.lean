import TraitInference.Proofs.Equations

/-!
# TraitInference — what working off a constraint can do

A constraint that is worked off leaves the agenda alone (`Session.Keeps`), or lets the copies
made for a call join it (`Session.Calls`), or goes on with a fork on which the copies made
for an instance have joined it and all that comes before bounds has been worked off
(`Session.Accepts`). Each of these says what was done and in which worlds, and
`Session.work_effect` says that there is nothing else, whatever the constraint, the program
and the session are.

Facts about runs are read off this list, one case after the other. The induction over the
steps of a run, and over the runs inside its trials, is made once and for all of them:

* `Session.Carries` — a property of sessions, and a relation between earlier and later ones,
  that every turn carries over.
* `Session.Carries.runBefore` — then every run does.
-/

namespace TraitInference

/-- The constraint itself, wherever it holds. -/
def Constraint.core : Constraint → Constraint
  | .scoped c => c.core
  | c => c

/-- Where a constraint holds does not decide when its turn comes. -/
theorem Constraint.stage_core : ∀ c : Constraint, c.core.stage = c.stage
  | .ascribe _ | .call _ | .require _ | .fallback _ => rfl
  | .scoped c => stage_core c

/-- The world in which the event has happened. -/
def World.noting (e : Trace.Event) (w : World) : World :=
  { w with log := .event e w.arena.size :: w.log }

/-- The world in which the search for an instance begins. -/
def World.seeking (b : Bound) (w : World) : World :=
  { w with log := .event (.seek b) w.arena.size :: .enter (.bound b.source) :: w.log }

namespace Session

-- ---------------------------------------------------------------------------
-- The choice of a candidate
-- ---------------------------------------------------------------------------

/-- **How a candidate is chosen**: the trial of `i`, which led from `w₁` to `w₂`, gave `c`,
no other trial of its tier gave anything, and no tier before had exactly one candidate. -/
inductive Elects (trial : Tier → Instance → SolveM (Option Candidate)) (tier : Tier)
    (i : Instance) (c : Candidate) (w₁ w₂ : World) :
    List (Tier × List Instance) → World → World → Prop
  | here {before after : List Instance} {failed failed' : List (Option Candidate)}
      {rest : List (Tier × List Instance)} {w w₃ : World}
      (hBefore : outcome (before.mapM (trial tier)) w = (.ok failed, w₁))
      (hTrial : outcome (trial tier i) w₁ = (.ok (some c), w₂))
      (hAfter : outcome (after.mapM (trial tier)) w₂ = (.ok failed', w₃))
      (hOnly : failed.reduceOption = [] ∧ failed'.reduceOption = []) :
      Elects trial tier i c w₁ w₂ ((tier, before ++ i :: after) :: rest) w
        (w₃.noting (.tried tier 1))
  | later {tier' : Tier} {is : List Instance} {results : List (Option Candidate)}
      {rest : List (Tier × List Instance)} {w w₃ w' : World}
      (hTried : outcome (is.mapM (trial tier')) w = (.ok results, w₃))
      (hNot : results.reduceOption.length ≠ 1)
      (hRest : Elects trial tier i c w₁ w₂ rest
        (w₃.noting (.tried tier' results.reduceOption.length)) w') :
      Elects trial tier i c w₁ w₂ ((tier', is) :: rest) w w'

section Elects

variable {trial : Tier → Instance → SolveM (Option Candidate)} {tier : Tier} {c : Candidate}

/-- The one trial that gave a candidate, among those that did not. -/
theorem exists_trial_of_mapM : ∀ {l : List Instance} {results : List (Option Candidate)}
    {w w₃ : World}, outcome (l.mapM (trial tier)) w = (.ok results, w₃) →
    results.reduceOption = [c] → ∃ before i after failed failed' w₁ w₂,
      l = before ++ i :: after ∧ outcome (before.mapM (trial tier)) w = (.ok failed, w₁) ∧
      outcome (trial tier i) w₁ = (.ok (some c), w₂) ∧
      outcome (after.mapM (trial tier)) w₂ = (.ok failed', w₃) ∧
      failed.reduceOption = [] ∧ failed'.reduceOption = []
  | [], results, w, w₃, hRun, hOnly => by
    obtain rfl : [] = results := Except.ok.inj (Prod.mk.inj hRun).1
    cases hOnly
  | j :: l, results, w, w₃, hRun, hOnly => by
    rw [List.mapM_cons] at hRun
    obtain ⟨found, w₁, hFirst, hRun⟩ := outcome_bind_eq_ok.mp hRun
    obtain ⟨others, w₂, hRest, hRun⟩ := outcome_bind_eq_ok.mp hRun
    obtain ⟨hResults, rfl⟩ := Prod.mk.inj hRun
    obtain rfl : found :: others = results := Except.ok.inj hResults
    cases found with
    -- the first trial is the one; all others gave nothing
    | some c' =>
      rw [List.reduceOption_cons_of_some] at hOnly
      obtain ⟨rfl, hNone⟩ := List.cons.inj hOnly
      exact ⟨[], j, l, [], others, w, w₁, rfl, rfl, hFirst, hRest, rfl, hNone⟩
    | none =>
      rw [List.reduceOption_cons_of_none] at hOnly
      obtain ⟨before, i, after, failed, failed', w₁', w₂', rfl, hBefore, hTrial, hAfter, hFailed⟩ :=
        exists_trial_of_mapM hRest hOnly
      refine ⟨j :: before, i, after, none :: failed, failed', w₁', w₂', rfl, ?_, hTrial, hAfter, ?_⟩
      · rw [List.mapM_cons, outcome_bind_ok hFirst, outcome_bind_ok hBefore]
        rfl
      · rwa [List.reduceOption_cons_of_none]

/-- **What is chosen is the only candidate of the first tier that has exactly one.** -/
theorem elects_of_firstUnique : ∀ {l : List (Tier × List Instance)} {w w' : World},
    outcome (firstUnique trial l) w = (.ok (some (tier, c)), w') →
    ∃ i w₁ w₂, Elects trial tier i c w₁ w₂ l w w'
  | [], w, w', hRun => by cases (Prod.mk.inj hRun).1
  | (tier', is) :: rest, w, w', hRun => by
    obtain ⟨results, w₃, hTried, hRun⟩ := outcome_bind_eq_ok.mp hRun
    obtain ⟨_, _, hEmit, hRun⟩ := outcome_bind_eq_ok.mp hRun
    obtain rfl := (Prod.mk.inj hEmit).2
    split at hRun
    · rename_i c' hOnly
      obtain ⟨hFound, rfl⟩ := Prod.mk.inj hRun
      obtain ⟨rfl, rfl⟩ := Prod.mk.inj (Option.some.inj (Except.ok.inj hFound))
      obtain ⟨before, i, after, failed, failed', w₁, w₂, rfl, hBefore, hTrial, hAfter, hFailed⟩ :=
        exists_trial_of_mapM hTried hOnly
      rw [hOnly]
      exact ⟨i, w₁, w₂, .here hBefore hTrial hAfter hFailed⟩
    · -- this tier has none or several, and the next one is asked
      rename_i hNot
      obtain ⟨i, w₁, w₂, hElects⟩ := elects_of_firstUnique hRun
      refine ⟨i, w₁, w₂, .later hTried (fun hOne => ?_) hElects⟩
      obtain ⟨c', hc'⟩ := List.length_eq_one_iff.mp hOne
      exact hNot c' hc'

variable {i : Instance} {l : List (Tier × List Instance)} {w w₁ w₂ w' : World}

/-- The trial that counts was made. -/
theorem Elects.tried (h : Elects trial tier i c w₁ w₂ l w w') :
    outcome (trial tier i) w₁ = (.ok (some c), w₂) := by
  induction h with
  | here _ hTrial _ _ => exact hTrial
  | later _ _ _ ih => exact ih

/-- What is chosen is an instance of its tier. -/
theorem Elects.mem (h : Elects trial tier i c w₁ w₂ l w w') : ∃ is, (tier, is) ∈ l ∧ i ∈ is := by
  induction h with
  | here => exact ⟨_, List.mem_cons_self, by simp⟩
  | later _ _ _ ih =>
    obtain ⟨is, hMem, hi⟩ := ih
    exact ⟨is, List.mem_cons_of_mem _ hMem, hi⟩

/-- All trials before the one that counts make the arena grow. -/
theorem Elects.grown (h : Elects trial tier i c w₁ w₂ l w w')
    (hTrial : ∀ {tier i v result v'}, outcome (trial tier i) v = (result, v') →
      v.arena.Grown v'.arena) : w.arena.Grown w₁.arena := by
  -- the trials of a tier, one after the other
  have hTrials : ∀ (tier : Tier) (is : List Instance) {results : List (Option Candidate)}
      {v v' : World}, outcome (is.mapM (trial tier)) v = (.ok results, v') →
      v.arena.Grown v'.arena := by
    intro tier is
    induction is with
    | nil =>
      rintro results v v' hRun
      obtain ⟨-, rfl⟩ := Prod.mk.inj hRun
      exact .refl
    | cons j is ih =>
      rintro results v v' hRun
      rw [List.mapM_cons] at hRun
      obtain ⟨found, v₁, hFirst, hRun⟩ := outcome_bind_eq_ok.mp hRun
      obtain ⟨others, v₂, hRest, hRun⟩ := outcome_bind_eq_ok.mp hRun
      obtain ⟨-, rfl⟩ := Prod.mk.inj hRun
      exact (hTrial hFirst).trans (ih hRest)
  induction h with
  | here hBefore _ _ _ => exact hTrials _ _ hBefore
  | later hTried _ _ ih => exact (hTrials _ _ hTried).trans ih

end Elects

-- ---------------------------------------------------------------------------
-- Trials
-- ---------------------------------------------------------------------------

/-- The instance is copied for the bound on a fork of the session: its constraints, which
give `cs`, and its types, which give `args`. In the world `start` what comes before the
bounds is worked off. -/
inductive Tries (program : Program) (settle : Session → SolveM Session) (b : Bound)
    (i : Instance) (s : Session) (w : World) (cs : List Constraint) (args : Substitution)
    (start : World) (settled : Session) (stop : World) : Prop
  | mk {copier copier' : Copier} {w₁ : World}
      (hUnfold : outcome ((Call.ofSource b.source i.node ∅).unfold program) w =
        (.ok (cs, copier), w₁))
      (hArgs : outcome (SolveM.copy copier (CopyM.substitution i.args)) w₁ =
        (.ok (args, copier'), start))
      (hSettle : outcome (settle { s.fork with agenda := s.agenda.extend cs }) start =
        (.ok settled, stop))

/-- The types `args` of the instance were compared with those of the bound on the fork
`branch`, which gave the state `u` without a conflict and the types `found`. The fork took the
place of `s`, and the types found were unified with those for inferred parameters. -/
structure Adopts (depth : Nat) (b : Bound) (tier : Tier) (i : Instance) (s branch : Session)
    (args : Substitution) (u : Unification) (found : Substitution) (u' : Unification)
    (s' : Session) : Prop where
  matched : branch.unification.matchArgs depth b i.node args.toList ∅ = .ok (u, found)
  fits    : u.hasError = false
  adopted : (s.unification.commit u).unifyAll depth (b.slots found.toList) = some u'
  closed  : s' = { branch with unification := u' }.close b (tier.outcome i)

variable {program : Program} {depth : Nat} {settle : Session → SolveM Session} {s s' : Session}
  {b : Bound} {tier : Tier} {i : Instance} {c : Candidate} {w w' : World}

/-- A trial that gives a candidate: what it was prepared with, and how the types compared. -/
theorem attempt_some
    (hRun : outcome (s.attempt depth program settle b tier i) w = (.ok (some c), w')) :
    ∃ branch args u found,
      branch.unification.matchArgs depth b i.node args.toList ∅ = .ok (u, found) ∧
      u.hasError = false ∧ c = ⟨i, { branch with unification := u }, found⟩ ∧
      (tier = .implied → branch = s.fork ∧ args = i.args) ∧
      (tier ≠ .implied → ∃ cs start stop,
        Tries program settle b i s w cs args start branch stop) := by
  rw [attempt_eq] at hRun
  obtain ⟨⟨branch, args⟩, w₁, hPrepare, hJudge⟩ := outcome_bind_eq_ok.mp hRun
  have hVerdict := ((logs_judge depth (P := fun _ => True) (fun _ _ => trivial) b i branch
    args).of_outcome hJudge).1
  obtain ⟨u, found, hMatch, hFits, hc⟩ := verdict_some hVerdict.symm
  refine ⟨branch, args, u, found, hMatch, hFits, hc, fun hTier => ?_, fun hTier => ?_⟩
  · -- an assumption is taken as it stands
    subst hTier
    obtain ⟨rfl, rfl⟩ := Prod.mk.inj (Except.ok.inj (Prod.mk.inj hPrepare).1)
    exact ⟨rfl, rfl⟩
  · -- instances of the other two tiers are copied: constraints first, then types
    have hCopied : outcome (s.fork.instantiate program settle b i) w =
        (.ok (branch, args), w₁) := by
      cases tier with
      | implied => exact absurd rfl hTier
      | ordinary => exact hPrepare
      | default => exact hPrepare
    obtain ⟨⟨cs, copier⟩, w₂, hUnfold, hCopied⟩ := outcome_bind_eq_ok.mp hCopied
    obtain ⟨⟨args', copier'⟩, w₃, hArgs, hCopied⟩ := outcome_bind_eq_ok.mp hCopied
    obtain ⟨settled, w₄, hSettle, hPure⟩ := outcome_bind_eq_ok.mp hCopied
    obtain ⟨rfl, rfl⟩ := Prod.mk.inj (Except.ok.inj (Prod.mk.inj hPure).1)
    exact ⟨cs, w₃, w₄, hUnfold, hArgs, hSettle⟩

/-- Going on with a candidate that was tried on `branch`. -/
theorem adopts_of_accept {branch : Session} {args found : Substitution} {u : Unification}
    (hMatch : branch.unification.matchArgs depth b i.node args.toList ∅ = .ok (u, found))
    (hFits : u.hasError = false)
    (hRun : outcome (s.accept depth b tier ⟨i, { branch with unification := u }, found⟩) w =
      (.ok s', w')) :
    ∃ u', Adopts depth b tier i s branch args u found u' s' := by
  have hEnd := ((logs_accept depth (P := fun _ => True) (fun _ _ => trivial) b tier _
    s).of_outcome hRun).1
  obtain ⟨u', hAdopted, hClosed⟩ := conclude_ok hEnd.symm
  exact ⟨u', hMatch, hFits, hAdopted, hClosed⟩

-- ---------------------------------------------------------------------------
-- Effects
-- ---------------------------------------------------------------------------

/-- A bound that asks for something: neither a trait's own declaration nor an assumption. -/
def Sought (b : Bound) : Prop :=
  (b.source == b.trait && !b.copied) = false ∧ b.isHypothesis = false

/-- The trials of instances for a bound. -/
abbrev trials (program : Program) (depth : Nat) (settle : Session → SolveM Session) (b : Bound)
    (s : Session) (tier : Tier) (i : Instance) : SolveM (Option Candidate) :=
  s.attempt depth program settle b tier i

/-- The constraint was worked off and nothing joined the agenda or left it. -/
inductive Keeps (program : Program) (depth : Nat) (settle : Session → SolveM Session)
    (s : Session) (c : Constraint) (w : World) (s' : Session) : Prop
  | ascribed {a : Ascription} {u : Unification} (hCore : c = .ascribe a ∨ c = .fallback a)
      (hState : s.unification.ascribe depth a = some u) (hEq : s' = { s with unification := u })
  /-- A bound that asks for nothing. -/
  | skipped {b : Bound} (hCore : c = .require b) (hNot : ¬ Sought b) (hEq : s' = s)
  /-- No tier has exactly one candidate. -/
  | unresolved {b : Bound} {w' : World} (hCore : c = .require b) (hSought : Sought b)
      (hNone : outcome (firstUnique (s.trials program depth settle b) (s.tiers program b))
        (w.seeking b) = (.ok none, w'))
      (hEq : s' = s.close b (some .unresolved))
  /-- An assumption settles the bound. It is taken as it stands. -/
  | assumed {b : Bound} {i : Instance} {x : Candidate} {u u' : Unification} {found : Substitution}
      {w₁ w₂ w' : World} (hCore : c = .require b) (hSought : Sought b)
      (hElects : Elects (s.trials program depth settle b) .implied i x w₁ w₂ (s.tiers program b)
        (w.seeking b) w')
      (hAdopts : Adopts depth b .implied i s s.fork i.args u found u' s')

/-- The copies `cs` made for a call join the agenda. -/
inductive Calls (program : Program) (s : Session) (c : Constraint) (w : World)
    (cs : List Constraint) (s' : Session) (w' : World) : Prop
  | mk {k : Call} {copier : Copier} (hCore : c = .call k)
      (hUnfold : outcome (k.unfold program) w = (.ok (cs, copier), w'))
      (hEq : s' = { s with agenda := s.agenda.extend cs })

/-- The fork of a candidate takes the place of the session: the copies `cs` made for the
instance that was chosen had joined its agenda, and from the world `start` to the world `stop`
what comes before bounds was worked off on it, which gave `settled`. -/
inductive Accepts (program : Program) (depth : Nat) (settle : Session → SolveM Session)
    (s : Session) (c : Constraint) (w : World) (cs : List Constraint) (start : World)
    (settled : Session) (stop : World) (s' : Session) : Prop
  | mk {b : Bound} {tier : Tier} {i : Instance} {x : Candidate} {args found : Substitution}
      {u u' : Unification} {w₁ w₂ w' : World} (hCore : c = .require b) (hSought : Sought b)
      (hTier : tier ≠ .implied)
      (hElects : Elects (s.trials program depth settle b) tier i x w₁ w₂ (s.tiers program b)
        (w.seeking b) w')
      (hTries : Tries program settle b i s w₁ cs args start settled stop)
      (hAdopts : Adopts depth b tier i s settled args u found u' s')

/-- What working off a constraint in a world does to a session. -/
inductive Effect (program : Program) (depth : Nat) (settle : Session → SolveM Session)
    (s : Session) (c : Constraint) (w : World) (s' : Session) (w' : World) : Prop
  | kept (hKeeps : Keeps program depth settle s c w s')
  | called {cs : List Constraint} (hCalls : Calls program s c w cs s' w')
  | accepted {cs : List Constraint} {start stop : World} {settled : Session}
      (hAccepts : Accepts program depth settle s c w cs start settled stop s')

/-- Going on with a candidate leaves the agenda as its fork has it. -/
theorem Adopts.agenda_eq {branch : Session} {args found : Substitution} {u u' : Unification}
    (h : Adopts depth b tier i s branch args u found u' s') : s'.agenda = branch.agenda := by
  rw [h.closed]
  rfl

theorem Keeps.agenda_eq {k : Constraint} (h : Keeps program depth settle s k w s') :
    s'.agenda = s.agenda := by
  cases h with
  | ascribed _ _ hEq | skipped _ _ hEq | unresolved _ _ _ hEq =>
    subst hEq
    rfl
  | assumed _ _ _ hAdopts => exact hAdopts.agenda_eq

theorem Accepts.agenda_eq {k : Constraint} {cs : List Constraint} {start stop : World}
    {settled : Session} (h : Accepts program depth settle s k w cs start settled stop s') :
    s'.agenda = settled.agenda := by
  obtain ⟨-, -, -, -, -, hAdopts⟩ := h
  exact hAdopts.agenda_eq

/-- The search for an instance: without a winner the bound is recorded as unresolved, and a
winner was tried as an assumption or by copying it. -/
theorem seek_effect (hSought : Sought b) {w₀ : World}
    (hRun : outcome (s.seek depth program settle b) { w with log := .enter (.bound b.source) ::
      w.log } = (.ok s', w₀)) : Effect program depth settle s (.require b) w s' w' := by
  obtain ⟨_, _, hEmit, hRun⟩ := outcome_bind_eq_ok.mp hRun
  obtain rfl := (Prod.mk.inj hEmit).2
  obtain ⟨result, w₁, hSearch, hRun⟩ := outcome_bind_eq_ok.mp hRun
  cases result with
  | none =>
    obtain ⟨_, _, -, hPure⟩ := outcome_bind_eq_ok.mp hRun
    exact .kept (.unresolved rfl hSought hSearch (Except.ok.inj (Prod.mk.inj hPure).1).symm)
  | some winner =>
    obtain ⟨tier, x⟩ := winner
    obtain ⟨i, w₂, w₃, hElects⟩ := elects_of_firstUnique hSearch
    obtain ⟨branch, args, u, found, hMatch, hFits, rfl, hAssumed, hCopied⟩ :=
      attempt_some hElects.tried
    obtain ⟨u', hAdopts⟩ := adopts_of_accept hMatch hFits hRun
    by_cases hTier : tier = .implied
    · subst hTier
      obtain ⟨rfl, rfl⟩ := hAssumed rfl
      exact .kept (.assumed rfl hSought hElects hAdopts)
    · obtain ⟨cs, start, stop, hTries⟩ := hCopied hTier
      exact .accepted (.mk rfl hSought hTier hElects hTries hAdopts)

/-- Bounds that ask for nothing are skipped, all others are sought. -/
theorem resolve_effect (hRun : outcome (s.resolve depth program settle b) w = (.ok s', w')) :
    Effect program depth settle s (.require b) w s' w' := by
  obtain ⟨_, _, hEnter, hRun⟩ := outcome_bind_eq_ok.mp hRun
  obtain rfl := (Prod.mk.inj hEnter).2
  obtain ⟨s₁, w₁, hWork, hLeave⟩ := outcome_bind_eq_ok.mp hRun
  obtain ⟨_, _, -, hPure⟩ := outcome_bind_eq_ok.mp hLeave
  obtain rfl : s₁ = s' := Except.ok.inj (Prod.mk.inj hPure).1
  split at hWork
  · -- a trait declares its own bound
    rename_i hOwn
    obtain ⟨_, _, -, hSame⟩ := outcome_bind_eq_ok.mp hWork
    refine .kept (.skipped rfl (fun hSought => ?_) (Except.ok.inj (Prod.mk.inj hSame).1).symm)
    rw [hSought.1] at hOwn
    cases hOwn
  · rename_i hOwn
    split at hWork
    · rename_i hHypothesis
      obtain ⟨_, _, -, hSame⟩ := outcome_bind_eq_ok.mp hWork
      refine .kept (.skipped rfl (fun hSought => ?_) (Except.ok.inj (Prod.mk.inj hSame).1).symm)
      rw [hSought.2] at hHypothesis
      cases hHypothesis
    · rename_i hHypothesis
      exact seek_effect ⟨Bool.eq_false_iff.mpr hOwn, Bool.eq_false_iff.mpr hHypothesis⟩ hWork

/-- Fallbacks are ascriptions whose turn comes later. -/
theorem ascribe_effect {a : Ascription} {c : Constraint} (hCore : c = .ascribe a ∨ c = .fallback a)
    (hRun : outcome (s.ascribe depth a) w = (.ok s', w')) :
    Effect program depth settle s c w s' w' := by
  have hEnd := ((logs_ascribe depth (P := fun _ => True) (fun _ _ => trivial) (a := a) trivial
    s).of_outcome hRun).1
  obtain ⟨u, hState, hEq⟩ := unification_of_withState hEnd.symm
  exact .kept (.ascribed hCore hState hEq)

/-- **What working off a constraint can do.** -/
theorem work_effect : ∀ {c : Constraint},
    outcome (s.work depth program settle c) w = (.ok s', w') →
    Effect program depth settle s c.core w s' w'
  | .ascribe _, hRun => ascribe_effect (.inl rfl) hRun
  | .fallback _, hRun => ascribe_effect (.inr rfl) hRun
  | .require _, hRun => resolve_effect hRun
  | .scoped c, hRun => work_effect (c := c) hRun
  | .call k, hRun => by
    obtain ⟨⟨cs, copier⟩, w₁, hUnfold, hPure⟩ := outcome_bind_eq_ok.mp hRun
    obtain ⟨hEq, rfl⟩ := Prod.mk.inj hPure
    exact .called (.mk rfl hUnfold (Except.ok.inj hEq).symm)

-- ---------------------------------------------------------------------------
-- Turns
-- ---------------------------------------------------------------------------

/-- Works off a constraint that has left the agenda. -/
def turn (program : Program) (depth : Nat) (settle : Session → SolveM Session) (c : Constraint)
    (s : Session) : SolveM Session := do
  SolveM.emit (.run c.stage s.agenda.size)
  s.work depth program settle c

variable {limit : Option Stage} {k : Constraint} {agenda : Agenda}

theorem runBefore_done (hNone : s.agenda.popBefore limit = none) (steps : Nat) :
    runBefore program depth limit (steps + 1) s = pure s := by
  rw [runBefore, hNone]

/-- A run is a turn and then a run with one step less. So are the runs of its trials. -/
theorem runBefore_turn (hPop : s.agenda.popBefore limit = some (k, agenda)) (steps : Nat) :
    runBefore program depth limit (steps + 1) s =
      turn program depth (runBefore program depth (some .bound) steps) k { s with agenda } >>=
        runBefore program depth limit steps := by
  rw [runBefore, hPop]
  simp only [turn, bind_assoc]

/-- **What a turn can do.** -/
theorem turn_effect (hRun : outcome (turn program depth settle k s) w = (.ok s', w')) :
    Effect program depth settle s k.core (w.noting (.run k.stage s.agenda.size)) s' w' := by
  obtain ⟨_, _, hEmit, hWork⟩ := outcome_bind_eq_ok.mp hRun
  obtain rfl := (Prod.mk.inj hEmit).2
  exact work_effect hWork

/-- Whether or not a turn ends, the arena has only grown. -/
theorem grown_turn {steps : Nat} {result : Except Halt Session}
    (hRun : outcome (turn program depth (runBefore program depth (some .bound) steps) k s) w =
      (result, w')) : w.arena.Grown w'.arena := by
  have hWork : outcome (s.work depth program (runBefore program depth (some .bound) steps) k)
      (w.noting (.run k.stage s.agenda.size)) = (result, w') :=
    (outcome_bind_ok rfl).symm.trans hRun
  have hGrown : (w.noting (.run k.stage s.agenda.size)).arena.Grown w'.arena := grown_work hWork
  exact hGrown

-- ---------------------------------------------------------------------------
-- Runs
-- ---------------------------------------------------------------------------

/-- From a session of which `P` holds, in an arena that has grown from `a`, the step leads to
sessions of which `P` holds and to which `R` relates it. -/
def Leads (a : Arena) (P : Session → Prop) (R : Session → Session → Prop)
    (f : Session → SolveM Session) : Prop :=
  ∀ ⦃s s' : Session⦄ ⦃w w' : World⦄, P s → a.Grown w.arena → outcome (f s) w = (.ok s', w') →
    P s' ∧ R s s'

/-- The fork that is accepted was worked off in an arena that had grown. -/
theorem Accepts.grown {steps : Nat} {cs : List Constraint} {start stop : World} {settled : Session}
    {c : Constraint} (h : Accepts program depth (runBefore program depth (some .bound) steps) s c w
      cs start settled stop s') : w.arena.Grown start.arena := by
  obtain ⟨-, -, -, hElects, ⟨hUnfold, hArgs, -⟩, -⟩ := h
  have hBefore : w.arena.Grown _ := hElects.grown fun hRun => grown_attempt hRun
  exact (hBefore.trans (Call.grown_unfold hUnfold)).trans (SolveM.grown_copy_substitution hArgs)

/-- What holds of the fork that is accepted, if it holds of it when the copies have joined. -/
theorem Accepts.leads {a : Arena} {P : Session → Prop} {R : Session → Session → Prop} {steps : Nat}
    {cs : List Constraint} {start stop : World} {settled : Session} {c : Constraint}
    (h : Accepts program depth (runBefore program depth (some .bound) steps) s c w
      cs start settled stop s') (ha : a.Grown w.arena)
    (hSettle : Leads a P R (runBefore program depth (some .bound) steps))
    (hFork : P { s.fork with agenda := s.agenda.extend cs }) :
    P settled ∧ R { s.fork with agenda := s.agenda.extend cs } settled := by
  have hGrown := ha.trans h.grown
  obtain ⟨-, -, -, -, ⟨-, -, hRun⟩, -⟩ := h
  exact hSettle hFork hGrown hRun

/-- **What every turn carries over**, of runs that stop at a limit of which `L` holds: the
property `P` of sessions, and a relation `R` of a session to later ones. -/
structure Carries (program : Program) (depth : Nat) (a : Arena) (L : Option Stage → Prop)
    (P : Session → Prop) (R : Session → Session → Prop) : Prop where
  /-- Trials stop at the bounds. -/
  bound : L (some .bound)
  refl  : ∀ {s : Session}, P s → R s s
  trans : ∀ {s s' s'' : Session}, R s s' → R s' s'' → R s s''
  turn  : ∀ {steps : Nat} {limit : Option Stage} {s s' : Session} {c : Constraint}
    {agenda : Agenda} {w w' : World}, L limit →
    Leads a P R (runBefore program depth (some .bound) steps) → P s → a.Grown w.arena →
    s.agenda.popBefore limit = some (c, agenda) →
    Effect program depth (runBefore program depth (some .bound) steps) { s with agenda } c.core w
      s' w' → P s' ∧ R s s'

/-- **What every turn carries over, every run does.** -/
theorem Carries.runBefore {a : Arena} {L : Option Stage → Prop} {P : Session → Prop}
    {R : Session → Session → Prop} (h : Carries program depth a L P R) (steps : Nat)
    {limit : Option Stage} (hLimit : L limit) :
    Leads a P R (runBefore program depth limit steps) := by
  -- a trial has fewer steps left than the run that makes it, so `ih` covers both
  induction steps generalizing limit with
  | zero =>
    intro s s' w w' _ _ hRun
    cases (Prod.mk.inj hRun).1
  | succ steps ih =>
    intro s s'' w w'' hs ha hRun
    cases hPop : s.agenda.popBefore limit with
    | none =>
      rw [runBefore_done hPop] at hRun
      obtain rfl : s = s'' := Except.ok.inj (Prod.mk.inj hRun).1
      exact ⟨hs, h.refl hs⟩
    | some next =>
      obtain ⟨c, agenda⟩ := next
      rw [runBefore_turn hPop] at hRun
      obtain ⟨s', w', hTurn, hRest⟩ := outcome_bind_eq_ok.mp hRun
      have hGrown := grown_turn hTurn
      obtain ⟨hs', hFirst⟩ := h.turn (w := w.noting _) hLimit (ih h.bound) hs ha hPop
        (turn_effect hTurn)
      obtain ⟨hs'', hLater⟩ := ih hLimit hs' (ha.trans hGrown) hRest
      exact ⟨hs'', h.trans hFirst hLater⟩

end Session

end TraitInference
