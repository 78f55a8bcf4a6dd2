import TraitInference.Proofs.Simulation
import TraitInference.Solve

/-!
# TraitInference — raising the limits

What is found within some limits is found within higher ones, in the same world and with
the same trace: no step of solving asks how much is left of a limit, it can only run out.
So whoever compares two solutions may assume that both were found within the same limits
(`Program.solve_extends`).
-/

namespace TraitInference

namespace SolveM

variable {α β : Type} {x x' : SolveM α}

/-- Whatever `x` gives, `x'` gives too, and leaves the same world. -/
def Extends (x x' : SolveM α) : Prop :=
  ∀ w v w', outcome x w = (.ok v, w') → outcome x' w = (.ok v, w')

theorem Extends.refl (x : SolveM α) : Extends x x :=
  fun _ _ _ => id

/-- What halts gives nothing, so anything extends it. -/
theorem Extends.throw (e : Halt) (x : SolveM α) : Extends (throw e) x := by
  intro w v w' hRun
  cases hRun

theorem Extends.bind {k k' : α → SolveM β} (hx : Extends x x') (hk : ∀ v, Extends (k v) (k' v)) :
    Extends (x >>= k) (x' >>= k') := by
  intro w v w'' hRun
  obtain ⟨a, w', hFirst, hSecond⟩ := outcome_bind_eq_ok.mp hRun
  exact outcome_bind_eq_ok.mpr ⟨a, w', hx w a w' hFirst, hk a w' v w'' hSecond⟩

/-- Spans do not depend on limits. -/
theorem Extends.within (hx : Extends x x') (sp : Trace.Span) :
    Extends (within sp x) (within sp x') :=
  (Extends.refl _).bind fun _ => hx.bind fun _ => .refl _

theorem Extends.mapM {k k' : α → SolveM β} (hk : ∀ v, Extends (k v) (k' v)) (l : List α) :
    Extends (l.mapM k) (l.mapM k') := by
  induction l with
  | nil => exact .refl _
  | cons a l ih =>
    rw [List.mapM_cons, List.mapM_cons]
    exact (hk a).bind fun _ => ih.bind fun _ => .refl _

end SolveM

open SolveM (Extends)

namespace Session

variable {program : Program} {depth depth' : Nat} {settle settle' : Session → SolveM Session}

-- ---------------------------------------------------------------------------
-- Deeper unifications
-- ---------------------------------------------------------------------------

/-- This is the only place where the depth counts. -/
theorem unify_extends (hDepth : depth ≤ depth') (left right : Ty) (s : Session) :
    Extends (s.unify depth left right) (s.unify depth' left right) := by
  refine Extends.within ?_ _
  cases hUnify : s.unification.unify depth left right with
  | none => exact .throw _ _
  | some result =>
    -- depth is fuel, and fuel that is enough gives the same result when there is more
    have hMore : s.unification.unify depth' left right = some result := by
      simp only [Unification.unify, Option.bind_eq_bind, Option.bind_eq_some_iff] at hUnify ⊢
      obtain ⟨found, hFound, hResult⟩ := hUnify
      exact ⟨found, Unification.unifyWithin_mono hDepth _ _ _ _ hFound, hResult⟩
    rw [hMore]
    exact .refl _

theorem ascribe_extends (hDepth : depth ≤ depth') (a : Ascription) (s : Session) :
    Extends (s.ascribe depth a) (s.ascribe depth' a) := by
  unfold ascribe
  split
  · exact .refl _
  · refine (Extends.refl _).bind fun _ => ?_
    split
    · unfold ascribeDefault
      split
      · exact unify_extends hDepth _ _ _
      · exact .refl _
    · exact unify_extends hDepth _ _ _

/-- The arguments of a candidate are compared one after the other. -/
theorem matchArgs_extends (hDepth : depth ≤ depth') (b : Bound) (node : Point)
    (l : List (Parameter × Ty)) (s : Session) (found : Substitution) :
    Extends (matchArgs depth b node l s found) (matchArgs depth' b node l s found) := by
  induction l generalizing s found with
  | nil => exact .refl _
  | cons x l ih =>
    obtain ⟨q, t⟩ := x
    rw [matchArgs, matchArgs]
    split
    · exact (unify_extends hDepth _ _ _).bind fun s => ih s found
    · split
      · exact ih s _
      · exact .refl _

/-- So are the arguments that the bound gets from the chosen candidate. -/
theorem adopt_extends (hDepth : depth ≤ depth') (b : Bound) (l : List (Parameter × Ty))
    (s : Session) : Extends (adopt depth b l s) (adopt depth' b l s) := by
  induction l generalizing s with
  | nil => exact .refl _
  | cons x l ih =>
    obtain ⟨q, t⟩ := x
    rw [adopt, adopt]
    split
    · exact (unify_extends hDepth _ _ _).bind ih
    · exact ih s

-- ---------------------------------------------------------------------------
-- More steps
-- ---------------------------------------------------------------------------

/-- A candidate is tried on a session that has settled first, so settling has to extend as
well. -/
theorem attempt_extends (hDepth : depth ≤ depth') (hSettle : ∀ s, Extends (settle s) (settle' s))
    (b : Bound) (tier : Tier) (i : Instance) (s : Session) :
    Extends (s.attempt depth program settle b tier i)
      (s.attempt depth' program settle' b tier i) := by
  have hPrepare : Extends (s.prepare program settle b tier i)
      (s.prepare program settle' b tier i) := by
    cases tier with
    | implied => exact .refl _
    | ordinary | default =>
      refine (Extends.refl _).bind fun _ => (Extends.refl _).bind fun _ => ?_
      exact (hSettle _).bind fun _ => .refl _
  refine hPrepare.bind fun _ => ?_
  exact (matchArgs_extends hDepth b i.node _ _ _).bind fun _ => .refl _

/-- Tiers are tried in the same order with the same results. -/
theorem firstUnique_extends {trial trial' : Tier → Instance → SolveM (Option Candidate)}
    (hTrial : ∀ tier i, Extends (trial tier i) (trial' tier i))
    (tiers : List (Tier × List Instance)) :
    Extends (firstUnique trial tiers) (firstUnique trial' tiers) := by
  induction tiers with
  | nil => exact .refl _
  | cons x rest ih =>
    obtain ⟨tier, instances⟩ := x
    rw [firstUnique, firstUnique]
    refine (Extends.mapM (hTrial tier) instances).bind fun results => ?_
    refine (Extends.refl _).bind fun _ => ?_
    split
    · exact .refl _
    · exact ih

/-- The same candidate is found and adopted. -/
theorem seek_extends (hDepth : depth ≤ depth') (hSettle : ∀ s, Extends (settle s) (settle' s))
    (b : Bound) (s : Session) :
    Extends (s.seek depth program settle b) (s.seek depth' program settle' b) := by
  refine (Extends.refl _).bind fun _ => ?_
  refine (firstUnique_extends (fun tier i => attempt_extends hDepth hSettle b tier i s) _).bind ?_
  intro found
  split
  · exact .refl _
  · exact (adopt_extends hDepth b _ _).bind fun _ => .refl _

/-- One constraint is worked off in the same way, whatever its kind. -/
theorem work_extends (hDepth : depth ≤ depth') (hSettle : ∀ s, Extends (settle s) (settle' s))
    (s : Session) : ∀ c : Constraint,
    Extends (s.work depth program settle c) (s.work depth' program settle' c)
  | .ascribe a | .fallback a => ascribe_extends hDepth a s
  | .call _ => .refl _
  | .require b => by
    refine Extends.within ?_ _
    split
    · -- a trait's own declaration asks for nothing; neither does, below, a hypothesis
      exact .refl _
    · split
      · exact .refl _
      · exact seek_extends hDepth hSettle b s
  | .scoped c => work_extends hDepth hSettle s c

/-- A run that comes to its end within some limits makes the same turns within higher ones. -/
theorem runBefore_extends (hDepth : depth ≤ depth') {steps steps' : Nat} (hSteps : steps ≤ steps')
    (limit : Option Stage) (s : Session) :
    Extends (runBefore program depth limit steps s) (runBefore program depth' limit steps' s) := by
  -- on the steps, for all limits of stages at once: settling a candidate runs the session
  -- before the bounds, with the steps that are left
  induction steps generalizing steps' limit s with
  | zero => exact .throw _ _
  | succ steps ih =>
    obtain ⟨more, rfl⟩ : ∃ more, steps' = more + 1 := ⟨steps' - 1, by omega⟩
    have hBelow : steps ≤ more := by omega
    rw [runBefore, runBefore]
    split
    · exact .refl _
    · refine (Extends.refl _).bind fun _ => ?_
      exact (work_extends hDepth (fun s => ih hBelow (some .bound) s) _ _).bind
        fun s => ih hBelow limit s

end Session

-- ---------------------------------------------------------------------------
-- Solving
-- ---------------------------------------------------------------------------

namespace Program

variable {limits limits' : Limits}

/-- Only the run of a session uses the limits; what is read off it does not. -/
theorem solveSession_extends (hSteps : limits.steps ≤ limits'.steps)
    (hDepth : limits.depth ≤ limits'.depth) (program : Program) (definition : Option Point)
    (implied : List Instance) (cs : List Constraint) (solution : Solution) :
    Extends (program.solveSession limits definition implied cs solution)
      (program.solveSession limits' definition implied cs solution) := by
  refine (Extends.refl _).bind fun _ => Extends.within ?_ _
  exact (Session.runBefore_extends hDepth hSteps none _).bind fun _ => .refl _

/-- **Raising the limits never changes a solution.** -/
theorem solve_extends (hSteps : limits.steps ≤ limits'.steps)
    (hDepth : limits.depth ≤ limits'.depth) (program : Program) :
    Extends (program.solve limits) (program.solve limits') := by
  have hDefinitions : ∀ (l : List (Point × List Constraint)) (solution : Solution),
      Extends (program.solveDefinitions limits l solution)
        (program.solveDefinitions limits' l solution) := by
    intro l
    induction l with
    | nil => exact fun _ => .refl _
    | cons x l ih =>
      intro solution
      obtain ⟨d, cs⟩ := x
      exact (solveSession_extends hSteps hDepth program (some d) _ cs solution).bind ih
  exact (hDefinitions _ _).bind fun solution =>
    solveSession_extends hSteps hDepth program none [] program.topLevel solution

end Program

end TraitInference
