import Mathlib.Data.List.ReduceOption
import TraitInference.Proofs.Copying
import TraitInference.Session.Run

/-!
# TraitInference — solving under a renaming

Solving never looks at the number of a point, nor at an emission template: in
twin arenas, the session that starts from renamed data and works with the renamed
program ends as the first one does, renamed (`sim_runBefore`). Each function of a
session has its own simulation, put together from those of the functions it uses.
-/

namespace TraitInference

variable {φ : Renaming}

-- ---------------------------------------------------------------------------
-- Agendas
-- ---------------------------------------------------------------------------

namespace Queue

variable {α β : Type} {f : α → β}

/-- A queue with its elements mapped. -/
def map (f : α → β) (q : Queue α) : Queue β where
  front := q.front.map f
  back := q.back.map f
  size := q.size
  size_eq_lengths := by simp [q.size_eq_lengths]

theorem push_map (q : Queue α) (a : α) : (q.map f).push (f a) = (q.push a).map f :=
  rfl

/-- The head of a mapped queue, also when the back has to be turned over first. -/
theorem pop_map (q : Queue α) :
    (q.map f).pop = q.pop.map fun (a, rest) => (f a, rest.map f) := by
  obtain ⟨front, back, size, h⟩ := q
  cases front with
  | cons a front => rfl
  | nil =>
    simp only [map, pop, List.map_nil, ← List.map_reverse]
    cases back.reverse with
    | nil => rfl
    | cons a rest => simp [ofList]

end Queue

namespace Agenda

/-- An agenda of renamed constraints. -/
def rename (φ : Renaming) (q : Agenda) : Agenda where
  group := q.group.map (Constraint.rename φ)
  type := q.type.map (Constraint.rename φ)
  call := q.call.map (Constraint.rename φ)
  bound := q.bound.map (Constraint.rename φ)
  fallback := q.fallback.map (Constraint.rename φ)

/-- Lanes are renamed one by one. -/
theorem queue_rename (q : Agenda) (s : Stage) :
    (q.rename φ).queue s = (q.queue s).map (Constraint.rename φ) := by
  cases s <;> rfl

theorem setQueue_rename (q : Agenda) (s : Stage) (cs : Queue Constraint) :
    (q.rename φ).setQueue s (cs.map (Constraint.rename φ)) = (q.setQueue s cs).rename φ := by
  cases s <;> rfl

/-- A renamed constraint goes into the same lane. -/
theorem push_rename (q : Agenda) (c : Constraint) :
    (q.rename φ).push (c.rename φ) = (q.push c).rename φ := by
  rw [push, push, Constraint.stage_rename, queue_rename, Queue.push_map, setQueue_rename]

theorem extend_rename (q : Agenda) (cs : List Constraint) :
    (q.rename φ).extend (cs.map (Constraint.rename φ)) = (q.extend cs).rename φ := by
  unfold extend
  induction cs generalizing q with
  | nil => rfl
  | cons c cs ih => rw [List.map_cons, List.foldl_cons, List.foldl_cons, push_rename, ih]

/-- The next constraint of a renamed agenda is the renamed next constraint: stages do not
change. -/
theorem popBefore_rename (q : Agenda) (limit : Option Stage) :
    (q.rename φ).popBefore limit =
      (q.popBefore limit).map fun (c, rest) => (c.rename φ, rest.rename φ) := by
  rw [popBefore, popBefore, List.map_findSome?]
  congr 1
  funext s
  simp only [Function.comp_apply, queue_rename, Queue.pop_map]
  split
  · cases (q.queue s).pop with
    | none => rfl
    | some popped => simp [setQueue_rename]
  · rfl

end Agenda

-- ---------------------------------------------------------------------------
-- Programs and sessions
-- ---------------------------------------------------------------------------

/-- An instance is known by its node, which stays. -/
def Instance.rename (φ : Renaming) (i : Instance) : Instance :=
  { i with trait := φ.point i.trait, args := i.args.rename φ }

/-- The points of an instance; its node is not one of them. -/
structure Instance.Over (T D : Point → Prop) (i : Instance) : Prop where
  trait : T i.trait
  args  : i.args.Over T D

namespace Program

/-- A program with its constraints and instances renamed. A definition, like an
instance, is known by its point, which stays. -/
def rename (φ : Renaming) (program : Program) : Program where
  topLevel := program.topLevel.map (Constraint.rename φ)
  definitions := program.definitions.map fun _ => List.map (Constraint.rename φ)
  instances := program.instances.rename φ.point (List.map (Instance.rename φ))

/-- The constraints of a definition, renamed. -/
theorem definition_rename (program : Program) (d : Point) :
    (program.rename φ).definition d = (program.definition d).map (Constraint.rename φ) := by
  simp only [definition, rename, Std.ExtTreeMap.getElem?_map]
  cases program.definitions[d]? with
  | none => rfl
  | some cs => rfl

/-- The instances of a renamed trait. -/
theorem instancesOf_rename (program : Program) (trait : Point) :
    (program.rename φ).instancesOf (φ.point trait) =
      (program.instancesOf trait).map (Instance.rename φ) := by
  simp only [instancesOf, rename, PointMap.getElem?_rename]
  cases program.instances[trait]? with
  | none => rfl
  | some is => rfl

/-- The points that occur in the constraints and instances of a program. -/
structure Over (T D : Point → Prop) (program : Program) : Prop where
  topLevel    : ∀ c ∈ program.topLevel, c.Over T D
  definitions : ∀ (d : Point) (cs : List Constraint), program.definitions[d]? = some cs →
    ∀ c ∈ cs, c.Over T D
  instances   : ∀ (trait : Point) (is : List Instance), program.instances[trait]? = some is →
    T trait ∧ ∀ i ∈ is, i.Over T D

/-- A program covers the constraints of its definitions. -/
theorem Over.definition {T D : Point → Prop} {program : Program} (h : program.Over T D) {d : Point}
    {c : Constraint} (hc : c ∈ program.definition d) : c.Over T D := by
  unfold Program.definition at hc
  cases hFound : program.definitions[d]? with
  | none => simp [hFound] at hc
  | some cs =>
    rw [hFound] at hc
    exact h.definitions d cs hFound c hc

/-- A program covers its instances. -/
theorem Over.instancesOf {T D : Point → Prop} {program : Program} (h : program.Over T D)
    {trait : Point} {i : Instance} (hi : i ∈ program.instancesOf trait) : i.Over T D := by
  unfold Program.instancesOf at hi
  cases hFound : program.instances[trait]? with
  | none => simp [hFound] at hi
  | some is =>
    rw [hFound] at hi
    exact (h.instances trait is hFound).2 i hi

theorem over_true (program : Program) : program.Over (fun _ => True) (fun _ => True) where
  topLevel c _ := c.over_true
  definitions _ _ _ c _ := c.over_true
  instances _ _ _ := ⟨trivial, fun _ _ => ⟨trivial, fun _ t _ => t.over_true⟩⟩

end Program

/-- What became of a bound, with the bound renamed; the chosen node stays. -/
def Resolution.rename (φ : Renaming) (r : Resolution) : Resolution :=
  { r with bound := r.bound.rename φ }

/-- A session with its points and templates renamed. -/
def Session.rename (φ : Renaming) (s : Session) : Session where
  unification := s.unification.rename φ
  agenda := s.agenda.rename φ
  implied := s.implied.map (Instance.rename φ)
  resolutions := s.resolutions.map (Resolution.rename φ)

/-- A candidate that fits, on the renamed fork. -/
def Candidate.rename (φ : Renaming) (c : Candidate) : Candidate where
  candidate := c.candidate.rename φ
  branch := c.branch.rename φ
  found := c.found.rename φ

-- ---------------------------------------------------------------------------
-- The world
-- ---------------------------------------------------------------------------

/-- Solving is compared in twin arenas; what is logged does not matter. -/
def Mirror.solving (M : Mirror φ) : Setting World where
  grows w w' := w.arena.Grown w'.arena
  grows_refl _ := .refl
  grows_trans := Relation.ReflTransGen.trans
  inside w := M.inside w.arena
  inside_of_grows := M.inside_of_grown
  twin w w' := M.twin w.arena w'.arena

variable (M : Mirror φ)

namespace SolveM

variable {α β : Type} {f : α → β}

/-- What only the log shows may differ. -/
theorem sim_log (l l' : World → List Trace.Entry) :
    Sim M.solving id (modify fun w => { w with log := l w } : SolveM PUnit)
      (modify fun w => { w with log := l' w }) where
  grows _ := .refl
  result _ _ := rfl
  twin h _ := h

theorem sim_emit (e e' : Trace.Event) : Sim M.solving id (emit e) (emit e') :=
  sim_log M _ _

/-- Spans may be named differently. -/
theorem sim_within {x : SolveM α} {x' : SolveM β} (sp sp' : Trace.Span)
    (hx : Sim M.solving f x x') : Sim M.solving f (within sp x) (within sp' x') := by
  refine (sim_log M _ _).bind fun _ => ?_
  refine hx.bind fun a => ?_
  exact (sim_log M _ _).map fun _ => rfl

/-- Copying as a step of solving. -/
theorem outcome_copy (x : CopyM α) (c : Copier) (w : World) :
    outcome (copy c x) w =
      ((match (outcome x ⟨c, w.arena⟩).1 with
        | .ok v => .ok (v, (outcome x ⟨c, w.arena⟩).2.copier)
        | .error e => .error (.fault e)),
        { w with arena := (outcome x ⟨c, w.arena⟩).2.arena }) := by
  rw [copy, outcome_bind_ok (outcome_get w)]
  rcases hRun : outcome x ⟨c, w.arena⟩ with ⟨e | v, s⟩
  · -- the arena is kept although copying has failed
    have hRun' : (ExceptT.run x).run ⟨c, w.arena⟩ = _ := hRun
    rw [hRun']
    rfl
  · have hRun' : (ExceptT.run x).run ⟨c, w.arena⟩ = _ := hRun
    rw [hRun']
    rfl

/-- Copying is simulated inside solving: twins of worlds are twins of copying. -/
theorem sim_copy {x : CopyM α} {x' : CopyM β} (hx : Sim M.copying f x x') (c : Copier) :
    Sim M.solving (Prod.map f (Copier.rename φ)) (copy c x) (copy (c.rename φ) x') := by
  have hTwin {w w' : World} (h : M.solving.twin w w') :
      M.copying.twin ⟨c, w.arena⟩ ⟨c.rename φ, w'.arena⟩ := ⟨rfl, h⟩
  constructor
  · intro w
    rw [outcome_copy]
    exact hx.grows ⟨c, w.arena⟩
  · intro w w' h hInside
    rw [outcome_copy] at hInside ⊢
    rw [outcome_copy]
    have hResult := hx.result (hTwin h) hInside
    -- the counterparts that were chosen come back renamed
    have hCopier := (hx.twin (hTwin h) hInside).1
    simp only [hResult, hCopier]
    cases (outcome x ⟨c, w.arena⟩).1 with
    | error e => rfl
    | ok v => rfl
  · intro w w' h hInside
    rw [outcome_copy] at hInside ⊢
    rw [outcome_copy]
    exact (hx.twin (hTwin h) hInside).2

end SolveM

-- ---------------------------------------------------------------------------
-- Unifications, ascriptions and calls
-- ---------------------------------------------------------------------------

namespace Session

variable {program : Program} (depth : Nat)

theorem sim_notes (notes : List Note) :
    Sim M.solving id (notes.forM fun n => SolveM.emit (.noted n))
      ((notes.map (Note.rename φ)).forM fun n => SolveM.emit (.noted n)) := by
  induction notes with
  | nil => exact .pure PUnit.unit
  | cons n notes ih => exact (SolveM.sim_emit M _ _).bind fun _ => ih

/-- A unification ends with renamed notes and a renamed state, or is too deep on both sides.
-/
theorem sim_unify (left right : Ty) (s : Session) :
    Sim M.solving (rename φ) (s.unify depth left right)
      ((s.rename φ).unify depth (left.rename φ) (right.rename φ)) := by
  have hUnify : (s.rename φ).unification.unify depth (left.rename φ) (right.rename φ) = _ :=
    Unification.unify_rename s.unification depth left right
  unfold Session.unify
  rw [hUnify]
  refine SolveM.sim_within M _ _ ?_
  -- depth is used up on both sides at once
  cases s.unification.unify depth left right with
  | none => exact .throw _
  | some result => exact (sim_notes M result.1).map fun _ => rfl

/-- A default counts if the class is open, on both sides. -/
theorem sim_ascribeDefault (node : Point) (type : Ty) (s : Session) :
    Sim M.solving (rename φ) (s.ascribeDefault depth node type)
      ((s.rename φ).ascribeDefault depth (φ.point node) (type.rename φ)) := by
  have hOpen : (s.rename φ).unification.isOpen (φ.point node) = _ :=
    Unification.isOpen_rename s.unification node
  unfold ascribeDefault
  rw [hOpen]
  rcases s.unification.isOpen node with ⟨_ | _, v⟩
  · exact (SolveM.sim_emit M _ _).map fun _ => rfl
  · exact sim_unify M depth (.point node) type { s with unification := v }

theorem sim_ascribe (a : Ascription) (s : Session) :
    Sim M.solving (rename φ) (s.ascribe depth a) ((s.rename φ).ascribe depth (a.rename φ)) := by
  have hCopies : (a.rename φ).onlyCopies = a.onlyCopies := rfl
  have hCopied : (a.rename φ).copied = a.copied := rfl
  have hDefault : (a.rename φ).isDefault = a.isDefault := rfl
  unfold ascribe
  rw [hCopies, hCopied, hDefault]
  split
  · exact .pure s
  · refine (SolveM.sim_emit M _ _).bind fun _ => ?_
    split
    · exact sim_ascribeDefault M depth a.node a.type s
    · exact sim_unify M depth (.point a.node) a.type s

/-- The constraints of a call are copied in corresponding arenas. -/
theorem sim_unfold (hOver : program.Over M.template M.template) (c : Call) :
    Sim M.solving (Prod.map (List.map (Constraint.rename φ)) (Copier.rename φ))
      (c.unfold program) ((c.rename φ).unfold (program.rename φ)) := by
  unfold Call.unfold
  refine SolveM.sim_within M _ _ ?_
  refine (SolveM.sim_emit M _ _).bind fun _ => ?_
  have hCopies := CopyM.sim_constraints M (program.definition c.definition)
    (fun d hd => hOver.definition hd)
  rw [← Program.definition_rename] at hCopies
  exact SolveM.sim_copy M hCopies (.ofCall c)

/-- A session to whose agenda constraints were added. -/
theorem rename_extend (s : Session) (cs : List Constraint) :
    rename φ { s with agenda := s.agenda.extend cs } =
      { s.rename φ with agenda := (s.rename φ).agenda.extend (cs.map (Constraint.rename φ)) } := by
  simp only [rename, Agenda.extend_rename]

/-- The copied constraints go to the agenda. -/
theorem sim_call (hOver : program.Over M.template M.template) (c : Call) (s : Session) :
    Sim M.solving (rename φ) (s.call program c)
      ((s.rename φ).call (program.rename φ) (c.rename φ)) := by
  refine (sim_unfold M hOver c).map fun (cs, copier) => ?_
  exact (rename_extend s cs).symm

-- ---------------------------------------------------------------------------
-- Trying an instance
-- ---------------------------------------------------------------------------

/-- The session and the substitution that matching works on, renamed. -/
def renameMatch (φ : Renaming) : Session × Substitution → Session × Substitution :=
  Prod.map (rename φ) (Substitution.rename φ)

/-- Supplied parameters are unified and inferred ones collected, for the same parameters on
both sides. -/
theorem sim_matchArgs (b : Bound) (node : Point) (l : List (Parameter × Ty)) (s : Session)
    (found : Substitution) :
    Sim M.solving (renameMatch φ) (matchArgs depth b node l s found)
      (matchArgs depth (b.rename φ) node (l.map fun (q, t) => (q, t.rename φ)) (s.rename φ)
        (found.rename φ)) := by
  induction l generalizing s found with
  | nil => exact .pure (s, found)
  | cons x l ih =>
    obtain ⟨q, t⟩ := x
    have hSupplied : (b.rename φ).args.supplied[q]? =
        b.args.supplied[q]?.map (Ty.rename φ) := by
      rw [Bound.rename, Substitution.supplied_rename, Substitution.getElem?_rename]
    have hInferred : (b.rename φ).args.inferred.contains q = b.args.inferred.contains q := by
      rw [Bound.rename, Substitution.inferred_rename, Substitution.contains_rename]
    rw [List.map_cons, matchArgs, matchArgs, hSupplied]
    cases b.args.supplied[q]? with
    | some expected => exact (sim_unify M depth expected t s).bind fun s => ih s found
    | none =>
      simp only [Option.map_none, hInferred]
      split
      · rw [← Substitution.rename_insert]
        exact ih s (found.insert q t)
      · -- a parameter that the bound does not have: the same fault
        exact .throw _

variable {settle settle' : Session → SolveM Session}

/-- Twins copy an instance for a bound, if its types are templates. -/
theorem sim_instantiate (hOver : program.Over M.template M.template)
    (hSettle : ∀ s, Sim M.solving (rename φ) (settle s) (settle' (s.rename φ)))
    (b : Bound) {i : Instance} (hInstance : i.Over M.template M.template) (s : Session) :
    Sim M.solving (renameMatch φ) (s.instantiate program settle b i)
      ((s.rename φ).instantiate (program.rename φ) settle' (b.rename φ) (i.rename φ)) := by
  have hCall : Call.ofSource (b.rename φ).source (i.rename φ).node ∅ =
      (Call.ofSource b.source i.node ∅).rename φ := by
    rw [← Call.ofSource_rename, Substitution.rename_empty]
    rfl
  unfold instantiate
  rw [hCall]
  refine (sim_unfold M hOver _).bind ?_
  rintro ⟨cs, copier⟩
  refine (SolveM.sim_copy M (CopyM.sim_substitution M hInstance.args) copier).bind ?_
  rintro ⟨args, _⟩
  have hSettled := hSettle { s with agenda := s.agenda.extend cs }
  rw [rename_extend] at hSettled
  exact hSettled.map fun _ => rfl

/-- What is assumed is not copied, so nothing is asked of its types. -/
theorem sim_prepare (hOver : program.Over M.template M.template)
    (hSettle : ∀ s, Sim M.solving (rename φ) (settle s) (settle' (s.rename φ)))
    (b : Bound) {tier : Tier} {i : Instance}
    (hInstance : tier ≠ .implied → i.Over M.template M.template)
    (s : Session) :
    Sim M.solving (renameMatch φ) (s.prepare program settle b tier i)
      ((s.rename φ).prepare (program.rename φ) settle' (b.rename φ) tier (i.rename φ)) := by
  cases tier with
  | implied => exact .pure (s.fork, i.args)
  | ordinary => exact sim_instantiate M hOver hSettle b (hInstance (by simp)) s.fork
  | default => exact sim_instantiate M hOver hSettle b (hInstance (by simp)) s.fork

/-- A candidate fits on both sides or on neither. -/
theorem sim_attempt (hOver : program.Over M.template M.template)
    (hSettle : ∀ s, Sim M.solving (rename φ) (settle s) (settle' (s.rename φ)))
    (b : Bound) {tier : Tier} {i : Instance}
    (hInstance : tier ≠ .implied → i.Over M.template M.template)
    (s : Session) :
    Sim M.solving (Option.map (Candidate.rename φ)) (s.attempt depth program settle b tier i)
      ((s.rename φ).attempt depth (program.rename φ) settle' (b.rename φ) tier (i.rename φ)) := by
  refine (sim_prepare M hOver hSettle b hInstance s).bind fun (branch, args) => ?_
  have hMatch := sim_matchArgs M depth b i.node args.toList branch ∅
  rw [← Substitution.toList_rename, Substitution.rename_empty] at hMatch
  refine hMatch.bind fun (branch, found) => ?_
  -- errors are told by a flag, which is not renamed
  by_cases hError : branch.unification.hasError = true
  · have hError' : (branch.rename φ).unification.hasError = true := hError
    simp only [renameMatch, Prod.map, hError, hError', if_true]
    exact (SolveM.sim_emit M _ _).map fun _ => rfl
  · have hError' : ¬ (branch.rename φ).unification.hasError = true := hError
    simp only [renameMatch, Prod.map, hError, hError']
    exact Sim.pure (some (Candidate.mk i branch found))

-- ---------------------------------------------------------------------------
-- Bounds
-- ---------------------------------------------------------------------------

/-- The same tier decides, with corresponding candidates. -/
theorem sim_firstUnique {trial trial' : Tier → Instance → SolveM (Option Candidate)}
    (tiers : List (Tier × List Instance))
    (hTrial : ∀ x ∈ tiers, ∀ i ∈ x.2,
      Sim M.solving (Option.map (Candidate.rename φ)) (trial x.1 i) (trial' x.1 (i.rename φ))) :
    Sim M.solving (Option.map (Prod.map id (Candidate.rename φ))) (firstUnique trial tiers)
      (firstUnique trial' (tiers.map (Prod.map id (List.map (Instance.rename φ))))) := by
  induction tiers with
  | nil => exact .pure none
  | cons x rest ih =>
    obtain ⟨tier, instances⟩ := x
    have hAll := Sim.mapM (S := M.solving) instances (hTrial (tier, instances) List.mem_cons_self)
    refine hAll.bind fun results => ?_
    refine (SolveM.sim_emit M _ _).bind fun _ => ?_
    have hRest := ih fun y hy => hTrial y (List.mem_cons_of_mem _ hy)
    rw [List.reduceOption_map]
    -- exactly one fits, or the next tier is tried
    match results.reduceOption with
    | [] => exact hRest
    | [c] => exact .pure (some (tier, c))
    | _ :: _ :: _ => exact hRest

/-- The instances to try for a renamed bound, in the same order. -/
theorem tiers_rename (b : Bound) (s : Session) :
    (s.rename φ).tiers (program.rename φ) (b.rename φ) =
      (s.tiers program b).map (Prod.map id (List.map (Instance.rename φ))) := by
  have hTrait : (b.rename φ).trait = φ.point b.trait := rfl
  have hImplied : (fun i : Instance => i.trait == φ.point b.trait) ∘ Instance.rename φ =
      fun i : Instance => i.trait == b.trait := by
    funext i
    simp [Instance.rename]
  simp only [tiers, hTrait, Program.instancesOf_rename, rename, List.map_cons, List.map_nil,
    Prod.map, id, List.filter_map, hImplied]
  rfl

/-- Every candidate but the assumed ones is an instance of the program. -/
theorem mem_instancesOf_of_mem_tiers {b : Bound} {s : Session} {x : Tier × List Instance}
    (hx : x ∈ s.tiers program b) {i : Instance} (hi : i ∈ x.2) (hTier : x.1 ≠ .implied) :
    i ∈ program.instancesOf b.trait := by
  simp only [tiers, List.mem_cons, List.not_mem_nil, or_false] at hx
  rcases hx with rfl | rfl | rfl
  · exact absurd rfl hTier
  · exact List.mem_of_mem_filter hi
  · exact List.mem_of_mem_filter hi

/-- The inferred types are unified one after the other. -/
theorem sim_adopt (b : Bound) (l : List (Parameter × Ty)) (s : Session) :
    Sim M.solving (rename φ) (adopt depth b l s)
      (adopt depth (b.rename φ) (l.map fun (q, t) => (q, t.rename φ)) (s.rename φ)) := by
  induction l generalizing s with
  | nil => exact .pure s
  | cons x l ih =>
    obtain ⟨q, t⟩ := x
    have hInferred : (b.rename φ).args.inferred[q]? = b.args.inferred[q]?.map (Ty.rename φ) := by
      rw [Bound.rename, Substitution.inferred_rename, Substitution.getElem?_rename]
    rw [List.map_cons, adopt, adopt, hInferred]
    cases b.args.inferred[q]? with
    | none => exact ih s
    | some slot => exact (sim_unify M depth slot t s).bind fun s => ih s

theorem close_rename (b : Bound) (outcome : Option Outcome) (s : Session) :
    (s.rename φ).close (b.rename φ) outcome = (s.close b outcome).rename φ := by
  have hDefer : (s.rename φ).unification.defer (b.rename φ).args = _ :=
    Unification.defer_rename s.unification b.args
  unfold close
  rw [hDefer]
  cases outcome with
  | none => simp [rename]
  | some o => simp [rename, Resolution.rename]

/-- Twins go on with the forks of corresponding candidates. -/
theorem sim_accept (b : Bound) (tier : Tier) (c : Candidate) (s : Session) :
    Sim M.solving (rename φ) (s.accept depth b tier c)
      ((s.rename φ).accept depth (b.rename φ) tier (c.rename φ)) := by
  have hAdopt := sim_adopt M depth b c.found.toList (s.commit c.branch)
  rw [← Substitution.toList_rename] at hAdopt
  refine hAdopt.bind fun s => ?_
  refine (SolveM.sim_emit M _ _).map fun _ => ?_
  exact close_rename b _ s

/-- The same candidate is found and adopted, or none on either side. -/
theorem sim_seek (hOver : program.Over M.template M.template)
    (hSettle : ∀ s, Sim M.solving (rename φ) (settle s) (settle' (s.rename φ)))
    (b : Bound) (s : Session) :
    Sim M.solving (rename φ) (s.seek depth program settle b)
      ((s.rename φ).seek depth (program.rename φ) settle' (b.rename φ)) := by
  refine (SolveM.sim_emit M _ _).bind fun _ => ?_
  rw [tiers_rename]
  refine (sim_firstUnique M _ ?_).bind fun found => ?_
  · intro x hx i hi
    refine sim_attempt M depth hOver hSettle b ?_ s
    -- only instances of the program are copied
    intro hTier
    exact hOver.instancesOf (mem_instancesOf_of_mem_tiers hx hi hTier)
  · cases found with
    | none =>
      refine (SolveM.sim_emit M _ _).map fun _ => ?_
      exact close_rename b _ s
    | some winner => exact sim_accept M depth b winner.1 winner.2 s

/-- Whether a bound asks for anything at all is not a matter of names. -/
theorem sim_resolve (hOver : program.Over M.template M.template)
    (hSettle : ∀ s, Sim M.solving (rename φ) (settle s) (settle' (s.rename φ)))
    (b : Bound) (s : Session) :
    Sim M.solving (rename φ) (s.resolve depth program settle b)
      ((s.rename φ).resolve depth (program.rename φ) settle' (b.rename φ)) := by
  have hOwn : ((b.rename φ).source == (b.rename φ).trait) = (b.source == b.trait) := by
    simp [Bound.rename]
  have hCopied : (b.rename φ).copied = b.copied := rfl
  have hHypothesis : (b.rename φ).isHypothesis = b.isHypothesis := rfl
  unfold resolve
  rw [hOwn, hCopied, hHypothesis]
  refine SolveM.sim_within M _ _ ?_
  split
  · exact (SolveM.sim_emit M _ _).map fun _ => rfl
  · split
    · exact (SolveM.sim_emit M _ _).map fun _ => rfl
    · exact sim_seek M depth hOver hSettle b s

-- ---------------------------------------------------------------------------
-- Runs
-- ---------------------------------------------------------------------------

/-- Constraints of every kind. -/
theorem sim_work (hOver : program.Over M.template M.template)
    (hSettle : ∀ s, Sim M.solving (rename φ) (settle s) (settle' (s.rename φ))) :
    ∀ (c : Constraint) (s : Session),
      Sim M.solving (rename φ) (s.work depth program settle c)
        ((s.rename φ).work depth (program.rename φ) settle' (c.rename φ))
  | .ascribe a, s => sim_ascribe M depth a s
  | .fallback a, s => sim_ascribe M depth a s
  | .call c, s => sim_call M hOver c s
  | .require b, s => sim_resolve M depth hOver hSettle b s
  | .scoped c, s => sim_work hOver hSettle c s

/-- **Solving commutes with renaming**: the run of a renamed session with the
renamed program, in a twin arena, is the renamed run. -/
theorem sim_runBefore (hOver : program.Over M.template M.template) (steps : Nat) :
    ∀ (limit : Option Stage) (s : Session),
      Sim M.solving (rename φ) (runBefore program depth limit steps s)
        (runBefore (program.rename φ) depth limit steps (s.rename φ)) := by
  -- on the steps, for all limits at once: settling runs the session before the bounds
  induction steps with
  | zero =>
    intro limit s
    exact .throw _
  | succ steps ih =>
    intro limit s
    have hPop : (s.rename φ).agenda.popBefore limit = _ := Agenda.popBefore_rename s.agenda limit
    unfold runBefore
    rw [hPop]
    cases s.agenda.popBefore limit with
    | none => exact .pure s
    | some popped =>
      obtain ⟨c, agenda⟩ := popped
      refine (SolveM.sim_emit M _ _).bind fun _ => ?_
      have hWork := sim_work M depth hOver (ih (some .bound)) c { s with agenda }
      exact hWork.bind fun s => ih limit s

end Session

end TraitInference
