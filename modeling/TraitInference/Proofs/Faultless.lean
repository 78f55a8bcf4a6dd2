import TraitInference.Proofs.Lookup
import TraitInference.Proofs.Safety
import TraitInference.Proofs.Termination

/-!
# TraitInference — well-formed programs are solved without faults

What the sessions of a well-formed program leave behind can be read: their groups can be
formed and pass their check (`Session.Proper.checkSession_eq`), the solution made of them
speaks of allocated points only (`Solution.Proper`), and so both the trace and the report
can be written.

Unification has one case that cannot come up: when it has looked up what is known of two
types that are not both points, it never holds two points. This is no matter of the program
or the state, so it is not a fault; it makes no difference what is done in that case
(`Unification.unifyWithinOr_eq`).

`Program.solve_faultless` puts this together.
-/

namespace TraitInference

variable {n m : Nat} {a : Arena}

-- ---------------------------------------------------------------------------
-- Traces
-- ---------------------------------------------------------------------------

/-- A bound can be printed if the points that it speaks of have names. -/
theorem Bound.exists_print {name : Point → Except Fault String}
    (hName : ∀ p : Point, p.index < n → ∃ text, name p = .ok text) {b : Bound}
    (hb : Below n b.mentions) : ∃ text, b.print name = .ok text := by
  obtain ⟨-, hTrait, hArgs⟩ := Bound.below_mentions.mp hb
  obtain ⟨head, hHead⟩ := hName b.trait hTrait
  obtain ⟨texts, hTexts⟩ := Ty.exists_writeAll hName .atom b.args.values
    (Substitution.below_mentions_values hArgs)
  rw [print, hHead, hTexts]
  exact ⟨_, rfl⟩

namespace Trace

/-- So can an event. -/
theorem Event.exists_words {name : Point → Except Fault String}
    (hName : ∀ p : Point, p.index < n → ∃ text, name p = .ok text) {e : Event}
    (he : Below n e.mentions) : ∃ words, e.words name = .ok words := by
  cases e with
  | ascribe node type =>
    obtain ⟨text, hText⟩ := Ty.exists_print hName he
    rw [words, hText]
    exact ⟨_, rfl⟩
  | seek b =>
    obtain ⟨text, hText⟩ := Bound.exists_print hName he
    rw [words, hText]
    exact ⟨_, rfl⟩
  | noted note => cases note <;> exact ⟨_, rfl⟩
  | _ => exact ⟨_, rfl⟩

/-- The entries are written one by one, each with the names that its points had when it was
made. -/
theorem exists_sentencesFrom (limit : Level) {l : List Entry}
    (h : ∀ e k, .event e k ∈ l → k ≤ a.size ∧ Below k e.mentions) (spans : List Span) :
    ∃ texts, sentencesFrom limit a spans l = .ok texts := by
  induction l generalizing spans with
  | nil => exact ⟨[], rfl⟩
  | cons entry rest ih =>
    have hRest := ih fun e k hEvent => h e k (List.mem_cons_of_mem entry hEvent)
    cases entry with
    | enter s => exact hRest (s :: spans)
    | leave =>
      obtain ⟨texts, hTexts⟩ := hRest spans.tail
      rw [sentencesFrom, hTexts]
      exact ⟨_, rfl⟩
    -- the event was made when the arena held `k` points, all of which are still there
    | event e k =>
      obtain ⟨hSize, hBelow⟩ := h e k List.mem_cons_self
      obtain ⟨words, hWords⟩ := e.exists_words
        (fun p hp => Arena.exists_sourceWithin hSize hp) hBelow
      obtain ⟨texts, hTexts⟩ := hRest spans
      rw [sentencesFrom, hWords, hTexts]
      split
      · exact ⟨_, rfl⟩
      · exact ⟨texts, rfl⟩

/-- **The trace can be written.** -/
theorem exists_lines (limit : Level) {log : List Entry}
    (h : ∀ e k, .event e k ∈ log → k ≤ a.size ∧ Below k e.mentions) :
    ∃ texts, lines limit a log = .ok texts := by
  obtain ⟨texts, hTexts⟩ := exists_sentencesFrom limit (l := log.reverse)
    (fun e k hEvent => h e k (List.mem_reverse.mp hEvent)) []
  rw [lines, hTexts]
  exact ⟨_, rfl⟩

end Trace

-- ---------------------------------------------------------------------------
-- Solutions
-- ---------------------------------------------------------------------------

/-- The points that an error is written with. -/
def SolveError.mentions : SolveError → List Point
  | .conflictingTypes p _ => [p]
  | .unresolvedBound p b => p :: b.mentions
  | .errorInstance p b node => p :: node :: b.mentions

/-- What can be reported of a solution speaks of the first `n` points only. -/
structure Solution.Proper (n : Nat) (s : Solution) : Prop where
  groups   : ∀ g ∈ s.groups.toList, g.Within n
  resolved : ∀ (p : Point) (xs : List ResolvedBound), s.resolved[p]? = some xs →
    p.index < n ∧ ∀ x ∈ xs, Below n x.bound.mentions ∧ x.node.index < n
  errors   : ∀ e ∈ s.errors, Below n e.mentions

namespace Solution

variable {s : Solution}

/-- What speaks of the first `n` points speaks of more of them. -/
theorem Proper.mono (h : s.Proper n) (hLe : n ≤ m) : s.Proper m where
  groups g hg := (h.groups g hg).mono hLe
  resolved p xs hFound := by
    obtain ⟨hp, hxs⟩ := h.resolved p xs hFound
    exact ⟨Nat.lt_of_lt_of_le hp hLe, fun x hx =>
      ⟨(hxs x hx).1.mono hLe, Nat.lt_of_lt_of_le (hxs x hx).2 hLe⟩⟩
  errors e he := (h.errors e he).mono hLe

theorem proper_empty : Proper n {} where
  groups g hg := by simp at hg
  resolved p xs hFound := by simp at hFound
  errors e he := absurd he List.not_mem_nil

/-- Of a group only its points get into an error, if its types are in conflict. -/
theorem Proper.addGroup (h : s.Proper n) {g : Group} (hg : g.Within n) :
    (s.addGroup g).Proper n where
  groups g' hg' := by
    rcases List.mem_append.mp (Array.toList_push ▸ hg') with hOld | hNew
    · exact h.groups g' hOld
    · exact List.mem_singleton.mp hNew ▸ hg
  resolved := h.resolved
  errors e he := by
    simp only [Solution.addGroup] at he
    split at he
    · rename_i p _ _ hNodes
      rcases List.mem_append.mp he with hOld | hNew
      · exact h.errors e hOld
      · obtain rfl := List.mem_singleton.mp hNew
        exact below_cons.mpr ⟨hg.nodes p (hNodes ▸ List.mem_cons_self), below_nil⟩
    · exact h.errors e he

/-- A bound is reported with the types it has in the end, and these are in order as well. -/
theorem Proper.addResolution (h : s.Proper n) {deferred : List Substitution}
    (hDeferred : ∀ args ∈ deferred, Below n args.mentions) {r : Resolution} {places : Nat}
    (hr : r.Proper n places) : (s.addResolution deferred r).Proper n := by
  obtain ⟨hSource, hTrait, hArgs⟩ := Bound.below_mentions.mp hr.bound
  -- a bound without an entry among the deferred ones keeps its own types
  have hKnown : Below n (deferred[r.deferred]?.getD r.bound.args).mentions := by
    cases hFound : deferred[r.deferred]? with
    | none => exact hArgs
    | some args => exact hDeferred args (List.mem_of_getElem? hFound)
  have hBound : Below n (Bound.mentions
      { r.bound with args := deferred[r.deferred]?.getD r.bound.args }) :=
    Bound.below_mentions.mpr ⟨hSource, hTrait, hKnown⟩
  unfold Solution.addResolution
  cases hOutcome : r.outcome with
  | unresolved =>
    refine ⟨h.groups, h.resolved, fun e he => ?_⟩
    rcases List.mem_append.mp he with hOld | hNew
    · exact h.errors e hOld
    · obtain rfl := List.mem_singleton.mp hNew
      exact below_cons.mpr ⟨hSource, hBound⟩
  | resolved node isError =>
    have hNode := hr.node node isError hOutcome
    refine ⟨h.groups, fun p xs hFound => ?_, fun e he => ?_⟩
    · -- the new entry is filed after those for the same source
      simp only [fileUnder, Std.ExtTreeMap.getElem?_alter] at hFound
      split at hFound
      · rename_i hPoint
        rw [Std.LawfulEqOrd.compare_eq_iff_eq] at hPoint
        obtain rfl := Option.some.inj hFound
        refine ⟨hPoint ▸ hSource, List.forall_mem_append.mpr ⟨fun x hx => ?_, ?_⟩⟩
        · cases hOld : s.resolved[r.bound.source]? with
          | none => simp [hOld] at hx
          | some xs =>
            rw [hOld] at hx
            exact (h.resolved _ xs hOld).2 x hx
        · exact List.forall_mem_singleton.mpr ⟨hBound, hNode⟩
      · exact h.resolved p xs hFound
    · dsimp only at he
      split at he
      · rcases List.mem_append.mp he with hOld | hNew
        · exact h.errors e hOld
        · obtain rfl := List.mem_singleton.mp hNew
          exact below_cons.mpr ⟨hSource, below_cons.mpr ⟨hNode, hBound⟩⟩
      · exact h.errors e he

/-- A session of a well-formed program leaves a solution that is in order. -/
theorem Proper.addSession {program : Program} (h : s.Proper n) {session : Session}
    (hSession : session.Proper program n) {f : Finished}
    (hFinish : session.unification.finish a = .ok f) :
    (s.addSession f session.resolutions).Proper n := by
  have hFormed := hSession.reachable.wellFormed
  have hDeferred : ∀ args ∈ f.deferred, Below n args.mentions := by
    intro args hArgs
    rw [Unification.finish_deferred hFinish] at hArgs
    obtain ⟨args', hArgs', rfl⟩ := List.mem_map.mp hArgs
    exact hSession.unification.applyAll hFormed (hSession.unification.deferred args' hArgs')
  have hGroups : (f.groups.foldl Solution.addGroup s).Proper n :=
    List.foldlRecOn f.groups _ h fun s' hs' g hg =>
      hs'.addGroup (hSession.unification.groups hFormed hFinish hg)
  exact List.foldlRecOn session.resolutions _ hGroups fun s' hs' r hr =>
    hs'.addResolution hDeferred (hSession.resolutions r hr)

-- ---------------------------------------------------------------------------
-- Reports
-- ---------------------------------------------------------------------------

/-- A group can be written: its points have lineages that end, and its types can be printed.
-/
theorem exists_groupLine (hLineages : a.Closed) {g : Group} (hg : g.Within a.size) :
    ∃ line, groupLine a g = .ok line := by
  obtain ⟨nodes, hNodes⟩ := exists_mapM_eq_ok fun p hp => hLineages.exists_name (hg.nodes p hp)
  obtain ⟨types, hTypes⟩ := exists_mapM_eq_ok fun t ht =>
    Ty.exists_print (fun p hp => Arena.exists_source (a := a) hp) (hg.types t ht)
  unfold groupLine
  split
  · exact ⟨_, rfl⟩
  · rw [hNodes, hTypes]
    exact ⟨_, rfl⟩

theorem exists_resolvedLine (hLineages : a.Closed) {p : Point} (hp : a.Holds p)
    {x : ResolvedBound} (hBound : Below a.size x.bound.mentions) (hNode : a.Holds x.node) :
    ∃ line, resolvedLine a p x = .ok line := by
  obtain ⟨bound, hPrint⟩ := Bound.exists_print (fun p hp => Arena.exists_source (a := a) hp) hBound
  obtain ⟨node, hName⟩ := hLineages.exists_name hNode
  obtain ⟨place, hPlace⟩ := hLineages.exists_name hp
  rw [resolvedLine, hPrint, hName, hPlace]
  exact ⟨_, rfl⟩

/-- One case per kind of error, each with the points that it is written with. -/
theorem exists_errorText (hLineages : a.Closed) {e : SolveError} (he : Below a.size e.mentions) :
    ∃ text, errorText a e = .ok text := by
  have hSource : ∀ p : Point, p.index < a.size → ∃ text, a.source p = .ok text :=
    fun p hp => Arena.exists_source hp
  cases e with
  | conflictingTypes => exact ⟨_, rfl⟩
  | unresolvedBound p b =>
    obtain ⟨bound, hPrint⟩ := Bound.exists_print hSource (below_cons.mp he).2
    rw [errorText, hPrint]
    exact ⟨_, rfl⟩
  | errorInstance p b node =>
    obtain ⟨hNode, hb⟩ := below_cons.mp (below_cons.mp he).2
    obtain ⟨bound, hPrint⟩ := Bound.exists_print hSource hb
    obtain ⟨name, hName⟩ := hLineages.exists_name hNode
    rw [errorText, hPrint, hName]
    exact ⟨_, rfl⟩

theorem exists_errorLine (hLineages : a.Closed) {e : SolveError} (he : Below a.size e.mentions) :
    ∃ line, errorLine a e = .ok line := by
  have hPoint : a.Holds e.point := by
    cases e <;> exact (below_cons.mp he).1
  obtain ⟨place, hPlace⟩ := hLineages.exists_name hPoint
  obtain ⟨text, hText⟩ := exists_errorText hLineages he
  rw [errorLine, hPlace, hText]
  exact ⟨_, rfl⟩

/-- **The report can be written.** -/
theorem Proper.exists_report (h : s.Proper a.size) (hLineages : a.Closed) :
    ∃ text, s.report a = .ok text := by
  have hEntry : ∀ entry ∈ s.resolved.toList, a.Holds entry.1 ∧
      ∀ x ∈ entry.2, Below a.size x.bound.mentions ∧ a.Holds x.node := by
    rintro ⟨p, xs⟩ hMem
    exact h.resolved p xs (Std.ExtTreeMap.mem_toList_iff_getElem?_eq_some.mp hMem)
  -- no two entries are for one point, so sorting them by their points loses none
  have hKey : ∀ x ∈ s.resolved.toList, ∀ y ∈ s.resolved.toList, x.1 = y.1 → x = y := by
    rintro ⟨p, xs⟩ hx ⟨q, ys⟩ hy rfl
    rw [Std.ExtTreeMap.mem_toList_iff_getElem?_eq_some] at hx hy
    exact congrArg _ (Option.some.inj (hx.symm.trans hy))
  refine exists_bind_eq_ok (exists_mapM_eq_ok fun g hg =>
    exists_groupLine hLineages (h.groups g hg)) fun groups _ => ?_
  refine exists_bind_eq_ok (a.exists_inSourceOrder fun entry hMem => (hEntry entry hMem).1)
    fun entries hEntries => ?_
  refine exists_bind_eq_ok (exists_mapM_eq_ok fun entry hMem => ?_) fun lines _ => ?_
  · obtain ⟨hp, hxs⟩ := hEntry entry (((Arena.inSourceOrder_spec hEntries hKey).1 entry).mp hMem)
    exact exists_mapM_eq_ok fun x hx => exists_resolvedLine hLineages hp (hxs x hx).1 (hxs x hx).2
  refine exists_bind_eq_ok (exists_mapM_eq_ok fun e he =>
    exists_errorLine hLineages (h.errors e he)) fun errors _ => ?_
  exact ⟨_, rfl⟩

end Solution

-- ---------------------------------------------------------------------------
-- Whole programs
-- ---------------------------------------------------------------------------

namespace Session

variable {program : Program} {s : Session}

/-- The groups of a session can be formed: all its points are allocated. -/
theorem Proper.exists_finish (h : s.Proper program n) (hSize : n ≤ a.size) :
    ∃ f, s.unification.finish a = .ok f :=
  Unification.exists_finish fun p hp =>
    Nat.lt_of_lt_of_le (h.unification.recorded p hp) hSize

/-- When a session is over, every group has a point, and for every bound that was worked off
the types are found where they wait. -/
theorem Proper.exists_entries (h : s.Proper program n) {f : Finished}
    (hFinish : s.unification.finish a = .ok f) :
    (∀ g ∈ f.groups, g.nodes ≠ []) ∧ ∀ r ∈ s.resolutions, r.deferred < f.deferred.length := by
  refine ⟨fun g hg => (((Unification.groups_spec hFinish).1 g).mp hg).nodes_ne_nil, fun r hr => ?_⟩
  rw [Unification.finish_deferred hFinish, List.length_map]
  exact (h.resolutions r hr).deferred

/-- Neither of the two lookups that a session ends with fails. -/
theorem Proper.checkSession_eq (h : s.Proper program n) {f : Finished}
    (hFinish : s.unification.finish a = .ok f) :
    Solution.checkSession f s.resolutions = .ok () := by
  obtain ⟨hNodes, hPlaces⟩ := h.exists_entries hFinish
  obtain ⟨points, hPoints⟩ : ∃ points,
      (f.groups.filter Group.isConflicting).mapM Group.first = .ok points :=
    exists_mapM_eq_ok fun g hg => ⟨_, Group.first_eq (hNodes g (List.mem_of_mem_filter hg))⟩
  obtain ⟨types, hTypes⟩ : ∃ types,
      s.resolutions.mapM (fun r => fetch f.deferred r.deferred) = .ok types := by
    refine exists_mapM_eq_ok fun r hr => ?_
    have hFound := List.getElem?_eq_getElem (hPlaces r hr)
    exact ⟨_, by rw [fetch, hFound]⟩
  rw [Solution.checkSession, hPoints, hTypes]
  rfl

theorem safe_run (hProgram : program.Proper n) (limits : Limits) (hs : s.Proper program n) :
    SolveM.Safe n (s.run program limits) (Session.Proper program) :=
  safe_runBefore hProgram limits.steps none n s (Nat.le_refl n) hs

end Session

namespace Program

variable {program : Program} {solution : Solution} {limits : Limits}

open SolveM (Safe)

/-- The sessions of a program start in order. -/
theorem Proper.start_task (h : program.Proper n) {task : Task} (hTask : task ∈ program.tasks) :
    (Session.start task.1 task.2).Proper program n := by
  rcases List.mem_append.mp hTask with hDefinition | hTop
  · obtain ⟨⟨d, cs⟩, hEntry, rfl⟩ := List.mem_map.mp hDefinition
    have hcs : ∀ c ∈ cs, c ∈ program.constraints := fun c hc =>
      List.mem_append_right _ (List.mem_flatMap.mpr ⟨_, hEntry, hc⟩)
    refine .start (fun i hi => ?_) fun c hc => h.constraint (hcs c hc)
    obtain ⟨b, hb, rfl⟩ := List.mem_map.mp hi
    obtain ⟨c, hc, hHypothesis⟩ := List.mem_filterMap.mp hb
    exact h.hypothesis (hcs c hc) hHypothesis
  · obtain rfl := List.mem_singleton.mp hTop
    exact .start (fun i hi => absurd hi List.not_mem_nil) fun c hc =>
      h.constraint (List.mem_append_left _ hc)

/-- The session of a definition is named after a point that is allocated. -/
theorem safe_sessionName {definition : Option Point}
    (hDefinition : ∀ d, definition = some d → d.index < n) :
    Safe n (sessionName definition) fun _ _ => True := by
  cases definition with
  | none => exact .pure fun _ _ => trivial
  | some d =>
    have hSource : Safe n (SolveM.ask (·.source d)) fun _ name =>
        ∃ b : Arena, b.source d = .ok name :=
      SolveM.safe_ask fun b hSize =>
        Arena.exists_source (Nat.lt_of_lt_of_le (hDefinition d rfl) hSize)
    intro w r w' hSize hClosed hRun
    obtain ⟨hClosed', hGrows, hFault, -⟩ := hSource w r w' hSize hClosed hRun
    exact ⟨hClosed', hGrows, hFault, fun _ _ => trivial⟩

/-- **A session of a well-formed program does not fault**, and what it adds to a solution is
in order. -/
theorem safe_solveSession (h : program.Proper n) {definition : Option Point}
    (hDefinition : ∀ d, definition = some d → d.index < n) (task : Task)
    (hTask : task ∈ program.tasks) (hSolution : solution.Proper n) :
    Safe n (program.solveSession limits definition task.1 task.2 solution) Solution.Proper := by
  refine (safe_sessionName hDefinition).bind fun name m hLe _ => ?_
  refine Safe.within (fun _ _ _ hLe hs => hs.mono hLe) ?_ _
  refine (Session.safe_run (h.mono hLe) limits ((h.start_task hTask).mono hLe)).bind
    fun s i hLe' hs => ?_
  refine (SolveM.safe_ask fun b hSize => hs.exists_finish hSize).bind ?_
  rintro f j hLe'' ⟨b, hFinish⟩
  refine (SolveM.safe_emit below_nil).bind fun _ k hMore _ => ?_
  refine (SolveM.safe_ask fun _ _ => ⟨(), hs.checkSession_eq hFinish⟩).map
    fun _ k' hMore' _ l hLast => ?_
  -- the arena has grown since the check, which does no harm
  have hFirst := hSolution.mono (Nat.le_trans hLe hLe')
  exact (hFirst.addSession hs hFinish).mono (by omega)

/-- The sessions of the definitions, one after the other, in an arena that only grows. -/
theorem safe_solveDefinitions (h : program.Proper n) (l : List (Point × List Constraint))
    (hl : ∀ x ∈ l, x ∈ program.definitions.toList) (hSolution : solution.Proper n) :
    Safe n (program.solveDefinitions limits l solution) Solution.Proper := by
  induction l generalizing n solution with
  | nil => exact .pure fun _ hLe => hSolution.mono hLe
  | cons x rest ih =>
    obtain ⟨d, cs⟩ := x
    obtain ⟨hHere, hRest⟩ := List.forall_mem_cons.mp hl
    have hTask : Task.ofDefinition cs ∈ program.tasks :=
      List.mem_append_left _ (List.mem_map.mpr ⟨_, hHere, rfl⟩)
    have hKey : d.index < n := by
      have hKeys := h.allocated
      simp only [mentions, below_append] at hKeys
      refine hKeys.1.1 d ?_
      rw [← Std.ExtTreeMap.map_fst_toList_eq_keys]
      exact List.mem_map_of_mem hHere
    refine (safe_solveSession h (by rintro _ ⟨⟩; exact hKey) _ hTask hSolution).bind
      fun solution' m hLe hSolution' => ?_
    exact ih (h.mono hLe) hRest hSolution'

/-- All sessions of a program, the top level last. -/
theorem safe_solve (h : program.Proper n) (limits : Limits) :
    Safe n (program.solve limits) Solution.Proper := by
  refine (safe_solveDefinitions h _ (fun _ hx => hx) Solution.proper_empty).bind
    fun solution m hLe hSolution => ?_
  exact safe_solveSession (h.mono hLe) (by rintro _ ⟨⟩) ([], program.topLevel)
    (List.mem_append_right _ (List.mem_singleton_self _)) hSolution

end Program

-- ---------------------------------------------------------------------------
-- The case that cannot come up
-- ---------------------------------------------------------------------------

namespace Unification

/-- What is known of a type that is not a point is not a point either. -/
theorem notBothPoints_resolve (u : Unification) {left right : Ty} (h : NotBothPoints left right) :
    NotBothPoints (u.resolve left).1 ((u.resolve left).2.resolve right).1 := by
  have hCon : ∀ (v : Unification) (t : Ty), (∀ p, t ≠ .point p) →
      ∀ p, (v.resolve t).1 ≠ .point p := by
    intro v t ht
    cases t with
    | point q => exact absurd rfl (ht q)
    | con => exact ht
  exact h.imp (hCon u left) (hCon _ right)

/-- `unifyKnown`, with `stuck` for the case that both types are points. -/
def unifyKnownOr (stuck unify : Unifier) (left right known known' : Ty) (u : Unification) :
    Option (Bool × Unification) :=
  match known, known' with
  | .point p, .point q => stuck (.point p) (.point q) u
  | _, _ => unifyKnown unify left right known known' u

/-- `unifyStep`, with `stuck` for the case that both types turn out to be points. -/
def unifyStepOr (stuck unify : Unifier) (left right : Ty) (u : Unification) :
    Option (Bool × Unification) :=
  if left.same right then some (false, u)
  else match left, right with
    | .point a, .point b => unifyPoints unify a b u
    | _, _ =>
      let (known, u) := u.resolve left
      let (known', u) := u.resolve right
      unifyKnownOr stuck unify left right known known' u

/-- Unification of bounded depth, with `stuck` for that case on every level. -/
def unifyWithinOr (stuck : Unifier) : Nat → Unifier
  | 0 => fun _ _ _ => none
  | fuel + 1 => unifyStepOr stuck (unifyWithinOr stuck fuel)

/-- Where not both types are points, `stuck` is not asked. -/
theorem unifyKnownOr_eq (stuck unify : Unifier) {left right known known' : Ty}
    (h : NotBothPoints known known') :
    unifyKnownOr stuck unify left right known known' =
      unifyKnown unify left right known known' := by
  funext u
  unfold unifyKnownOr
  split
  · rcases h with hLeft | hRight
    · exact absurd rfl (hLeft _)
    · exact absurd rfl (hRight _)
  · rfl

/-- Two points are taken care of before anything is looked up, so `stuck` is never asked. -/
theorem unifyStepOr_eq (stuck unify : Unifier) : unifyStepOr stuck unify = unifyStep unify := by
  funext left right u
  unfold unifyStepOr unifyStep
  by_cases hSame : left.same right = true
  · rw [if_pos hSame, if_pos hSame]
  · rw [if_neg hSame, if_neg hSame]
    cases left with
    | con tag children emit =>
      have hSides : NotBothPoints (.con tag children emit) right := .inl (by simp)
      exact congrFun (unifyKnownOr_eq stuck unify (u.notBothPoints_resolve hSides)) _
    | point a =>
      cases right with
      | point b => rfl
      | con tag children emit =>
        have hSides : NotBothPoints (.point a) (.con tag children emit) := .inr (by simp)
        exact congrFun (unifyKnownOr_eq stuck unify (u.notBothPoints_resolve hSides)) _

/-- **Whatever would be done with two points, it is never done.** -/
theorem unifyWithinOr_eq (stuck : Unifier) (fuel : Nat) :
    unifyWithinOr stuck fuel = unifyWithin fuel := by
  induction fuel with
  | zero => rfl
  | succ fuel ih => rw [unifyWithinOr, ih, unifyStepOr_eq, unifyWithin]

end Unification

namespace Program

/-- **Well-formed programs never fault.** Whatever the limits: solving does not end in a
fault, with or without a trace, and its result can be reported. Each session that comes to
its end leaves groups that can be formed and none of which is empty, and for every bound
that it has worked off the types are found where they wait. What is known of two types that are
not both points never is two points, and so unification, which takes care of two points before
it looks at what is known of either, is the same in every state and on every level whatever it
would do if it then found two points. -/
theorem solve_faultless {program : Program} {a : Arena} (h : program.Proper a.size)
    (hLineages : a.Closed) (limits : Limits) :
    (∀ level fault, program.solveTraced limits a level ≠ .error (.fault fault)) ∧
    (∀ level solved, program.solveTraced limits a level = .ok solved →
      ∃ text, solved.solution.report solved.arena = .ok text) ∧
    (∀ task ∈ program.tasks, ∀ w s w', a.Grown w.arena →
      ((Session.start task.1 task.2).run program limits).runIn w = (.ok s, w') →
      ∃ f, s.unification.finish w'.arena = .ok f ∧ (∀ g ∈ f.groups, g.nodes ≠ []) ∧
        ∀ r ∈ s.resolutions, r.deferred < f.deferred.length) ∧
    (∀ (u : Unification) left right, Unification.NotBothPoints left right →
      Unification.NotBothPoints (u.resolve left).1 ((u.resolve left).2.resolve right).1) ∧
    ∀ (stuck : Unification.Unifier) (depth : Nat),
      Unification.unifyWithinOr stuck depth = Unification.unifyWithin depth := by
  rcases hRun : (program.solve limits).runIn { arena := a } with ⟨result, w⟩
  obtain ⟨hClosed, hGrows, hFault, hSolution⟩ :=
    safe_solve h limits { arena := a } result w (Nat.le_refl _) hLineages hRun
  -- the log started empty, so all of it can be written
  have hLog : ∀ e k, .event e k ∈ w.log → k ≤ w.arena.size ∧ Below k (Trace.Event.mentions e) :=
    fun e k hEvent => (hGrows.log e k hEvent).resolve_left List.not_mem_nil
  have hTraced : ∀ level, ∃ trace, program.solveTraced limits a level =
      result.bind fun solution => .ok { solution, arena := w.arena, trace } := by
    intro level
    cases level with
    | none => exact ⟨[], by rw [solveTraced, hRun]; rfl⟩
    | some level =>
      obtain ⟨lines, hLines⟩ := Trace.exists_lines level hLog
      exact ⟨lines, by simp only [solveTraced, hRun, hLines]; rfl⟩
  refine ⟨fun level fault hEnd => ?_, fun level solved hEnd => ?_,
    fun task hTask w₁ s w₂ hGrown hSession => ?_, fun u _ _ => u.notBothPoints_resolve,
    Unification.unifyWithinOr_eq⟩
  · -- no fault: neither solving nor writing the trace ends in one
    obtain ⟨trace, hTrace⟩ := hTraced level
    rw [hTrace] at hEnd
    cases result with
    | ok solution => cases hEnd
    | error e => exact hFault fault (Except.error.inj hEnd ▸ rfl)
  · obtain ⟨trace, hTrace⟩ := hTraced level
    rw [hTrace] at hEnd
    cases result with
    | ok solution =>
      obtain rfl := Except.ok.inj hEnd
      exact (hSolution solution rfl).exists_report hClosed
    | error e => cases hEnd
  · -- any session, in any arena that the given one may have grown to
    obtain ⟨-, -, -, hEnds⟩ := Session.safe_run h limits (h.start_task hTask) w₁ _ w₂
      hGrown.size_le (hLineages.grown hGrown) hSession
    have hs := hEnds s rfl
    obtain ⟨f, hFinish⟩ := hs.exists_finish (Nat.le_refl _)
    exact ⟨f, hFinish, hs.exists_entries hFinish⟩

/-- The parameter of the trait. -/
def shown : Parameter :=
  ⟨0, "shown", ⟨0⟩, false⟩

/-- Asks that the trait at point 0 hold of a type. -/
def showing (source : Point) (type : Ty) (assumed : Bool) : Bound where
  source := source
  trait := ⟨0⟩
  args := (∅ : Substitution).insert shown type
  assumed := assumed
  copied := false

/-- The parameter of the definition. -/
def element : Ty :=
  .con (.parameter ⟨1, "element", ⟨3⟩, false⟩) [] none

/-- The definition at point 2 assumes of its parameter what it then asks for at point 4.
It is called at point 5, and only blocks can be shown. -/
def showsAll : Program where
  topLevel := [.call (.ofSource ⟨5⟩ ⟨2⟩ ∅)]
  definitions := (∅ : PointMap (List Constraint)).insert ⟨2⟩
    [.require (showing ⟨2⟩ element true), .scoped (.require (showing ⟨4⟩ element false))]
  instances := (∅ : PointMap (List Instance)).insert ⟨0⟩
    [{ node := ⟨1⟩, trait := ⟨0⟩, args := (∅ : Substitution).insert shown (.con .block [] none),
       isDefault := false, isError := false }]

def beforeShowing : Arena :=
  ⟨([none, none, none, some ⟨2⟩, some ⟨2⟩, none].map fun owner =>
    { span := ⟨0, 0⟩, source := "", owner }).toArray⟩

theorem proper_showsAll : showsAll.Proper beforeShowing.size := by
  have hBound : ∀ b ∈ showsAll.bounds, ∃ t, b.args = (∅ : Substitution).insert shown t := by
    intro b hb
    obtain ⟨c, hc, hBound⟩ := List.mem_filterMap.mp hb
    rcases List.mem_append.mp hc with hTop | hDefinition
    · obtain rfl := List.mem_singleton.mp hTop
      cases hBound
    · obtain ⟨⟨d, cs⟩, hEntry, hc⟩ := List.mem_flatMap.mp hDefinition
      rw [Std.ExtTreeMap.mem_toList_iff_getElem?_eq_some, showsAll,
        PointMap.getElem?_insert] at hEntry
      split at hEntry
      · obtain rfl := Option.some.inj hEntry
        simp only [List.mem_cons, List.not_mem_nil, or_false] at hc
        rcases hc with rfl | rfl
        · exact ⟨element, by rw [← Option.some.inj hBound]; rfl⟩
        · exact ⟨element, by rw [← Option.some.inj hBound]; rfl⟩
      · simp at hEntry
  refine ⟨by decide +kernel, fun b hb b' hb' _ q => ?_, fun b hb i hi q hq => ?_⟩
  · obtain ⟨t, ht⟩ := hBound b hb
    obtain ⟨t', ht'⟩ := hBound b' hb'
    simp [ht, ht', Std.ExtTreeMap.contains_insert]
  · obtain ⟨t, ht⟩ := hBound b hb
    simp only [instancesOf, showsAll, PointMap.getElem?_insert] at hi
    split at hi
    · obtain rfl := List.mem_singleton.mp hi
      simpa [ht, Std.ExtTreeMap.contains_insert] using hq
    · simp at hi

theorem closed_beforeShowing : beforeShowing.Closed := by
  intro p s q hSite hFrom
  have hMem : s ∈ beforeShowing.sites := by
    unfold Arena.site at hSite
    split at hSite
    · rename_i hFound
      exact Except.ok.inj hSite ▸ Array.mem_of_getElem? hFound
    · cases hSite
  have hNone : ∀ s ∈ beforeShowing.sites, s.copiedFrom = none := by decide
  rw [hNone s hMem] at hFrom
  cases hFrom

/-- An instance that gives a type for a parameter of its own, which no bound has, does end
in a fault. -/
example :
    let foreign : Instance :=
      { node := ⟨1⟩, trait := ⟨0⟩, isDefault := false, isError := false
        args := (∅ : Substitution).insert ⟨2, "own", ⟨1⟩, false⟩ (.con .block [] none) }
    ((showsAll.register foreign).solveTraced ⟨9, 9⟩ beforeShowing none).map (fun _ => ()) =
      .error (.fault (.foreignParameter "own" ⟨1⟩)) := by
  decide +kernel

/-- The bound that the call asks for is resolved, and the result can be reported. -/
theorem solve_faultless_showsAll :
    ∃ solved text, showsAll.solveTraced ⟨9, 9⟩ beforeShowing (some .trace) = .ok solved ∧
      solved.solution.resolvedAt ⟨5⟩ ≠ [] ∧ solved.solution.report solved.arena = .ok text := by
  have hEnds : (match showsAll.solveTraced ⟨9, 9⟩ beforeShowing (some .trace) with
      | .ok solved => !(solved.solution.resolvedAt ⟨5⟩).isEmpty
      | .error _ => false) = true := by decide +kernel
  split at hEnds
  · rename_i solved hSolved
    obtain ⟨text, hText⟩ :=
      (solve_faultless proper_showsAll closed_beforeShowing ⟨9, 9⟩).2.1 _ solved hSolved
    rw [Bool.not_eq_true', List.isEmpty_eq_false_iff] at hEnds
    exact ⟨solved, text, hSolved, hEnds, hText⟩
  · cases hEnds

end Program

end TraitInference
