import Mathlib.Algebra.BigOperators.Group.List.Basic
import Mathlib.Algebra.GroupWithZero.Nat
import TraitInference.Proofs.Interleaving
import TraitInference.Proofs.Limits
import TraitInference.Proofs.Safety

/-!
# TraitInference — how many turns a run takes

Without bounds a run does nothing but work off what is on the agenda and what calls put there.
If no definition calls itself, not even by way of others, the number of turns is known before
the first one:

* `Program.Sizes` — the **size** of a constraint: a call counts for itself and for what its
  definition brings, anything else counts once. `Program.size` computes it from a ranking of
  the definitions.
* `Session.work_lowers` — whatever constraint is worked off, what joins the agenda in its place
  is smaller by one.
* `Session.run_ends_after_workload` — so a run ends after as many turns as the sizes of the
  constraints on the agenda add up to, unless a unification does not end.
-/

namespace TraitInference

-- ---------------------------------------------------------------------------
-- Sizes
-- ---------------------------------------------------------------------------

namespace Constraint

/-- Whether the constraint is confined to its definition. -/
def isScoped : Constraint → Bool
  | .scoped _ => true
  | _ => false

/-- The call that a constraint stands for. -/
def call? : Constraint → Option Call
  | .call k => some k
  | .scoped c => c.call?
  | _ => none

end Constraint

namespace Program

variable {program : Program} {rank : Point → Nat}

/-- What the copy of a definition takes over. -/
def copied (program : Program) (d : Point) : List Constraint :=
  (program.definition d).filter (!·.isScoped)

/-- The size of a constraint: how many are worked off on its account. -/
structure Sizes (program : Program) (size : Constraint → Nat) : Prop where
  ofAscription : ∀ a, size (.ascribe a) = 1
  ofFallback   : ∀ a, size (.fallback a) = 1
  ofCall       : ∀ k, size (.call k) = 1 + ((program.copied k.definition).map size).sum
  ofScoped     : ∀ c, size (.scoped c) = size c

/-- No definition calls itself, not even by way of others. -/
def Ranked (program : Program) (rank : Point → Nat) : Prop :=
  ∀ (d : Point) (k : Call), .call k ∈ program.definition d → rank k.definition < rank d

/-- The size, if calls are nested no deeper than `depth`. -/
def sizeWithin (program : Program) : Nat → Constraint → Nat
  | 0, _ => 1
  | depth + 1, c =>
    1 + ((c.call?.elim [] fun k => program.copied k.definition).map (program.sizeWithin depth)).sum

/-- How deep the calls are nested that a constraint leads to. -/
def nesting (rank : Point → Nat) (c : Constraint) : Nat :=
  c.call?.elim 0 fun k => rank k.definition + 1

/-- The size of a constraint, from a ranking of the definitions. -/
def size (program : Program) (rank : Point → Nat) (c : Constraint) : Nat :=
  program.sizeWithin (nesting rank c) c

/-- What is not a call counts once. -/
theorem sizeWithin_of_none {c : Constraint} (h : c.call? = none) :
    ∀ depth, program.sizeWithin depth c = 1
  | 0 => rfl
  | depth + 1 => by rw [sizeWithin, h]; rfl

theorem sizeWithin_scoped (c : Constraint) :
    ∀ depth, program.sizeWithin depth (.scoped c) = program.sizeWithin depth c
  | 0 => rfl
  | _ + 1 => rfl

/-- What a definition calls has a smaller rank. -/
theorem nesting_le (h : program.Ranked rank) {d : Point} {c : Constraint}
    (hc : c ∈ program.copied d) : nesting rank c ≤ rank d := by
  obtain ⟨hMem, hCopied⟩ := List.mem_filter.mp hc
  match c with
  | .call k => exact h d k hMem
  | .scoped _ => cases hCopied
  | .ascribe _ | .fallback _ | .require _ => exact Nat.zero_le _

/-- **Looking deeper than calls are nested makes no difference.** -/
theorem sizeWithin_eq (h : program.Ranked rank) (depth : Nat) {depth' : Nat} {c : Constraint}
    (hDepth : nesting rank c ≤ depth) (hDepth' : nesting rank c ≤ depth') :
    program.sizeWithin depth c = program.sizeWithin depth' c := by
  induction depth generalizing depth' c with
  | zero =>
    have hNone : c.call? = none := by
      cases hCall : c.call? with
      | none => rfl
      | some k => simp [nesting, hCall] at hDepth
    rw [sizeWithin_of_none hNone, sizeWithin_of_none hNone]
  | succ depth ih =>
    cases hCall : c.call? with
    | none => rw [sizeWithin_of_none hCall, sizeWithin_of_none hCall]
    | some k =>
      simp only [nesting, hCall, Option.elim_some] at hDepth hDepth'
      -- a call is nested at least once, so both depths have one level to spend on it
      obtain ⟨depth', rfl⟩ : ∃ n, depth' = n + 1 := ⟨depth' - 1, by omega⟩
      rw [sizeWithin, sizeWithin, hCall]
      refine congrArg (1 + List.sum ·) (List.map_congr_left fun c' hc' => ?_)
      have hLess := nesting_le h hc'
      exact ih (by omega) (by omega)

/-- **The size that is computed is the size.** -/
theorem sizes_size (h : program.Ranked rank) : program.Sizes (program.size rank) where
  ofAscription _ := rfl
  ofFallback _ := rfl
  ofCall k := by
    refine congrArg (1 + List.sum ·) (List.map_congr_left fun c hc => ?_)
    exact sizeWithin_eq h _ (nesting_le h hc) (Nat.le_refl _)
  ofScoped c := sizeWithin_scoped c (nesting rank c)

end Program

-- ---------------------------------------------------------------------------
-- The size of copies
-- ---------------------------------------------------------------------------

section Copies

variable {program : Program} {size : Constraint → Nat} {A : Reply → Prop}

/-- A copy is as large as what it is a copy of. -/
theorem Constraint.Filled.size_eq (hSizes : program.Sizes size) : ∀ {c : Constraint}
    {copy : Option Constraint}, c.Filled A copy → c.bound? = none →
    (copy.toList.map size).sum = if c.isScoped then 0 else size c
  | .ascribe x, _, h, _ => by
    obtain ⟨x', -, rfl⟩ := h
    exact (hSizes.ofAscription x').trans (hSizes.ofAscription x).symm
  | .fallback x, _, h, _ => by
    obtain ⟨x', -, rfl⟩ := h
    exact (hSizes.ofFallback x').trans (hSizes.ofFallback x).symm
  | .call k, _, h, _ => by
    obtain ⟨_, ⟨source, args, -, -, rfl⟩, rfl⟩ := h
    -- the copy calls the same definition
    exact (hSizes.ofCall (.ofSource source k.definition args)).trans (hSizes.ofCall k).symm
  | .require _, _, _, hNone => by cases hNone
  | .scoped _, _, h, _ => by
    rw [h]
    rfl

/-- So is the copy of a definition, without what is confined to it. -/
theorem Constraint.FilledAll.size_eq (hSizes : program.Sizes size) : ∀ {cs copies :
    List Constraint}, FilledAll A cs copies → (∀ c ∈ cs, c.bound? = none) →
    (copies.map size).sum = ((cs.filter (!·.isScoped)).map size).sum
  | [], _, h, _ => by
    rw [h]
    rfl
  | c :: cs, _, h, hcs => by
    obtain ⟨copy, rest, hCopy, hRest, rfl⟩ := h
    obtain ⟨hc, hcs⟩ := List.forall_mem_cons.mp hcs
    rw [List.map_append, List.sum_append, hCopy.size_eq hSizes hc, hRest.size_eq hSizes hcs,
      List.filter_cons]
    cases c.isScoped <;> simp

end Copies

-- ---------------------------------------------------------------------------
-- The turns in the log
-- ---------------------------------------------------------------------------

/-- Whether the entry says that a constraint has left the agenda. -/
def Trace.Entry.isTurn : Trace.Entry → Bool
  | .event (.run _ _) _ => true
  | _ => false

/-- How many constraints have left the agenda, by the log. -/
def World.turns (w : World) : Nat :=
  w.log.countP Trace.Entry.isTurn

namespace SolveM

variable {α β : Type} {x : SolveM α}

/-- The program logs no turn, whether it ends or halts. -/
def Silent (x : SolveM α) : Prop :=
  ∀ w : World, (outcome x w).2.turns = w.turns

theorem silent_pure (v : α) : Silent (pure v) :=
  fun _ => rfl

/-- Programs that log no turn log none in a row. -/
theorem Silent.bind {k : α → SolveM β} (hx : Silent x) (hk : ∀ v, Silent (k v)) :
    Silent (x >>= k) := by
  intro w
  have hFirst := hx w
  rcases hRun : outcome x w with ⟨e | v, w'⟩
  · rw [outcome_bind_error hRun]
    rwa [hRun] at hFirst
  · rw [outcome_bind_ok hRun, hk v w']
    rwa [hRun] at hFirst

theorem silent_emit {e : Trace.Event} (he : ∀ n, (Trace.Entry.event e n).isTurn = false) :
    Silent (emit e) := by
  intro w
  exact List.countP_cons_of_neg (by simp [he])

theorem Silent.within (hx : Silent x) (sp : Trace.Span) : Silent (within sp x) := by
  have hEnter : Silent (modify fun w => { w with log := .enter sp :: w.log } : SolveM PUnit) :=
    fun w => List.countP_cons_of_neg (by simp [Trace.Entry.isTurn])
  have hLeave : Silent (modify fun w => { w with log := .leave :: w.log } : SolveM PUnit) :=
    fun w => List.countP_cons_of_neg (by simp [Trace.Entry.isTurn])
  exact hEnter.bind fun _ => hx.bind fun v => hLeave.bind fun _ => silent_pure v

/-- What only logs, and no turn, is silent. -/
theorem Logs.silent {result : Except Halt α}
    (h : Logs (fun e => ∀ k, (Trace.Entry.event e k).isTurn = false) x result) : Silent x := by
  intro w
  obtain ⟨entries, hRun, hEvents⟩ := h w
  have hNone : entries.countP Trace.Entry.isTurn = 0 := by
    refine List.countP_eq_zero.mpr fun entry hEntry hTurn => ?_
    cases entry with
    | enter | leave => cases hTurn
    | event e k =>
      rw [(hEvents e k hEntry).1 k] at hTurn
      cases hTurn
  rw [hRun, World.turns, List.countP_append, hNone, Nat.zero_add]
  rfl

theorem silent_copy (c : Copier) (x : CopyM α) : Silent (copy c x) := by
  intro w
  rw [outcome_copy]
  rfl

end SolveM

/-- Unfolding a call logs no turn. -/
theorem Call.silent_unfold (program : Program) (k : Call) : SolveM.Silent (k.unfold program) :=
  ((SolveM.silent_emit fun _ => rfl).bind fun _ => SolveM.silent_copy _ _).within _

/-- Where no bounds are declared, nothing requires one. -/
theorem Program.bound?_eq_none {program : Program} (hBounds : program.bounds = []) {n : Nat}
    {c : Constraint} (hc : c.Proper program n) : c.bound? = none := by
  cases hBound : c.bound? with
  | none => rfl
  | some b =>
    obtain ⟨b', hb', -⟩ := hc.declared b hBound
    rw [hBounds] at hb'
    cases hb'

namespace Session

variable {program : Program} {size : Constraint → Nat} {s : Session} {w : World} (depth : Nat)

/-- Nor does an ascription. -/
theorem silent_ascribe (x : Ascription) (s : Session) : SolveM.Silent (s.ascribe depth x) := by
  refine (logs_ascribe depth (fun e he k => ?_) (fun _ => rfl) s).silent
  cases e <;> first | rfl | cases he

-- ---------------------------------------------------------------------------
-- One turn
-- ---------------------------------------------------------------------------

/-- What is left to do, if constraints have these sizes. -/
def workload (size : Constraint → Nat) (s : Session) : Nat :=
  (s.agenda.toList.map size).sum

/-- A constraint was worked off: what has joined the agenda on its account is fit for the
program, and smaller than the constraint by one. -/
structure Lowers (program : Program) (size : Constraint → Nat) (c : Constraint) (s : Session)
    (w : World) (s' : Session) (w' : World) : Prop where
  grown  : w.arena.size ≤ w'.arena.size
  turns  : w'.turns = w.turns
  joined : ∃ cs, s'.agenda = s.agenda.extend cs ∧
    (∀ c' ∈ cs, c'.Proper program w'.arena.size) ∧ 1 + (cs.map size).sum = size c

/-- An ascription brings nothing, unless it goes too deep. -/
theorem ascribe_lowers {x : Ascription} {c : Constraint} (hSize : size c = 1) (s : Session)
    (w : World) : (∃ w', outcome (s.ascribe depth x) w = (.error .tooDeep, w')) ∨
      ∃ s' w', outcome (s.ascribe depth x) w = (.ok s', w') ∧ Lowers program size c s w s' w' := by
  obtain ⟨entries, hRun, -⟩ :=
    logs_ascribe depth (P := fun _ => True) (fun _ _ => trivial) (a := x) trivial s w
  have hTurns := silent_ascribe depth x s w
  rw [hRun] at hTurns ⊢
  cases s.unification.ascribe depth x with
  | none => exact .inl ⟨_, rfl⟩
  | some u =>
    refine .inr ⟨_, _, rfl, Nat.le_refl _, hTurns, [], rfl, ?_, ?_⟩
    · exact fun c' hc' => absurd hc' List.not_mem_nil
    · exact hSize.symm

/-- A call always succeeds. -/
theorem call_lowers (hSizes : program.Sizes size) (hBounds : program.bounds = [])
    (hProgram : Below w.arena.size program.mentions) {k : Call}
    (hk : Below w.arena.size k.mentions) (s : Session) :
    ∃ s' w', outcome (s.call program k) w = (.ok s', w') ∧
      Lowers program size (.call k) s w s' w' := by
  have hDefinition : ∀ c ∈ program.definition k.definition, c.Proper program w.arena.size :=
    fun c hc => Program.proper_of_mem hProgram (Program.mem_constraints_of_definition hc)
  obtain ⟨cs, v, hRun, -, hGrown, hcs⟩ := CopyM.sure_constraints (s := ⟨.ofCall k, w.arena⟩)
    (program.definition k.definition) (Copier.within_ofCall hk) hDefinition
  have hSum := ((CopyM.asks_constraints _).form hRun).size_eq hSizes
    fun c hc => Program.bound?_eq_none hBounds (hDefinition c hc)
  obtain ⟨w', hUnfold, hArena⟩ := Call.outcome_unfold hRun
  have hTurns := k.silent_unfold program w
  rw [hUnfold] at hTurns
  refine ⟨_, w', outcome_bind_ok hUnfold, hArena ▸ hGrown.size_le, hTurns, cs, rfl, ?_, ?_⟩
  · rw [hArena]
    exact hcs
  · rw [hSizes.ofCall, hSum]
    rfl

/-- **The step lemma.** -/
theorem work_lowers (hSizes : program.Sizes size) (hBounds : program.bounds = [])
    (hProgram : Below w.arena.size program.mentions) (settle : Session → SolveM Session)
    (s : Session) : ∀ c : Constraint, c.Proper program w.arena.size →
      (∃ w', outcome (s.work depth program settle c) w = (.error .tooDeep, w')) ∨
      ∃ s' w', outcome (s.work depth program settle c) w = (.ok s', w') ∧
        Lowers program size c s w s' w'
  | .ascribe x, _ => ascribe_lowers depth (hSizes.ofAscription x) s w
  | .fallback x, _ => ascribe_lowers depth (hSizes.ofFallback x) s w
  | .call _, hc => .inr (call_lowers hSizes hBounds hProgram hc.below s)
  | .require _, hc => by cases Program.bound?_eq_none hBounds hc
  | .scoped c, hc => by
    rcases work_lowers hSizes hBounds hProgram settle s c ⟨hc.below, hc.declared⟩ with
      hDeep | ⟨s', w', hRun, hLowers⟩
    · exact .inl hDeep
    · refine .inr ⟨s', w', hRun, hLowers.grown, hLowers.turns, ?_⟩
      rw [hSizes.ofScoped]
      exact hLowers.joined

-- ---------------------------------------------------------------------------
-- All turns
-- ---------------------------------------------------------------------------

namespace Lowers

variable {c : Constraint} {s' : Session} {w' : World}

/-- Working off a constraint takes one from what is left to do. -/
theorem workload_eq (h : Lowers program size c s w s' w') :
    1 + s'.workload size = size c + s.workload size := by
  obtain ⟨cs, hJoined, -, hSmaller⟩ := h.joined
  have hPerm := ((s.agenda.toList_extend cs).map size).sum_eq
  rw [workload, hJoined, hPerm, List.map_append, List.sum_append, ← hSmaller, Nat.add_assoc]
  rfl

/-- What is on the agenda stays fit for the program. -/
theorem proper (h : Lowers program size c s w s' w')
    (hAgenda : ∀ c ∈ s.agenda.toList, c.Proper program w.arena.size) :
    ∀ c ∈ s'.agenda.toList, c.Proper program w'.arena.size := by
  obtain ⟨cs, hJoined, hcs, -⟩ := h.joined
  intro c' hc'
  rw [hJoined] at hc'
  rcases List.mem_append.mp ((s.agenda.toList_extend cs).mem_iff.mp hc') with hNew | hOld
  · exact hcs c' hNew
  · exact (hAgenda c' hOld).mono h.grown

end Lowers

/-- **The run lemma.** A run that is allowed more turns than its workload ends, after as many
turns, and one that is allowed fewer is cut short; but for unifications that go too deep. -/
theorem runBefore_workload (hSizes : program.Sizes size) (hBounds : program.bounds = [])
    (steps : Nat) {s : Session} {w : World} (hProgram : Below w.arena.size program.mentions)
    (hAgenda : ∀ c ∈ s.agenda.toList, c.Proper program w.arena.size) :
    (∃ w', outcome (runBefore program depth none steps s) w = (.error .tooDeep, w')) ∨
    (steps ≤ s.workload size ∧
      ∃ w', outcome (runBefore program depth none steps s) w = (.error .tooLong, w')) ∨
    (s.workload size < steps ∧
      ∃ s' w', outcome (runBefore program depth none steps s) w = (.ok s', w') ∧
        s'.agenda.toList = [] ∧ w'.turns = w.turns + s.workload size) := by
  induction steps generalizing s w with
  | zero => exact .inr (.inl ⟨Nat.zero_le _, w, rfl⟩)
  | succ steps ih =>
    cases hPop : s.agenda.popBefore none with
    | none =>
      have hEmpty := Agenda.toList_eq_nil hPop
      have hNothing : s.workload size = 0 := by rw [workload, hEmpty]; rfl
      rw [runBefore_done hPop, hNothing]
      exact .inr (.inr ⟨Nat.succ_pos steps, s, w, rfl, hEmpty, rfl⟩)
    | some next =>
      obtain ⟨c, agenda⟩ := next
      have hList := Agenda.toList_of_popBefore hPop
      have hBefore : s.workload size = size c + workload size { s with agenda } := by
        rw [workload, hList]
        exact List.sum_cons
      rw [hList, List.forall_mem_cons] at hAgenda
      rw [runBefore_turn hPop, turn, bind_assoc]
      -- the log says that a constraint has left
      let w₀ : World := { w with log := .event (.run c.stage agenda.size) w.arena.size :: w.log }
      have hLogged : w₀.turns = w.turns + 1 := List.countP_cons_of_pos rfl
      rw [outcome_bind_ok (show outcome (SolveM.emit _) w = (.ok ⟨⟩, w₀) from rfl)]
      rcases work_lowers depth hSizes hBounds (w := w₀) hProgram
        (runBefore program depth (some .bound) steps) { s with agenda } c hAgenda.1 with
        ⟨w', hDeep⟩ | ⟨s₁, w₁, hWork, hLowers⟩
      · exact .inl ⟨w', outcome_bind_error hDeep⟩
      · rw [outcome_bind_ok hWork]
        -- one turn and one unit of workload less on both sides
        have hAfter := hLowers.workload_eq
        have hSame := hLowers.turns
        rcases ih (hProgram.mono hLowers.grown) (hLowers.proper hAgenda.2) with
          hDeep | ⟨hFew, hLong⟩ | ⟨hMore, s', w', hRun, hEmpty, hTurns⟩
        · exact .inl hDeep
        · exact .inr (.inl ⟨by omega, hLong⟩)
        · exact .inr (.inr ⟨by omega, s', w', hRun, hEmpty, by omega⟩)

/--
**A run without bounds and without recursion ends after an exactly known number of turns.**
Let no definition call itself, not even by way of others, let there be no bounds, and let all
points be allocated. If all unifications end that are made in a run, however long it is allowed
to be, then the run ends with nothing left to do, and the number of constraints that have left
the agenda by then is the sum of the sizes of those that were on it. With fewer turns it does
not end.
-/
theorem run_ends_after_workload {rank : Point → Nat} (hRanked : program.Ranked rank)
    (hBounds : program.bounds = []) (hProgram : Below w.arena.size program.mentions)
    (hAgenda : ∀ c ∈ s.agenda.toList, c.bound? = none ∧ Below w.arena.size c.mentions)
    (hReturns : ∀ steps, ∃ depth,
      (outcome (s.run program ⟨steps, depth⟩) w).1 ≠ .error .tooDeep) :
    program.Sizes (program.size rank) ∧
    (∃ depth s' w', (∀ limits : Limits, s.workload (program.size rank) < limits.steps →
        depth ≤ limits.depth → outcome (s.run program limits) w = (.ok s', w')) ∧
      s'.agenda.toList = [] ∧ w'.turns = w.turns + s.workload (program.size rank)) ∧
    ∀ limits : Limits, limits.steps ≤ s.workload (program.size rank) →
      ∀ s' w', outcome (s.run program limits) w ≠ (.ok s', w') := by
  have hSizes := Program.sizes_size hRanked
  have hFit : ∀ c ∈ s.agenda.toList, c.Proper program w.arena.size := fun c hc =>
    ⟨(hAgenda c hc).2, fun b hb => by rw [(hAgenda c hc).1] at hb; cases hb⟩
  refine ⟨hSizes, ?_, fun limits hFew s' w' hRun => ?_⟩
  · -- one turn more than the workload, and deep enough for those turns; higher limits change
    -- nothing
    obtain ⟨depth, hShallow⟩ := hReturns (s.workload (program.size rank) + 1)
    rcases runBefore_workload depth hSizes hBounds _ hProgram hFit with
      ⟨w', hDeep⟩ | ⟨hFew, -⟩ | ⟨-, s', w', hRun, hEmpty, hTurns⟩
    · exact absurd (congrArg Prod.fst hDeep) hShallow
    · exact absurd hFew (Nat.not_succ_le_self _)
    · refine ⟨depth, s', w', fun limits hSteps hDepth => ?_, hEmpty, hTurns⟩
      exact runBefore_extends hDepth hSteps none s w s' w' hRun
  · rcases runBefore_workload limits.depth hSizes hBounds limits.steps hProgram hFit with
      ⟨v, hDeep⟩ | ⟨-, v, hLong⟩ | ⟨hMore, -⟩
    · cases (congrArg Prod.fst hDeep).symm.trans (congrArg Prod.fst hRun)
    · cases (congrArg Prod.fst hLong).symm.trans (congrArg Prod.fst hRun)
    · exact absurd hFew (Nat.not_le_of_lt hMore)

end Session

namespace Program

/-- The definition at point 3 calls the one at point 0 twice. Within its own scope it also calls
itself, which no copy takes over. -/
def doubling : Program where
  definitions := ((∅ : PointMap (List Constraint)).insert ⟨0⟩ [
      .ascribe { node := ⟨1⟩, type := .point ⟨2⟩ },
      .fallback { node := ⟨1⟩, type := .point ⟨0⟩ }]).insert ⟨3⟩ [
    .call (.ofSource ⟨4⟩ ⟨0⟩ ∅),
    .call (.ofSource ⟨5⟩ ⟨0⟩ ∅),
    .scoped (.call (.ofSource ⟨4⟩ ⟨3⟩ ∅))]

/-- Six points; each definition owns the points that it mentions alone. -/
def beforeDoubling : World where
  arena := ⟨([none, some ⟨0⟩, none, none, some ⟨3⟩, some ⟨3⟩].map fun owner =>
    { span := ⟨0, 0⟩, source := "", owner }).toArray⟩

/-- An ascription, and a call that counts for seven. -/
def callingDoubling : Session :=
  .start [] [
    .ascribe { node := ⟨1⟩, type := .point ⟨2⟩ },
    .scoped (.call (.ofSource ⟨2⟩ ⟨3⟩ ∅))]

/-- The call within its own scope does not count. -/
theorem ranked_doubling : doubling.Ranked (·.index) := by
  intro d k hk
  rw [definition, doubling, PointMap.getElem?_insert, PointMap.getElem?_insert] at hk
  split at hk
  · next hd =>
    subst hd
    simp only [Option.getD_some, List.mem_cons, Constraint.call.injEq, reduceCtorEq,
      List.not_mem_nil, or_false] at hk
    rcases hk with rfl | rfl <;> decide
  · split at hk <;> simp at hk

/-- Eight turns are too few and nine are enough, so no number of turns leads too deep. -/
theorem run_doubling_shallow (steps : Nat) :
    (outcome (callingDoubling.run doubling ⟨steps, 3⟩) beforeDoubling).1 ≠ .error .tooDeep := by
  have hFew : ∀ steps < 10,
      (outcome (callingDoubling.run doubling ⟨steps, 3⟩) beforeDoubling).1.map (fun _ => ()) =
        if steps < 9 then .error .tooLong else .ok () := by
    decide +kernel
  intro hDeep
  rcases Nat.lt_or_ge steps 9 with hLess | hMore
  · have hLong := hFew steps (by omega)
    rw [hDeep, if_pos hLess] at hLong
    cases hLong
  · have hEnds := hFew 9 (by decide)
    rcases hRun : outcome (callingDoubling.run doubling ⟨9, 3⟩) beforeDoubling with ⟨e | s', w'⟩
    · rw [hRun] at hEnds
      cases hEnds
    · have hLonger := Session.runBefore_extends (Nat.le_refl 3) hMore none _ _ _ _ hRun
      cases hDeep.symm.trans (congrArg Prod.fst hLonger)

end Program

open Program in
/-- One turn for the ascription, and seven on account of the call. -/
theorem Session.run_ends_after_workload_doubling :
    callingDoubling.agenda.toList.map (doubling.size (·.index)) = [1, 7] ∧
    ∃ depth s' w', (∀ limits : Limits, 8 < limits.steps → depth ≤ limits.depth →
        outcome (callingDoubling.run doubling limits) beforeDoubling = (.ok s', w')) ∧
      s'.agenda.toList = [] ∧ w'.turns = 8 := by
  have hSizes : callingDoubling.agenda.toList.map (doubling.size (·.index)) = [1, 7] := by
    decide +kernel
  have hWorkload : callingDoubling.workload (doubling.size (·.index)) = 8 :=
    congrArg List.sum hSizes
  obtain ⟨-, ⟨depth, s', w', hRuns, hEmpty, hTurns⟩, -⟩ :=
    run_ends_after_workload ranked_doubling (by decide +kernel) (w := beforeDoubling)
      (by decide +kernel) (s := callingDoubling) (by decide +kernel)
      fun steps => ⟨3, run_doubling_shallow steps⟩
  rw [hWorkload] at hRuns hTurns
  exact ⟨hSizes, depth, s', w', hRuns, hEmpty, hTurns⟩

end TraitInference
