import TraitInference.Proofs.Agendas
import TraitInference.Proofs.Effects

/-!
# TraitInference — the turns of a session

A session is worked off in **turns**: one constraint leaves the agenda and is worked off,
others may join, and if a candidate is accepted its fork, on which some have been worked
off already, takes the place of the session. A **chronicle** lists the turns of a run, each
with what it did (`Session.Keeps`, `Session.Calls`, `Session.Accepts`). Every run has one,
whether it ends, halts or is cut short (`Session.exists_chronicle`), and no other run has it
(`Session.Chronicle.outcome_eq`).

Two facts about one turn decide the order of all of them. A bound leaves the agenda only
when nothing waits before it, and neither a fallback nor a bound brings anything of an
earlier stage back: the fork that may take the place of the session was worked off up to
the bounds. So (`Session.run_in_stages`) no constraint that comes before bounds leaves the
agenda after a bound, fallbacks come last of all, and by then whatever else was ever on
the agenda has been worked off.
-/

namespace TraitInference

/-- One turn. -/
structure Turn where
  /-- The constraint that leaves the agenda to be worked off. -/
  popped : Constraint
  /-- The constraints that join the agenda meanwhile. -/
  joined : List Constraint := []
  /-- The constraints worked off on the fork that takes the place of the session. -/
  tried : List Constraint := []

/-- All that is worked off in a turn. -/
def Turn.ran (t : Turn) : List Constraint :=
  t.popped :: t.tried

namespace Session

variable {program : Program} {depth : Nat} {limit : Option Stage}

-- ---------------------------------------------------------------------------
-- Chronicles
-- ---------------------------------------------------------------------------

/-- The constraint `c` leaves the agenda, `agenda` is what remains of it, and this is how
working off `c` ends. -/
structure Takes (program : Program) (depth steps : Nat) (limit : Option Stage) (s : Session)
    (w : World) (c : Constraint) (agenda : Agenda) (result : Except Halt Session) (w' : World) :
    Prop where
  pop  : s.agenda.popBefore limit = some (c, agenda)
  turn : outcome (turn program depth (runBefore program depth (some .bound) steps) c
    { s with agenda }) w = (result, w')

/-- The turns in which the constraints before `limit` are worked off, from a session and
a world to a result and the world it leaves. A turn in which the run halts is listed too. -/
inductive Chronicle (program : Program) (depth : Nat) : Nat → Option Stage → Session → World →
    List Turn → Except Halt Session → World → Prop
  /-- There are no steps left. -/
  | stopped {limit : Option Stage} {s : Session} {w : World} :
      Chronicle program depth 0 limit s w [] (.error .tooLong) w
  | done {steps : Nat} {limit : Option Stage} {s : Session} {w : World}
      (hNone : s.agenda.popBefore limit = none) :
      Chronicle program depth (steps + 1) limit s w [] (.ok s) w
  | halted {steps : Nat} {limit : Option Stage} {s : Session} {w w' : World} {c : Constraint}
      {agenda : Agenda} {e : Halt}
      (hTakes : Takes program depth steps limit s w c agenda (.error e) w') :
      Chronicle program depth (steps + 1) limit s w [{ popped := c }] (.error e) w'
  /-- Nothing joins: an ascription was worked off, or a bound that asked for nothing, stayed
  unresolved or was settled by an assumption. -/
  | kept {steps : Nat} {limit : Option Stage} {s s₁ : Session} {w w₁ w' : World}
      {c : Constraint} {agenda : Agenda} {turns : List Turn} {result : Except Halt Session}
      (hTakes : Takes program depth steps limit s w c agenda (.ok s₁) w₁)
      (hKeeps : Keeps program depth (runBefore program depth (some .bound) steps) { s with agenda }
        c.core (w.noting (.run c.stage agenda.size)) s₁)
      (hRest : Chronicle program depth steps limit s₁ w₁ turns result w') :
      Chronicle program depth (steps + 1) limit s w ({ popped := c } :: turns) result w'
  /-- The copies made for a call join. -/
  | called {steps : Nat} {limit : Option Stage} {s s₁ : Session} {w w₁ w' : World}
      {c : Constraint} {agenda : Agenda} {turns : List Turn} {result : Except Halt Session}
      {cs : List Constraint} (hTakes : Takes program depth steps limit s w c agenda (.ok s₁) w₁)
      (hCalls : Calls program { s with agenda } c.core (w.noting (.run c.stage agenda.size)) cs
        s₁ w₁)
      (hRest : Chronicle program depth steps limit s₁ w₁ turns result w') :
      Chronicle program depth (steps + 1) limit s w ({ popped := c, joined := cs } :: turns)
        result w'
  /-- The copies made for the instance that was chosen joined a fork, what comes before bounds
  was worked off there, and the fork takes the place of the session. -/
  | accepted {steps : Nat} {limit : Option Stage} {s s₁ settled : Session}
      {w w₁ start stop w' : World} {c : Constraint} {agenda : Agenda} {turns onFork : List Turn}
      {result : Except Halt Session} {cs : List Constraint}
      (hTakes : Takes program depth steps limit s w c agenda (.ok s₁) w₁)
      (hAccepts : Accepts program depth (runBefore program depth (some .bound) steps)
        { s with agenda } c.core (w.noting (.run c.stage agenda.size)) cs start settled stop s₁)
      (hFork : Chronicle program depth steps (some .bound)
        { s.fork with agenda := agenda.extend cs } start onFork (.ok settled) stop)
      (hRest : Chronicle program depth steps limit s₁ w₁ turns result w') :
      Chronicle program depth (steps + 1) limit s w
        ({ popped := c, joined := cs ++ onFork.flatMap Turn.joined,
           tried := onFork.flatMap Turn.ran } :: turns) result w'

/-- **Every run has a chronicle.** -/
theorem exists_chronicle (program : Program) (depth steps : Nat) (limit : Option Stage)
    (s : Session) (w : World) : ∃ turns, Chronicle program depth steps limit s w turns
      (outcome (runBefore program depth limit steps s) w).1
      (outcome (runBefore program depth limit steps s) w).2 := by
  induction steps generalizing limit s w with
  | zero => exact ⟨[], .stopped⟩
  | succ steps ih =>
    cases hPop : s.agenda.popBefore limit with
    | none =>
      rw [runBefore_done hPop]
      exact ⟨[], .done hPop⟩
    | some next =>
      obtain ⟨c, agenda⟩ := next
      rw [runBefore_turn hPop]
      -- the turn halts, or the rest has a chronicle with one step less
      rcases hTurn : outcome (turn program depth (runBefore program depth (some .bound) steps) c
        { s with agenda }) w with ⟨e | s₁, w₁⟩
      · rw [outcome_bind_error hTurn]
        exact ⟨_, .halted ⟨hPop, hTurn⟩⟩
      · rw [outcome_bind_ok hTurn]
        have hTakes : Takes program depth steps limit s w c agenda (.ok s₁) w₁ := ⟨hPop, hTurn⟩
        obtain ⟨turns, hRest⟩ := ih limit s₁ w₁
        cases turn_effect hTurn with
        | kept hKeeps => exact ⟨_, .kept hTakes hKeeps hRest⟩
        | called hCalls => exact ⟨_, .called hTakes hCalls hRest⟩
        -- so has the run on the fork that was accepted
        | @accepted cs start stop settled hAccepts =>
          obtain ⟨onFork, hFork⟩ :=
            ih (some .bound) { s.fork with agenda := agenda.extend cs } start
          have hSettled : outcome (runBefore program depth (some .bound) steps
              { s.fork with agenda := agenda.extend cs }) start = (.ok settled, stop) := by
            obtain ⟨-, -, -, -, ⟨-, -, hSettle⟩, -⟩ := hAccepts
            exact hSettle
          rw [hSettled] at hFork
          exact ⟨_, .accepted hTakes hAccepts hFork hRest⟩

/-- **A chronicle tells how its run ends.** -/
theorem Chronicle.outcome_eq {steps : Nat} {s : Session} {w w' : World} {turns : List Turn}
    {result : Except Halt Session}
    (h : Chronicle program depth steps limit s w turns result w') :
    outcome (runBefore program depth limit steps s) w = (result, w') := by
  induction h with
  | stopped => rfl
  | done hNone =>
    rw [runBefore_done hNone]
    rfl
  | halted hTakes => rw [runBefore_turn hTakes.pop, outcome_bind_error hTakes.turn]
  | kept hTakes _ _ ih | called hTakes _ _ ih | accepted hTakes _ _ _ _ ih =>
    rw [runBefore_turn hTakes.pop, outcome_bind_ok hTakes.turn, ih]

-- ---------------------------------------------------------------------------
-- One turn
-- ---------------------------------------------------------------------------

/-- What some turns make of an agenda: each constraint waits in the lane of its stage as
before, and what was there or has joined was worked off or is there. -/
structure Works (turns : List Turn) (q q' : Agenda) : Prop where
  staged  : q.Staged → q'.Staged
  balance : (q.toList ++ turns.flatMap Turn.joined).Perm (turns.flatMap Turn.ran ++ q'.toList)

theorem Works.refl (q : Agenda) : Works [] q q :=
  ⟨id, by rw [List.flatMap_nil, List.append_nil]; rfl⟩

/-- Turns of two runs in a row. -/
theorem Works.trans {turns turns' : List Turn} {q q' q'' : Agenda} (h : Works turns q q')
    (h' : Works turns' q' q'') : Works (turns ++ turns') q q'' where
  staged := h'.staged ∘ h.staged
  balance := by
    rw [List.flatMap_append, List.flatMap_append, ← List.append_assoc,
      List.append_assoc _ _ q''.toList]
    refine (h.balance.append_right _).trans ?_
    rw [List.append_assoc]
    exact h'.balance.append_left _

/-- What one turn makes of an agenda. -/
structure Turned (limit : Option Stage) (t : Turn) (q q' : Agenda) : Prop where
  pop   : ∃ rest, q.popBefore limit = some (t.popped, rest)
  works : Works [t] q q'
  /-- Nothing that comes before a bound or a fallback is left when it was worked off. -/
  clear : q.Staged → Stage.bound.rank ≤ t.popped.stage.rank → q'.ClearBefore t.popped.stage

section Turned

variable {q q' rest : Agenda} {c : Constraint}

/-- A constraint that leaves and others that join make up the agenda. -/
theorem toList_append_perm (hPop : q.popBefore limit = some (c, rest)) (cs : List Constraint) :
    (q.toList ++ cs).Perm (c :: (rest.extend cs).toList) := by
  rw [Agenda.toList_of_popBefore hPop]
  exact (List.perm_append_comm.trans (Agenda.toList_extend rest cs).symm).cons c

variable {settle : Session → SolveM Session} {s s₁ settled : Session}
  {w w₁ start stop : World} {cs : List Constraint}

/-- Nothing joins. -/
theorem turned_kept (hPop : s.agenda.popBefore limit = some (c, rest))
    (hKeeps : Keeps program depth settle { s with agenda := rest } c.core w s₁) :
    Turned limit { popped := c } s.agenda s₁.agenda := by
  rw [hKeeps.agenda_eq]
  exact {
    pop := ⟨rest, hPop⟩
    works := ⟨fun h => h.popBefore hPop, by simp [Turn.ran, Agenda.toList_of_popBefore hPop]⟩
    clear := fun h _ => (h.clearBefore hPop).2 }

/-- What a call unfolds to joins. A call is no bound. -/
theorem turned_called (hPop : s.agenda.popBefore limit = some (c, rest))
    (hCalls : Calls program { s with agenda := rest } c.core w cs s₁ w₁) :
    Turned limit { popped := c, joined := cs } s.agenda s₁.agenda := by
  obtain ⟨hCore, -, rfl⟩ := hCalls
  have hCall : c.stage = .call := by
    rw [← Constraint.stage_core, hCore]
    rfl
  exact {
    pop := ⟨rest, hPop⟩
    works := ⟨fun h => (h.popBefore hPop).extend cs,
      by simpa [Turn.ran] using toList_append_perm hPop cs⟩
    clear := fun _ hLate => absurd (hCall ▸ hLate) (by decide) }

/-- The fork was worked off up to the bounds. -/
theorem turned_accepted {onFork : List Turn} (hPop : s.agenda.popBefore limit = some (c, rest))
    (hAccepts : Accepts program depth settle { s with agenda := rest } c.core w cs start settled
      stop s₁)
    (hWorks : Works onFork (rest.extend cs) settled.agenda)
    (hClear : settled.agenda.ClearBefore .bound) :
    Turned limit { popped := c, joined := cs ++ onFork.flatMap Turn.joined,
                   tried := onFork.flatMap Turn.ran } s.agenda s₁.agenda := by
  rw [hAccepts.agenda_eq]
  obtain ⟨hCore, -⟩ := hAccepts
  have hBound : c.stage = .bound := by
    rw [← Constraint.stage_core, hCore]
    rfl
  exact {
    pop := ⟨rest, hPop⟩
    works := {
      staged := fun h => hWorks.staged ((h.popBefore hPop).extend cs)
      balance := by
        simp only [List.flatMap_cons, List.flatMap_nil, List.append_nil, Turn.ran]
        rw [← List.append_assoc]
        exact ((toList_append_perm hPop cs).append_right _).trans (hWorks.balance.cons c) }
    clear := fun _ _ => hBound ▸ hClear }

end Turned

/-- **What the turns of a run that ends make of the agenda.** -/
theorem Chronicle.works {steps : Nat} {s s' : Session} {w w' : World} {turns : List Turn}
    (h : Chronicle program depth steps limit s w turns (.ok s') w') :
    Works turns s.agenda s'.agenda ∧ s'.agenda.popBefore limit = none := by
  generalize hResult : Except.ok s' = result at h
  induction h generalizing s' with
  | stopped => cases hResult
  | done hNone =>
    obtain rfl := Except.ok.inj hResult
    exact ⟨.refl _, hNone⟩
  | halted => cases hResult
  | kept hTakes hKeeps _ ih =>
    obtain ⟨hWorks, hNone⟩ := ih hResult
    exact ⟨(turned_kept hTakes.pop hKeeps).works.trans hWorks, hNone⟩
  | called hTakes hCalls _ ih =>
    obtain ⟨hWorks, hNone⟩ := ih hResult
    exact ⟨(turned_called hTakes.pop hCalls).works.trans hWorks, hNone⟩
  -- the fork ended when nothing before the bounds was left on it
  | accepted hTakes hAccepts _ _ ihFork ih =>
    obtain ⟨hWorks, hNone⟩ := ih hResult
    obtain ⟨hOnFork, hSettled⟩ := ihFork rfl
    have hTurned := turned_accepted hTakes.pop hAccepts hOnFork
      (Agenda.clearBefore_of_popBefore_none hSettled)
    exact ⟨hTurned.works.trans hWorks, hNone⟩

/-- The first turn: either the run halts in it, or the rest of the chronicle goes on from
what it makes of the agenda. -/
theorem Chronicle.turned {steps : Nat} {s : Session} {w w' : World} {t : Turn}
    {turns : List Turn} {result : Except Halt Session}
    (h : Chronicle program depth steps limit s w (t :: turns) result w') :
    (turns = [] ∧ ∃ rest, s.agenda.popBefore limit = some (t.popped, rest)) ∨
      ∃ steps' s₁ w₁, Turned limit t s.agenda s₁.agenda ∧
        Chronicle program depth steps' limit s₁ w₁ turns result w' := by
  cases h with
  | halted hTakes => exact .inl ⟨rfl, _, hTakes.pop⟩
  | kept hTakes hKeeps hRest => exact .inr ⟨_, _, _, turned_kept hTakes.pop hKeeps, hRest⟩
  | called hTakes hCalls hRest => exact .inr ⟨_, _, _, turned_called hTakes.pop hCalls, hRest⟩
  | accepted hTakes hAccepts hFork hRest =>
    obtain ⟨hOnFork, hSettled⟩ := hFork.works
    have hTurned := turned_accepted hTakes.pop hAccepts hOnFork
      (Agenda.clearBefore_of_popBefore_none hSettled)
    exact .inr ⟨_, _, _, hTurned, hRest⟩

-- ---------------------------------------------------------------------------
-- All turns
-- ---------------------------------------------------------------------------

variable {steps : Nat} {s : Session} {w w' : World} {result : Except Halt Session}

/-- Whatever leaves an agenda with nothing before a bound or a fallback comes no earlier. -/
theorem Chronicle.rank_le {turns : List Turn} {stage : Stage}
    (h : Chronicle program depth steps limit s w turns result w') (hStaged : s.agenda.Staged)
    (hClear : s.agenda.ClearBefore stage) (hLate : Stage.bound.rank ≤ stage.rank) :
    ∀ t ∈ turns, stage.rank ≤ t.popped.stage.rank := by
  induction turns generalizing steps s w stage with
  | nil => exact fun t ht => by cases ht
  | cons t turns ih =>
    have hFirst : ∀ rest, s.agenda.popBefore limit = some (t.popped, rest) →
        stage.rank ≤ t.popped.stage.rank := fun rest hPop =>
      hClear.rank_le (hStaged.mem_lane (Agenda.mem_toList_of_popBefore hPop).1)
    rcases h.turned with ⟨rfl, rest, hPop⟩ | ⟨steps', s₁, w₁, hTurned, hRest⟩
    · simpa using hFirst rest hPop
    · -- the first turn clears what comes before its own stage, which is no earlier than `stage`
      obtain ⟨rest, hPop⟩ := hTurned.pop
      have hLater := hFirst rest hPop
      have hNext := ih hRest (hTurned.works.staged hStaged)
        (hTurned.clear hStaged (hLate.trans hLater)) (hLate.trans hLater)
      intro t' ht'
      rcases List.mem_cons.mp ht' with rfl | hMem
      · exact hLater
      · exact hLater.trans (hNext t' hMem)

/-- **What was worked off in a late stage is followed by nothing of an earlier one.** -/
theorem Chronicle.pairwise {turns : List Turn}
    (h : Chronicle program depth steps limit s w turns result w') (hStaged : s.agenda.Staged) :
    turns.Pairwise fun t t' => Stage.bound.rank ≤ t.popped.stage.rank →
      t.popped.stage.rank ≤ t'.popped.stage.rank := by
  induction turns generalizing steps s w with
  | nil => exact .nil
  | cons t turns ih =>
    rcases h.turned with ⟨rfl, -⟩ | ⟨steps', s₁, w₁, hTurned, hRest⟩
    · exact List.pairwise_singleton _ t
    · have hNext := hTurned.works.staged hStaged
      refine List.pairwise_cons.mpr ⟨fun t' ht' hLate => ?_, ih hRest hNext⟩
      exact hRest.rank_le hNext (hTurned.clear hStaged hLate) hLate t' ht'

/-- **The agenda when a constraint leaves it**: what was there or has joined was worked
off or is there. -/
theorem Chronicle.at_turn {before after : List Turn} {t : Turn}
    (h : Chronicle program depth steps limit s w (before ++ t :: after) result w') :
    ∃ q rest, Works before s.agenda q ∧ q.popBefore limit = some (t.popped, rest) := by
  induction before generalizing steps s w with
  | nil =>
    refine ⟨s.agenda, ?_⟩
    rcases h.turned with ⟨-, rest, hPop⟩ | ⟨_, _, _, hTurned, -⟩
    · exact ⟨rest, .refl _, hPop⟩
    · obtain ⟨rest, hPop⟩ := hTurned.pop
      exact ⟨rest, .refl _, hPop⟩
  | cons t' before ih =>
    rcases h.turned with ⟨hNil, -⟩ | ⟨steps', s₁, w₁, hTurned, hRest⟩
    · simp at hNil
    · obtain ⟨q, rest, hWorks, hPop⟩ := ih hRest
      exact ⟨q, rest, hTurned.works.trans hWorks, hPop⟩

/-- **Everything else has been worked off when a fallback is.** -/
theorem Chronicle.filter_perm {before after : List Turn} {t : Turn}
    (h : Chronicle program depth steps limit s w (before ++ t :: after) result w')
    (hStaged : s.agenda.Staged) (hLast : t.popped.stage = .fallback) :
    ((s.agenda.toList ++ before.flatMap Turn.joined).filter (·.stage ≠ .fallback)).Perm
      ((before.flatMap Turn.ran).filter (·.stage ≠ .fallback)) := by
  obtain ⟨q, rest, hWorks, hPop⟩ := h.at_turn
  -- when a fallback leaves the agenda, nothing but fallbacks is there
  have hLeft : q.toList.filter (·.stage ≠ .fallback) = [] := by
    refine List.filter_eq_nil_iff.mpr fun c hc => ?_
    have hLane := (hWorks.staged hStaged).mem_lane hc
    have hRank := ((hWorks.staged hStaged).clearBefore hPop).1.rank_le hLane
    rw [hLast] at hRank
    cases hStage : c.stage <;> rw [hStage] at hRank <;> revert hRank <;> decide
  have hPerm := hWorks.balance.filter (·.stage ≠ .fallback)
  rwa [List.filter_append (before.flatMap Turn.ran), hLeft, List.append_nil] at hPerm

/-- **Bounds and fallbacks never come too early.** Every run has a chronicle, and whatever
chronicle it has: once a bound has left the agenda, only bounds and fallbacks do, and once a
fallback has, only fallbacks. So whatever else was on the agenda at first or has joined it, by
a call or with an accepted instance, has been worked off when a fallback is, as often as it
was there. This holds of every run: one that ends, one that halts, and every initial part of
one that does not end. -/
theorem run_in_stages {s : Session} (hStaged : s.agenda.Staged) (program : Program)
    (limits : Limits) (w : World) :
    (∃ turns, Chronicle program limits.depth limits.steps none s w turns
      ((s.run program limits).runIn w).1 ((s.run program limits).runIn w).2) ∧
    ∀ turns result w', Chronicle program limits.depth limits.steps none s w turns result w' →
      (s.run program limits).runIn w = (result, w') ∧
      (turns.Pairwise fun t t' =>
        (t.popped.stage = .bound →
          t'.popped.stage = .bound ∨ t'.popped.stage = .fallback) ∧
        (t.popped.stage = .fallback → t'.popped.stage = .fallback)) ∧
      ∀ before t after, turns = before ++ t :: after → t.popped.stage = .fallback →
        ((s.agenda.toList ++ before.flatMap Turn.joined).filter (·.stage ≠ .fallback)).Perm
          ((before.flatMap Turn.ran).filter (·.stage ≠ .fallback)) := by
  refine ⟨exists_chronicle program limits.depth limits.steps none s w, ?_⟩
  intro turns result w' hChronicle
  refine ⟨hChronicle.outcome_eq, ?_, ?_⟩
  · refine (hChronicle.pairwise hStaged).imp fun {t t'} hOrder => ?_
    constructor <;> intro hStage <;> rw [hStage] at hOrder <;>
      cases hStage' : t'.popped.stage <;> rw [hStage'] at hOrder <;> revert hOrder <;> decide
  · rintro before t after rfl hLast
    exact hChronicle.filter_perm hStaged hLast

-- A fallback and a bound join the agenda ahead of a call and an ascription. The call is to the
-- definition at point 2, and there is an instance, at point 4, of the trait at point 1.

def lastFirst : List Constraint :=
  [.fallback { node := ⟨0⟩, type := .con .tuple [] none },
    .require { source := ⟨0⟩, trait := ⟨1⟩, args := ∅, assumed := false, copied := false },
    .call (.ofSource ⟨0⟩ ⟨2⟩ ∅), .ascribe { node := ⟨0⟩, type := .con .block [] none }]

/-- The definition and the instance each say something about a point of their own. -/
def staging : Program where
  definitions := ((∅ : PointMap (List Constraint)).insert ⟨2⟩
      [.ascribe { node := ⟨3⟩, type := .con .block [] none }]).insert ⟨4⟩
    [.ascribe { node := ⟨5⟩, type := .con .tuple [] none }]
  instances := (∅ : PointMap (List Instance)).insert ⟨1⟩ [⟨⟨4⟩, ⟨1⟩, ∅, false, false⟩]

def beforeStaging : World where
  arena := ⟨([none, none, none, some ⟨2⟩, none, some ⟨4⟩].map fun owner =>
    { span := ⟨0, 0⟩, source := "", owner }).toArray⟩

/-- The stages of the constraints that left an agenda, that of a fork included. -/
def stagesRun (w : World) : List Stage :=
  w.log.reverse.filterMap fun entry =>
    match entry with
    | .event (.run stage _) _ => some stage
    | _ => none

/-- The call is unfolded, and the fork of the instance is committed: two points were copied, and
what the instance says was worked off after the bound had left the agenda. -/
theorem run_in_stages_lastFirst :
    (start [] lastFirst).agenda.Staged ∧
    ∃ s w' turns, ((start [] lastFirst).run staging ⟨9, 2⟩).runIn beforeStaging = (.ok s, w') ∧
      s.resolutions.map (·.outcome) = [.resolved ⟨4⟩ false] ∧ w'.arena.size = 8 ∧
      stagesRun w' = [.type, .call, .type, .bound, .type, .fallback] ∧
      Chronicle staging 2 9 none (start [] lastFirst) beforeStaging turns (.ok s) w' ∧
      (turns.Pairwise fun t t' =>
        (t.popped.stage = .bound →
          t'.popped.stage = .bound ∨ t'.popped.stage = .fallback) ∧
        (t.popped.stage = .fallback → t'.popped.stage = .fallback)) ∧
      ∀ before t after, turns = before ++ t :: after → t.popped.stage = .fallback →
        (((start [] lastFirst).agenda.toList ++ before.flatMap Turn.joined).filter
            (·.stage ≠ .fallback)).Perm
          ((before.flatMap Turn.ran).filter (·.stage ≠ .fallback)) := by
  have hStaged : (start [] lastFirst).agenda.Staged := Agenda.staged_empty.extend lastFirst
  have hEnds : (match ((start [] lastFirst).run staging ⟨9, 2⟩).runIn beforeStaging with
      | (.ok s, w') => s.resolutions.map (·.outcome) == [.resolved ⟨4⟩ false] &&
        w'.arena.size == 8 && stagesRun w' == [.type, .call, .type, .bound, .type, .fallback]
      | _ => false) = true := by decide +kernel
  obtain ⟨⟨turns, hChronicle⟩, hAll⟩ := run_in_stages hStaged staging ⟨9, 2⟩ beforeStaging
  split at hEnds
  · rename_i s w' hRun
    simp only [Bool.and_eq_true, beq_iff_eq] at hEnds
    rw [hRun] at hChronicle
    obtain ⟨-, hOrder, hDone⟩ := hAll turns (.ok s) w' hChronicle
    exact ⟨hStaged, s, w', turns, hRun, hEnds.1.1, hEnds.1.2, hEnds.2, hChronicle, hOrder, hDone⟩
  · cases hEnds

end Session

end TraitInference
