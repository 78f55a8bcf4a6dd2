import TraitInference.Proofs.Erasure
import TraitInference.Proofs.Isolation
import TraitInference.Proofs.Limits
import TraitInference.Proofs.Locality
import TraitInference.Proofs.Turns

/-!
# TraitInference — sessions side by side

Two lists of constraints that have no points in common are worked off in one session as
they would be in two: each leaves the agenda in the order it would leave one of its own,
and what is done for one of them happens in a part of the state that the other never
looks at. Here the constraints are ascriptions, fallbacks and one call each, and what the
calls unfold to is taken to stay apart as well; `Session.run_beside` follows the session
that has only the first list along the one that has both.
-/

namespace TraitInference

-- ---------------------------------------------------------------------------
-- Interleaved lists
-- ---------------------------------------------------------------------------

/-- The third list is made of the first two, each of which keeps its order. -/
inductive Interleaved {α : Type} : List α → List α → List α → Prop
  | nil : Interleaved [] [] []
  | left {a : α} {l r m : List α} (h : Interleaved l r m) : Interleaved (a :: l) r (a :: m)
  | right {b : α} {l r m : List α} (h : Interleaved l r m) : Interleaved l (b :: r) (b :: m)

namespace Interleaved

variable {α : Type} {l r m : List α}

theorem symm (h : Interleaved l r m) : Interleaved r l m := by
  induction h with
  | nil => exact .nil
  | left _ ih => exact .right ih
  | right _ ih => exact .left ih

theorem concat (h : Interleaved l r m) (a : α) : Interleaved (l ++ [a]) r (m ++ [a]) := by
  induction h with
  | nil => exact .left .nil
  | left _ ih => exact .left ih
  | right _ ih => exact .right ih

theorem mem (h : Interleaved l r m) {a : α} (ha : a ∈ l) : a ∈ m := by
  induction h with
  | nil => exact ha
  | left _ ih =>
    rcases List.mem_cons.mp ha with rfl | hRest
    · exact List.mem_cons_self
    · exact List.mem_cons_of_mem _ (ih hRest)
  | right _ ih => exact List.mem_cons_of_mem _ (ih ha)

end Interleaved

-- ---------------------------------------------------------------------------
-- Interleaved agendas
-- ---------------------------------------------------------------------------

namespace Agenda

variable {q q₁ q₂ rest : Agenda} {c : Constraint}

/-- In each lane the constraints of two agendas. -/
def Interleaves (q₁ q₂ q : Agenda) : Prop :=
  ∀ s, Interleaved (q₁.lane s) (q₂.lane s) (q.lane s)

theorem Interleaves.symm (h : Interleaves q₁ q₂ q) : Interleaves q₂ q₁ q :=
  fun s => (h s).symm

theorem Interleaves.push (h : Interleaves q₁ q₂ q) (c : Constraint) :
    Interleaves (q₁.push c) q₂ (q.push c) := by
  intro s
  rw [lane_push, lane_push]
  split
  · rename_i hs
    subst hs
    exact (h c.stage).concat c
  · exact h s

/-- What joins the first agenda joins the common one. -/
theorem Interleaves.extend (h : Interleaves q₁ q₂ q) (cs : List Constraint) :
    Interleaves (q₁.extend cs) q₂ (q.extend cs) := by
  unfold Agenda.extend
  induction cs generalizing q₁ q with
  | nil => exact h
  | cons c cs ih => exact ih (h.push c)

/-- A list that is made of two joins as each of them joins its own. -/
theorem Interleaves.extend_both (h : Interleaves q₁ q₂ q) {cs₁ cs₂ cs : List Constraint}
    (hcs : Interleaved cs₁ cs₂ cs) :
    Interleaves (q₁.extend cs₁) (q₂.extend cs₂) (q.extend cs) := by
  unfold Agenda.extend
  induction hcs generalizing q₁ q₂ q with
  | nil => exact h
  | left _ ih => exact ih (h.push _)
  | right _ ih => exact ih (h.symm.push _).symm

/-- **What leaves an interleaved agenda would leave one of the two next.** -/
theorem Interleaves.popBefore (h : Interleaves q₁ q₂ q)
    (hPop : q.popBefore none = some (c, rest)) :
    (∃ rest₁, q₁.popBefore none = some (c, rest₁) ∧ Interleaves rest₁ q₂ rest) ∨
      ∃ rest₂, q₂.popBefore none = some (c, rest₂) ∧ Interleaves q₁ rest₂ rest := by
  obtain ⟨s, -, hEmpty, hLane, hOthers⟩ := popBefore_cases hPop
  have hNone : ∀ s' : Stage, s'.rank < s.rank → q₁.lane s' = [] ∧ q₂.lane s' = [] := by
    intro s' hLess
    have hBoth := h s'
    rw [hEmpty s' hLess] at hBoth
    generalize q₁.lane s' = l₁ at hBoth ⊢
    generalize q₂.lane s' = l₂ at hBoth ⊢
    cases hBoth
    exact ⟨rfl, rfl⟩
  -- the lane from which the constraint leaves begins with that of one of the two
  have hHead := h s
  rw [hLane] at hHead
  generalize hLeft : q₁.lane s = l₁ at hHead
  generalize hRight : q₂.lane s = l₂ at hHead
  cases hHead with
  | left hTail =>
    obtain ⟨rest₁, hPop₁, hLane₁, hOthers₁⟩ :=
      exists_popBefore (fun s' hLess => (hNone s' hLess).1) hLeft
    refine .inl ⟨rest₁, hPop₁, fun s' => ?_⟩
    by_cases hs : s' = s
    · subst hs
      rw [hLane₁, hRight]
      exact hTail
    · rw [hOthers₁ s' hs, hOthers s' hs]
      exact h s'
  | right hTail =>
    obtain ⟨rest₂, hPop₂, hLane₂, hOthers₂⟩ :=
      exists_popBefore (fun s' hLess => (hNone s' hLess).2) hRight
    refine .inr ⟨rest₂, hPop₂, fun s' => ?_⟩
    by_cases hs : s' = s
    · subst hs
      rw [hLane₂, hLeft]
      exact hTail
    · rw [hOthers₂ s' hs, hOthers s' hs]
      exact h s'

/-- Nothing is left for the first agenda when nothing is left. -/
theorem Interleaves.popBefore_eq_none (h : Interleaves q₁ q₂ q) (hPop : q.popBefore none = none) :
    q₁.popBefore none = none := by
  cases hPop₁ : q₁.popBefore none with
  | none => rfl
  | some next =>
    obtain ⟨s, -, -, hLane, -⟩ := popBefore_cases hPop₁
    have hMem := (h s).mem (hLane ▸ List.mem_cons_self)
    rw [lane_eq_nil_of_popBefore hPop rfl] at hMem
    cases hMem

end Agenda

-- ---------------------------------------------------------------------------
-- Ascriptions
-- ---------------------------------------------------------------------------

/-- All points of the ascription are in `R`. -/
structure Ascription.Inside (R : Point → Prop) (a : Ascription) : Prop where
  node : R a.node
  type : a.type.Inside R

/-- An ascription inside `R` does the same to states that are parallel on `R`. -/
theorem Unification.Parallel.ascribe {R : Point → Prop} {u v u' : Unification} {depth : Nat}
    {a : Ascription} (h : Parallel R u v) (ha : a.Inside R)
    (hRun : u.ascribe depth a = some u') : ∃ v', v.ascribe depth a = some v' ∧ Moved R u u' v' := by
  have hUnify {x y : Unification} (hxy : Parallel R x y)
      (hRun : (x.unify depth (.point a.node) a.type).map (·.2) = some u') :
      ∃ v', (y.unify depth (.point a.node) a.type).map (·.2) = some v' ∧ Moved R x u' v' := by
    obtain ⟨⟨notes, x'⟩, hUnified, rfl⟩ := Option.map_eq_some_iff.mp hRun
    obtain ⟨notes', y', hUnified', hMoved⟩ :=
      hxy.unify (Ty.inside_point.mpr ha.node) ha.type hUnified
    exact ⟨y', Option.map_eq_some_iff.mpr ⟨_, hUnified', rfl⟩, hMoved⟩
  obtain ⟨hSame, hOpened⟩ := h.isOpen ha.node
  unfold Unification.ascribe at hRun ⊢
  rw [hSame]
  split at hRun
  · obtain rfl := Option.some.inj hRun
    exact ⟨v, if_pos ‹_›, h.moved⟩
  · rw [if_neg ‹_›]
    split at hRun
    · rw [if_pos ‹_›]
      split at hRun
      · rw [if_pos ‹_›]
        obtain ⟨v', hRun', hMoved⟩ := hUnify hOpened.parallel hRun
        exact ⟨v', hRun', hOpened.trans hMoved⟩
      · rw [if_neg ‹_›]
        obtain rfl := Option.some.inj hRun
        exact ⟨_, rfl, hOpened⟩
    · rw [if_neg ‹_›]
      exact hUnify h hRun

-- ---------------------------------------------------------------------------
-- Calls
-- ---------------------------------------------------------------------------

/-- An ascription or a fallback inside `R`. -/
inductive Constraint.Plain (R : Point → Prop) : Constraint → Prop
  | ascribe {a : Ascription} (h : a.Inside R) : Plain R (.ascribe a)
  | fallback {a : Ascription} (h : a.Inside R) : Plain R (.fallback a)

/-- Wherever the call is unfolded on the way from one arena to another, what it unfolds to
is plain and inside `R`. -/
def Call.KeepsTo (program : Program) (a b : Arena) (R : Point → Prop) (k : Call) : Prop :=
  ∀ (w w' : World) (cs : List Constraint) (copier : Copier), a.Grown w.arena →
    outcome (k.unfold program) w = (.ok (cs, copier), w') → w'.arena.Grown b →
    ∀ c ∈ cs, c.Plain R

namespace Session

variable {program : Program} {depth : Nat}

-- ---------------------------------------------------------------------------
-- One turn of one of two
-- ---------------------------------------------------------------------------

/-- A turn with a plain constraint. -/
theorem turn_plain (program : Program) (depth : Nat) (settle : Session → SolveM Session)
    {R : Point → Prop} {c : Constraint} (hc : c.Plain R) :
    ∃ a : Ascription, a.Inside R ∧ ∀ s : Session,
      SolveM.OnlyLogs (turn program depth settle c s)
        (s.withState (s.unification.ascribe depth a)) := by
  cases hc with
  | @ascribe a ha | @fallback a ha =>
    exact ⟨a, ha, fun s => (SolveM.logs_emit trivial).bind
      (logs_ascribe depth (fun _ _ => trivial) trivial s)⟩

/-- What is plain is not kept with the calls. -/
theorem stage_ne_call_of_plain {R : Point → Prop} {c : Constraint} (hc : c.Plain R) :
    c.stage ≠ .call := by
  cases hc with
  | ascribe =>
    unfold Constraint.stage
    split <;> simp
  | fallback => simp [Constraint.stage]

/-- A turn with a call: what it unfolds to joins, and it unfolds to the same for any session
in the same arena. -/
theorem turn_call {settle : Session → SolveM Session} {k : Call} {s s₁ : Session} {w w₁ : World}
    (hRun : outcome (turn program depth settle (.call k) s) w = (.ok s₁, w₁)) :
    ∃ w₀ cs copier, w₀.arena = w.arena ∧ w.arena.Grown w₁.arena ∧
      outcome (k.unfold program) w₀ = (.ok (cs, copier), w₁) ∧
      s₁ = { s with agenda := s.agenda.extend cs } ∧
      ∀ (t : Session) (v : World), v.arena = w.arena → ∃ v₁, v₁.arena = w₁.arena ∧
        outcome (turn program depth settle (.call k) t) v =
          (.ok { t with agenda := t.agenda.extend cs }, v₁) := by
  obtain ⟨_, w₀, hEmit, hCall⟩ := outcome_bind_eq_ok.mp hRun
  have hStart : w₀.arena = w.arena := by rw [← (Prod.mk.inj hEmit).2]
  obtain ⟨⟨cs, copier⟩, w₂, hUnfold, hPure⟩ := outcome_bind_eq_ok.mp hCall
  obtain ⟨hOk, rfl⟩ := Prod.mk.inj hPure
  have hGrows := Call.grown_unfold hUnfold
  rw [hStart] at hGrows
  refine ⟨w₀, cs, copier, hStart, hGrows, hUnfold, (Except.ok.inj hOk).symm, fun t v hArena => ?_⟩
  -- the logs of the two sessions may differ, but unfolding does not read them
  have hLogged : ∀ log, ({ v with log } : World).arena = w₀.arena :=
    fun _ => hArena.trans hStart.symm
  obtain ⟨v₁, hUnfold', hArena'⟩ := Call.unfold_of_arena_eq (hLogged _) hUnfold
  exact ⟨v₁, hArena', (outcome_bind_ok rfl).trans (outcome_bind_ok hUnfold')⟩

/-- A session `s'` works off what `s` does, interleaved with what is on the agenda `q`, and
the two have nothing in common. -/
structure Beside (R₁ R₂ : Point → Prop) (k₁ k₂ : Call) (s : Session) (q : Agenda) (s' : Session) :
    Prop where
  agenda   : Agenda.Interleaves s.agenda q s'.agenda
  staged   : s.agenda.Staged
  first    : ∀ c ∈ s.agenda.toList, c.Plain R₁ ∨ c = .call k₁
  second   : ∀ c ∈ q.toList, c.Plain R₂ ∨ c = .call k₂
  once     : (s.agenda.lane .call).length ≤ 1
  parallel : Unification.Parallel R₁ s'.unification s.unification
  closed   : Unification.Closed R₂ s'.unification

section Beside

variable {R₁ R₂ : Point → Prop} {k₁ k₂ : Call} {s s' t' : Session} {q rest rest' : Agenda}
  {c : Constraint} {settle : Session → SolveM Session} {w w₁ : World}

/-- An ascription of the first list: both sessions work it off. -/
theorem Beside.plain_first (h : Beside R₁ R₂ k₁ k₂ s q s') (hApart : ∀ p, R₁ p → ¬ R₂ p)
    (hPop : s.agenda.popBefore none = some (c, rest)) (hAgenda : Agenda.Interleaves rest q rest')
    (hc : c.Plain R₁)
    (hRun : outcome (turn program depth settle c { s' with agenda := rest' }) w = (.ok t', w₁)) :
    ∃ t : Session, SolveM.OnlyLogs (turn program depth settle c { s with agenda := rest }) (.ok t) ∧
      Beside R₁ R₂ k₁ k₂ t q t' ∧ t.agenda.lane .call = s.agenda.lane .call ∧
      w₁.arena = w.arena := by
  obtain ⟨a, ha, hTurn⟩ := turn_plain program depth settle hc
  obtain ⟨hOk, hArena⟩ := (hTurn { s' with agenda := rest' }).of_outcome hRun
  obtain ⟨u', hAscribed, rfl⟩ := unification_of_withState hOk.symm
  obtain ⟨v', hAscribed', hMoved⟩ := h.parallel.ascribe ha hAscribed
  have hFirst := hTurn { s with agenda := rest }
  have hState : Unification.ascribe depth a s.unification = some v' := hAscribed'
  rw [hState] at hFirst
  have hLane := (h.staged.lane_of_popBefore hPop).2 .call (stage_ne_call_of_plain hc).symm
  refine ⟨{ s with unification := v', agenda := rest }, hFirst, ?_, hLane, hArena⟩
  exact {
    agenda := hAgenda
    staged := h.staged.popBefore hPop
    first := fun x hx => h.first x ((Agenda.mem_toList_of_popBefore hPop).2 x hx)
    second := h.second
    once := by
      show (rest.lane .call).length ≤ 1
      rw [hLane]
      exact h.once
    parallel := hMoved.parallel
    closed := (hMoved.outside.mono fun p hp hp' => hApart p hp' hp).closed h.closed }

/-- The call of the first list, in arenas that are the same. -/
theorem Beside.call_first (h : Beside R₁ R₂ k₁ k₂ s q s')
    (hPop : s.agenda.popBefore none = some (.call k₁, rest))
    (hAgenda : Agenda.Interleaves rest q rest') {cs : List Constraint}
    (hcs : ∀ c ∈ cs, c.Plain R₁) :
    s.agenda.lane .call ≠ [] ∧ (rest.extend cs).lane .call = [] ∧
      Beside R₁ R₂ k₁ k₂ { s with agenda := rest.extend cs } q
        { s' with agenda := rest'.extend cs } := by
  obtain ⟨hLane, -⟩ := h.staged.lane_of_popBefore hPop
  have hLane : s.agenda.lane .call = .call k₁ :: rest.lane .call := hLane
  have hOnce := h.once
  -- there was one call, and it has left
  have hLast : rest.lane .call = [] := by
    rw [hLane, List.length_cons] at hOnce
    exact List.eq_nil_of_length_eq_zero (by omega)
  have hEmpty : (rest.extend cs).lane .call = [] := by
    rw [Agenda.lane_extend, hLast, List.nil_append, List.filter_eq_nil_iff]
    intro c hc
    simpa using stage_ne_call_of_plain (hcs c hc)
  refine ⟨by rw [hLane]; simp, hEmpty, ?_⟩
  exact {
    agenda := hAgenda.extend cs
    staged := (h.staged.popBefore hPop).extend cs
    first := fun x hx => by
      rcases List.mem_append.mp ((rest.toList_extend cs).mem_iff.mp hx) with hNew | hOld
      · exact .inl (hcs x hNew)
      · exact h.first x ((Agenda.mem_toList_of_popBefore hPop).2 x hOld)
    second := h.second
    once := by
      show ((rest.extend cs).lane .call).length ≤ 1
      rw [hEmpty]
      exact Nat.zero_le 1
    parallel := h.parallel
    closed := h.closed }

/-- An ascription of the second list: the first session takes no notice of it. -/
theorem Beside.plain_second (h : Beside R₁ R₂ k₁ k₂ s q s') (hApart : ∀ p, R₁ p → ¬ R₂ p)
    (hPop : q.popBefore none = some (c, rest)) (hAgenda : Agenda.Interleaves s.agenda rest rest')
    (hc : c.Plain R₂)
    (hRun : outcome (turn program depth settle c { s' with agenda := rest' }) w = (.ok t', w₁)) :
    Beside R₁ R₂ k₁ k₂ s rest t' ∧ w₁.arena = w.arena := by
  obtain ⟨a, ha, hTurn⟩ := turn_plain program depth settle hc
  obtain ⟨hOk, hArena⟩ := (hTurn { s' with agenda := rest' }).of_outcome hRun
  obtain ⟨u', hAscribed, rfl⟩ := unification_of_withState hOk.symm
  -- the common session, seen from the second list, runs beside itself
  have hSelf : Unification.Parallel R₂ s'.unification s'.unification :=
    ⟨h.closed, .refl _, h.parallel.left, h.parallel.left⟩
  obtain ⟨_, -, hMoved⟩ := hSelf.ascribe ha hAscribed
  have hKept : Unification.AgreeOn R₁ s'.unification u' := hMoved.outside.mono hApart
  refine ⟨?_, hArena⟩
  exact {
    agenda := hAgenda
    staged := h.staged
    first := h.first
    second := fun x hx => h.second x ((Agenda.mem_toList_of_popBefore hPop).2 x hx)
    once := h.once
    parallel := ⟨hKept.closed h.parallel.closed, hKept.symm.trans h.parallel.agree,
      hMoved.parallel.left, h.parallel.right⟩
    closed := hMoved.parallel.closed }

/-- The call of the second list. -/
theorem Beside.call_second (h : Beside R₁ R₂ k₁ k₂ s q s')
    (hPop : q.popBefore none = some (c, rest)) (hAgenda : Agenda.Interleaves s.agenda rest rest')
    {cs : List Constraint} (hcs : ∀ c ∈ cs, c.Plain R₂) :
    Beside R₁ R₂ k₁ k₂ s (rest.extend cs) { s' with agenda := rest'.extend cs } where
  agenda := (hAgenda.symm.extend cs).symm
  staged := h.staged
  first := h.first
  second x hx := by
    rcases List.mem_append.mp ((rest.toList_extend cs).mem_iff.mp hx) with hNew | hOld
    · exact .inl (hcs x hNew)
    · exact h.second x ((Agenda.mem_toList_of_popBefore hPop).2 x hOld)
  once := h.once
  parallel := h.parallel
  closed := h.closed

-- ---------------------------------------------------------------------------
-- A whole run
-- ---------------------------------------------------------------------------

/-- The session ends in a state parallel to `u'`, if it starts in the arena `c`. All that it
does to the arena is the work of its call; without that call any arena will do. -/
def EndsAlong (program : Program) (depth steps : Nat) (R : Point → Prop) (k : Call) (b : Arena)
    (u' : Unification) (c : Arena) (s : Session) : Prop :=
  ∀ v : World, (s.agenda.lane .call ≠ [] → v.arena = c) →
    ∃ t v', outcome (runBefore program depth none steps s) v = (.ok t, v') ∧
      Unification.Parallel R u' t.unification ∧
      (s.agenda.lane .call = [] → v'.arena = v.arena) ∧
      (s.agenda.lane .call ≠ [] → v'.arena.Grown b ∧ ∃ w₀ result w₁,
        outcome (k.unfold program) w₀ = (.ok result, w₁) ∧ w₀.arena = c ∧ w₁.arena = v'.arena)

variable {steps : Nat} {b d : Arena} {u' : Unification} {t : Session}

/-- A session with nothing left to do. -/
theorem endsAlong_done (hPop : s.agenda.popBefore none = none)
    (hParallel : Unification.Parallel R₁ u' s.unification) :
    EndsAlong program depth (steps + 1) R₁ k₁ b u' d s := by
  intro v _
  refine ⟨s, v, ?_, hParallel, fun _ => rfl, fun hCall => ?_⟩
  · rw [runBefore_done hPop]
    rfl
  · exact absurd (Agenda.lane_eq_nil_of_popBefore hPop rfl) hCall

/-- A turn of the other list costs the first session nothing but a step of its limit. -/
theorem EndsAlong.wait (h : EndsAlong program depth steps R₁ k₁ b u' d s) :
    EndsAlong program depth (steps + 1) R₁ k₁ b u' d s := by
  intro v hv
  obtain ⟨t, v', hRun, hEnd⟩ := h v hv
  exact ⟨t, v', runBefore_extends (Nat.le_refl depth) (Nat.le_succ steps) none s v t v' hRun, hEnd⟩

/-- A turn with a plain constraint, which leaves the arena as it is. -/
theorem EndsAlong.plain (h : EndsAlong program depth steps R₁ k₁ b u' d t)
    (hPop : s.agenda.popBefore none = some (c, rest))
    (hTurn : SolveM.OnlyLogs (turn program depth (runBefore program depth (some .bound) steps) c
      { s with agenda := rest }) (.ok t))
    (hLane : t.agenda.lane .call = s.agenda.lane .call) :
    EndsAlong program depth (steps + 1) R₁ k₁ b u' d s := by
  unfold EndsAlong at h
  rw [hLane] at h
  intro v hv
  obtain ⟨entries, hFirst, -⟩ := hTurn v
  obtain ⟨t', v', hRun, hEnd⟩ := h { v with log := entries ++ v.log } hv
  refine ⟨t', v', ?_, hEnd⟩
  rw [runBefore_turn hPop]
  exact (outcome_bind_ok hFirst).trans hRun

/-- Once the call is worked off, the arena stays as it is. -/
theorem EndsAlong.call (h : EndsAlong program depth steps R₁ k₁ b u' d t)
    (hPop : s.agenda.popBefore none = some (c, rest)) (hPending : s.agenda.lane .call ≠ [])
    (hEmpty : t.agenda.lane .call = [])
    (hTurn : ∀ v : World, v.arena = w.arena → ∃ v₁, v₁.arena = w₁.arena ∧
      outcome (turn program depth (runBefore program depth (some .bound) steps) c
        { s with agenda := rest }) v = (.ok t, v₁))
    {w₀ : World} {result : List Constraint × Copier}
    (hUnfold : outcome (k₁.unfold program) w₀ = (.ok result, w₁)) (hArena : w₀.arena = w.arena)
    (hGrown : w₁.arena.Grown b) :
    EndsAlong program depth (steps + 1) R₁ k₁ b u' w.arena s := by
  intro v hv
  obtain ⟨v₁, hArena₁, hFirst⟩ := hTurn v (hv hPending)
  obtain ⟨t', v', hRun, hParallel, hSame, -⟩ := h v₁ fun hCall => absurd hEmpty hCall
  have hLast : w₁.arena = v'.arena := (hSame hEmpty |>.trans hArena₁).symm
  refine ⟨t', v', ?_, hParallel, fun hNone => absurd hNone hPending, fun _ => ?_⟩
  · rw [runBefore_turn hPop]
    exact (outcome_bind_ok hFirst).trans hRun
  · exact ⟨hLast ▸ hGrown, w₀, result, w₁, hUnfold, hArena, hLast⟩

/--
**A session that works off two lists contains one that works off the first of them.** The
smaller one has to start in an arena `c` in which the larger one is at some time: when it
works off the call of the first list, so that the copies get the same numbers.
-/
theorem run_beside (hApart : ∀ p, R₁ p → ¬ R₂ p) {a : Arena}
    (hKeeps₁ : k₁.KeepsTo program a b R₁) (hKeeps₂ : k₂.KeepsTo program a b R₂) (steps : Nat)
    {w' : World} (h : Beside R₁ R₂ k₁ k₂ s q s') (hGrown : a.Grown w.arena)
    (hRun : outcome (runBefore program depth none steps s') w = (.ok t', w'))
    (hEnd : w'.arena.Grown b) :
    ∃ c : Arena, a.Grown c ∧ EndsAlong program depth steps R₁ k₁ b t'.unification c s := by
  induction steps generalizing s s' q w with
  | zero => cases hRun
  | succ steps ih =>
    cases hPop : s'.agenda.popBefore none with
    | none =>
      rw [runBefore_done hPop] at hRun
      obtain ⟨hOk, rfl⟩ := Prod.mk.inj hRun
      obtain rfl := Except.ok.inj hOk
      exact ⟨a, .refl, endsAlong_done (h.agenda.popBefore_eq_none hPop) h.parallel⟩
    | some next =>
      obtain ⟨c, rest'⟩ := next
      rw [runBefore_turn hPop] at hRun
      obtain ⟨s₁', w₁, hTurn, hLater⟩ := outcome_bind_eq_ok.mp hRun
      have hRest : w₁.arena.Grown b := (grown_runBefore hLater).trans hEnd
      rcases h.agenda.popBefore hPop with ⟨rest, hPop₁, hAgenda⟩ | ⟨rest, hPop₂, hAgenda⟩
      · -- both sessions take the turn
        rcases h.first c (Agenda.mem_toList_of_popBefore hPop₁).1 with hc | rfl
        · obtain ⟨t, hLogs, hNext, hLane, hArena⟩ := h.plain_first hApart hPop₁ hAgenda hc hTurn
          obtain ⟨d, hd, hAlong⟩ := ih hNext (hArena ▸ hGrown) hLater
          exact ⟨d, hd, hAlong.plain hPop₁ hLogs hLane⟩
        · obtain ⟨w₀, cs, copier, hArena, hGrows, hUnfold, rfl, hAny⟩ := turn_call hTurn
          have hcs := hKeeps₁ w₀ w₁ cs copier (hArena ▸ hGrown) hUnfold hRest
          obtain ⟨hPending, hEmpty, hNext⟩ := h.call_first hPop₁ hAgenda hcs
          obtain ⟨_, _, hAlong⟩ := ih hNext (hGrown.trans hGrows) hLater
          exact ⟨w.arena, hGrown, hAlong.call hPop₁ hPending hEmpty
            (hAny { s with agenda := rest }) hUnfold hArena hRest⟩
      · -- the turn belongs to the second list: the first session waits
        rcases h.second c (Agenda.mem_toList_of_popBefore hPop₂).1 with hc | rfl
        · obtain ⟨hNext, hArena⟩ := h.plain_second hApart hPop₂ hAgenda hc hTurn
          obtain ⟨d, hd, hAlong⟩ := ih hNext (hArena ▸ hGrown) hLater
          exact ⟨d, hd, hAlong.wait⟩
        · obtain ⟨w₀, cs, copier, hArena, hGrows, hUnfold, rfl, -⟩ := turn_call hTurn
          have hcs := hKeeps₂ w₀ w₁ cs copier (hArena ▸ hGrown) hUnfold hRest
          obtain ⟨d, hd, hAlong⟩ :=
            ih (h.call_second hPop₂ hAgenda hcs) (hGrown.trans hGrows) hLater
          exact ⟨d, hd, hAlong.wait⟩

end Beside

end Session

end TraitInference
