import TraitInference.Proofs.Evolution

/-!
# TraitInference — what a session books about its bounds

A bound that is worked off leaves two traces. Its types are put aside for the end of the
session, and unless an assumption settled it, what became of it is recorded together with
the place at which its types are. This module says that the books agree, whatever happens:

* `Session.Unbooked` — nothing is put aside or recorded. This is so for all that comes before
  the bounds (`Session.unbooked_runBefore`), and so for the forks on which instances are tried.
* `Session.Booked` — one bound is put aside and possibly recorded.
* `Session.Tidy` — what is recorded points to its own types, and later records to later
  places.
* `Session.bounds_are_booked` — every state that can be reached is tidy, and every bound that
  is worked off is booked.
-/

namespace TraitInference

namespace Unification

variable {depth : Nat} {u u' : Unification}

/-- Unifications put nothing aside. -/
theorem Reachable.deferred_unifyAll {eqs : List (Ty × Ty)} (hu : u.Reachable)
    (hRun : u.unifyAll depth eqs = some u') : u'.Reachable ∧ u'.deferred = u.deferred := by
  refine unifyAll_induction (P := fun v => v.Reachable ∧ v.deferred = u.deferred) ⟨hu, rfl⟩ hRun ?_
  rintro eq - v v' notes ⟨hv, hSame⟩ hUnify
  exact ⟨.unify hv hUnify, (hv.deferred_unify hUnify).trans hSame⟩

/-- Neither does an ascription. -/
theorem Reachable.deferred_ascribe {a : Ascription} (hu : u.Reachable)
    (hRun : u.ascribe depth a = some u') : u'.Reachable ∧ u'.deferred = u.deferred := by
  refine ascribe_induction (P := fun v => v.Reachable ∧ v.deferred = u.deferred) ⟨hu, rfl⟩ hRun
    (fun _ => ⟨.isOpen hu a.node, ?_⟩) ?_
  · rw [isOpen_snd]
    rfl
  · rintro v v' notes ⟨hv, hSame⟩ hUnify
    exact ⟨.unify hv hUnify, (hv.deferred_unify hUnify).trans hSame⟩

end Unification

namespace Session

-- ---------------------------------------------------------------------------
-- Turns that book nothing
-- ---------------------------------------------------------------------------

/-- Nothing was put aside or recorded on the way. -/
structure Unbooked (s s' : Session) : Prop where
  reachable   : s'.unification.Reachable
  staged      : s.agenda.Staged → s'.agenda.Staged
  deferred    : s'.unification.deferred = s.unification.deferred
  resolutions : s'.resolutions = s.resolutions

theorem Unbooked.refl {s : Session} (hs : s.unification.Reachable) : Unbooked s s :=
  ⟨hs, id, rfl, rfl⟩

/-- What is booked nowhere on the way is not booked at all. -/
theorem Unbooked.trans {s s' s'' : Session} (h : Unbooked s s') (h' : Unbooked s' s'') :
    Unbooked s s'' where
  reachable := h'.reachable
  staged hs := h'.staged (h.staged hs)
  deferred := h'.deferred.trans h.deferred
  resolutions := h'.resolutions.trans h.resolutions

variable {program : Program} {depth : Nat} {settle : Session → SolveM Session} {s s' : Session}

/-- To join the agenda is not to be worked off. -/
theorem Unbooked.extend (hs : s.unification.Reachable) (cs : List Constraint) :
    Unbooked s { s with agenda := s.agenda.extend cs } :=
  ⟨hs, fun hStaged => hStaged.extend cs, rfl, rfl⟩

theorem Unbooked.pop {limit : Option Stage} {c : Constraint} {agenda : Agenda}
    (hs : s.unification.Reachable) (hPop : s.agenda.popBefore limit = some (c, agenda)) :
    Unbooked s { s with agenda } :=
  ⟨hs, fun hStaged => hStaged.popBefore hPop, rfl, rfl⟩

/-- **What is no bound, or asks for nothing, books nothing.** -/
theorem Effect.unbooked {c : Constraint} {w w' : World}
    (h : Effect program depth settle s c w s' w') (hs : s.unification.Reachable)
    (hNot : ∀ b, c = .require b → ¬ Sought b) : Unbooked s s' := by
  cases h with
  | kept hKeeps =>
    cases hKeeps with
    | ascribed _ hState hEq =>
      obtain ⟨hu, hDeferred⟩ := hs.deferred_ascribe hState
      rw [hEq]
      exact ⟨hu, id, hDeferred, rfl⟩
    | skipped _ _ hEq =>
      rw [hEq]
      exact .refl hs
    | unresolved hCore hSought | assumed hCore hSought => exact absurd hSought (hNot _ hCore)
  | called hCalls =>
    obtain ⟨-, -, rfl⟩ := hCalls
    exact .extend hs _
  | accepted hAccepts =>
    obtain ⟨hCore, hSought, -⟩ := hAccepts
    exact absurd hSought (hNot _ hCore)

/-- What leaves the agenda before the bounds is no bound. -/
theorem core_ne_require {c : Constraint} {q rest : Agenda} (hStaged : q.Staged)
    (hPop : q.popBefore (some .bound) = some (c, rest)) (b : Bound) : c.core ≠ .require b := by
  intro hCore
  obtain ⟨stage, hBefore, -, hLane, -⟩ := Agenda.popBefore_cases hPop
  obtain rfl := hStaged stage c (hLane ▸ List.mem_cons_self)
  have hBound : c.stage = .bound := by
    rw [← Constraint.stage_core, hCore]
    rfl
  rw [hBound] at hBefore
  exact absurd hBefore (by decide)

/-- **Nothing is booked before the bounds.** -/
theorem unbooked_runBefore (program : Program) (depth steps : Nat) (a : Arena) :
    Leads a (fun s => s.unification.Reachable ∧ s.agenda.Staged) Unbooked
      (runBefore program depth (some .bound) steps) := by
  have hCarries : Carries program depth a (· = some .bound)
      (fun s => s.unification.Reachable ∧ s.agenda.Staged) Unbooked :=
    { bound := rfl
      refl := fun hs => .refl hs.1
      trans := fun h h' => h.trans h'
      turn := fun {_ _ s s' c agenda _ _} hLimit _ hs _ hPop hEffect => ?turn }
  case turn =>
    -- trials of bounds do not come up, for no bound is worked off here
    subst hLimit
    have hPopped := Unbooked.pop hs.1 hPop
    have hTurn : Unbooked s s' := hPopped.trans
      (hEffect.unbooked hPopped.reachable fun b hCore => absurd hCore (core_ne_require hs.2 hPop b))
    exact ⟨⟨hTurn.reachable, hTurn.staged hs.2⟩, hTurn⟩
  exact hCarries.runBefore steps rfl

-- ---------------------------------------------------------------------------
-- Bounds
-- ---------------------------------------------------------------------------

/-- The bound `b` was worked off: its types are put aside, and `new` is recorded if it is
anything. If it stays unresolved nothing else has changed; if it is resolved, and has no types
to infer, there is no new error. -/
structure Booked (s : Session) (b : Bound) (new : Option Outcome) (s' : Session) : Prop where
  reachable   : s'.unification.Reachable
  staged      : s'.agenda.Staged
  deferred    : s'.unification.deferred = s.unification.deferred ++ [b.args]
  resolutions : s'.resolutions =
    s.resolutions ++ (new.map fun o => ⟨b, s.unification.deferred.length, o⟩).toList
  unresolved  : new = some .unresolved → s' =
    { s with
      unification := { s.unification with deferred := s'.unification.deferred }
      resolutions := s'.resolutions }
  resolved    : new ≠ some .unresolved → b.args.inferred = ∅ →
    s'.unification.hasError = s.unification.hasError

/-- A bound is closed on a session that has booked nothing since. -/
theorem booked_close {s s₁ : Session} {b : Bound} {new : Option Outcome} (h : Unbooked s s₁)
    (hStaged : s.agenda.Staged) (hUnresolved : new = some .unresolved → s₁ = s)
    (hResolved : b.args.inferred = ∅ → s₁.unification.hasError = s.unification.hasError) :
    Booked s b new (s₁.close b new) where
  reachable := .defer h.reachable b.args
  staged := h.staged hStaged
  deferred := congrArg (· ++ [b.args]) h.deferred
  resolutions := by
    rw [← h.deferred, ← h.resolutions]
    rfl
  unresolved hNew := by
    rw [hUnresolved hNew]
    rfl
  resolved _ := hResolved

/-- Going on with a fork on which nothing was booked. A bound that infers nothing has no slots
to unify what was found with. -/
theorem Adopts.booked {b : Bound} {tier : Tier} {i : Instance} {branch : Session}
    {args found : Substitution} {u u' : Unification}
    (h : Adopts depth b tier i s branch args u found u' s') (hs : s.unification.Reachable)
    (hStaged : s.agenda.Staged) (hBranch : Unbooked s.fork branch) :
    Booked s b (tier.outcome i) s' := by
  obtain ⟨hu, hMatched⟩ :=
    hBranch.reachable.deferred_unifyAll (Unification.matchArgs_ok h.matched).1
  have hCommit : (s.unification.commit u).Reachable := .commit hs hu
  obtain ⟨hu', hAdopted⟩ := hCommit.deferred_unifyAll h.adopted
  have hFork : Unbooked s { branch with unification := u' } :=
    ⟨hu', hBranch.staged, hAdopted.trans (hMatched.trans hBranch.deferred), hBranch.resolutions⟩
  rw [h.closed]
  refine booked_close hFork hStaged (fun hNew => ?_) fun hNone => ?_
  · unfold Tier.outcome at hNew
    split at hNew <;> cases hNew
  · -- nothing to infer, so nothing is unified after the commit
    have hSlots : b.slots found.toList = [] := by
      refine List.eq_nil_iff_forall_not_mem.mpr fun eq hEq => ?_
      obtain ⟨q, -, hSlot⟩ := Bound.mem_slots.mp hEq
      rw [hNone] at hSlot
      simp at hSlot
    have hSame : s.unification.commit u = u' := by
      have hRun := h.adopted
      rw [hSlots] at hRun
      exact Option.some.inj hRun
    show u'.hasError = s.unification.hasError
    rw [← hSame]
    show (u.hasError || s.unification.hasError) = _
    rw [h.fits, Bool.false_or]

/-- **A bound that is worked off and asks for something is booked.** -/
theorem Effect.booked {steps : Nat} {b : Bound} {w w' : World}
    (h : Effect program depth (runBefore program depth (some .bound) steps) s (.require b) w s' w')
    (hs : s.unification.Reachable) (hStaged : s.agenda.Staged) (hSought : Sought b) :
    ∃ new, Booked s b new s' := by
  have hFork : s.fork.unification.Reachable := .fork hs
  cases h with
  | kept hKeeps =>
    cases hKeeps with
    | ascribed hCore => rcases hCore with hCore | hCore <;> cases hCore
    | skipped hCore hNot =>
      obtain rfl := Constraint.require.inj hCore
      exact absurd hSought hNot
    | unresolved hCore _ _ hEq =>
      obtain rfl := Constraint.require.inj hCore
      rw [hEq]
      exact ⟨_, booked_close (.refl hs) hStaged (fun _ => rfl) fun _ => rfl⟩
    | assumed hCore _ _ hAdopts =>
      obtain rfl := Constraint.require.inj hCore
      exact ⟨_, hAdopts.booked hs hStaged (.refl hFork)⟩
  | called hCalls =>
    obtain ⟨hCore, -⟩ := hCalls
    cases hCore
  | accepted hAccepts =>
    -- on the fork only what comes before bounds was worked off
    have hJoined (cs : List Constraint) := Unbooked.extend hFork cs
    obtain ⟨-, hSettled⟩ := hAccepts.leads .refl (unbooked_runBefore program depth steps w.arena)
      ⟨(hJoined _).reachable, (hJoined _).staged hStaged⟩
    obtain ⟨hCore, -, -, -, -, hAdopts⟩ := hAccepts
    obtain rfl := Constraint.require.inj hCore
    exact ⟨_, hAdopts.booked hs hStaged ((hJoined _).trans hSettled)⟩

/-- **What a turn books.** -/
theorem Effect.books {steps : Nat} {c : Constraint} {w w' : World}
    (h : Effect program depth (runBefore program depth (some .bound) steps) s c w s' w')
    (hs : s.unification.Reachable) (hStaged : s.agenda.Staged) :
    Unbooked s s' ∨ ∃ b new, Booked s b new s' := by
  by_cases hBound : ∃ b, c = .require b ∧ Sought b
  · obtain ⟨b, rfl, hSought⟩ := hBound
    exact .inr ⟨b, h.booked hs hStaged hSought⟩
  · exact .inl (h.unbooked hs fun b hCore hSought => hBound ⟨b, hCore, hSought⟩)

-- ---------------------------------------------------------------------------
-- The books of a session
-- ---------------------------------------------------------------------------

/-- What is recorded of a bound tells where its own types are, and later records tell later
places. -/
structure Tidy (s : Session) : Prop where
  reachable  : s.unification.Reachable
  staged     : s.agenda.Staged
  recorded   : ∀ r ∈ s.resolutions, s.unification.deferred[r.deferred]? = some r.bound.args
  increasing : s.resolutions.Pairwise fun r r' => r.deferred < r'.deferred

theorem Tidy.unbooked {s s' : Session} (h : s.Tidy) (hSame : Unbooked s s') : s'.Tidy where
  reachable := hSame.reachable
  staged := hSame.staged h.staged
  recorded := by
    rw [hSame.resolutions, hSame.deferred]
    exact h.recorded
  increasing := by
    rw [hSame.resolutions]
    exact h.increasing

/-- A new place is behind all others, and so is what is recorded of it. -/
theorem Tidy.booked {s s' : Session} {b : Bound} {new : Option Outcome} (h : s.Tidy)
    (hBooked : Booked s b new s') : s'.Tidy := by
  have hNewest : ∀ r ∈ (new.map fun o =>
      (⟨b, s.unification.deferred.length, o⟩ : Resolution)).toList,
      r.bound = b ∧ r.deferred = s.unification.deferred.length := by
    cases new <;> simp
  -- places that are in use are within the list, and the new one is at its end
  have hPlaces : ∀ r ∈ s.resolutions, r.deferred < s.unification.deferred.length :=
    fun r hr => (List.getElem?_eq_some_iff.mp (h.recorded r hr)).1
  refine ⟨hBooked.reachable, hBooked.staged, fun r hr => ?_, ?_⟩
  · rw [hBooked.resolutions, List.mem_append] at hr
    rw [hBooked.deferred]
    rcases hr with hOld | hNew
    · rw [List.getElem?_append_left (hPlaces r hOld)]
      exact h.recorded r hOld
    · rw [(hNewest r hNew).1, (hNewest r hNew).2, List.getElem?_concat_length]
  · rw [hBooked.resolutions, List.pairwise_append]
    refine ⟨h.increasing, by cases new <;> simp, fun r hr r' hr' => ?_⟩
    rw [(hNewest r' hr').2]
    exact hPlaces r hr

theorem Tidy.pop {limit : Option Stage} {c : Constraint} {agenda : Agenda} (h : s.Tidy)
    (hPop : s.agenda.popBefore limit = some (c, agenda)) : Tidy { s with agenda } :=
  h.unbooked (.pop h.reachable hPop)

/-- **The step lemma.** -/
theorem Tidy.turn {steps : Nat} {c : Constraint} {w w' : World} (h : s.Tidy)
    (hEffect : Effect program depth (runBefore program depth (some .bound) steps) s c w s' w') :
    s'.Tidy := by
  rcases hEffect.books h.reachable h.staged with hUnbooked | ⟨b, new, hBooked⟩
  · exact h.unbooked hUnbooked
  · exact h.booked hBooked

/-- **The run lemma.** -/
theorem tidy_runBefore (program : Program) (depth steps : Nat) (limit : Option Stage) (a : Arena) :
    Leads a Tidy (fun _ _ => True) (runBefore program depth limit steps) := by
  have hCarries : Carries program depth a (fun _ => True) Tidy fun _ _ => True :=
    { bound := trivial
      refl := fun _ => trivial
      trans := fun _ _ => trivial
      turn := fun _ _ hs _ hPop hEffect => ⟨(hs.pop hPop).turn hEffect, trivial⟩ }
  exact hCarries.runBefore steps trivial

/-- The states that can be reached: constraints join the agenda, leave it and are worked off,
one by one or all before some stage; and whatever was reached may be forked, or committed in
place of whatever else was reached. The program and the limits may be others each time. -/
inductive Reached : Session → Prop
  | start (implied : List Instance) (cs : List Constraint) : Reached (start implied cs)
  | push {s : Session} (hs : Reached s) (c : Constraint) :
      Reached { s with agenda := s.agenda.push c }
  | pop {s : Session} {limit : Option Stage} {c : Constraint} {agenda : Agenda} (hs : Reached s)
      (hPop : s.agenda.popBefore limit = some (c, agenda)) : Reached { s with agenda }
  | execute {s s' : Session} {program : Program} {limits : Limits} {c : Constraint} {w w' : World}
      (hs : Reached s) (hRun : outcome (s.execute program limits c) w = (.ok s', w')) : Reached s'
  | runBefore {s s' : Session} {program : Program} {limit : Option Stage} {depth steps : Nat}
      {w w' : World} (hs : Reached s)
      (hRun : outcome (s.runBefore program depth limit steps) w = (.ok s', w')) : Reached s'
  | fork {s : Session} (hs : Reached s) : Reached s.fork
  | commit {s branch : Session} (hs : Reached s) (hBranch : Reached branch) :
      Reached (s.commit branch)

/-- Forks and commits of whatever was reached take over books that agree. -/
theorem Reached.tidy {s : Session} (h : Reached s) : s.Tidy := by
  induction h with
  | start implied cs =>
    exact ⟨.empty, Agenda.staged_empty.extend cs, fun r hr => absurd hr List.not_mem_nil, .nil⟩
  | push _ c ih => exact ⟨ih.reachable, ih.staged.push c, ih.recorded, ih.increasing⟩
  | pop _ hPop ih => exact ih.pop hPop
  | execute _ hRun ih => exact ih.turn (work_effect hRun)
  | runBefore _ hRun ih => exact (tidy_runBefore _ _ _ _ _ ih .refl hRun).1
  | fork _ ih => exact ⟨.fork ih.reachable, ih.staged, ih.recorded, ih.increasing⟩
  | commit _ _ ih ihBranch =>
    exact ⟨.commit ih.reachable ihBranch.reachable, ihBranch.staged, ihBranch.recorded,
      ihBranch.increasing⟩

/--
**The books of a session agree.** In every state that can be reached, what is recorded of a
bound names the place of that bound's own types, and the places increase from record to
record. A bound that is worked off and asks for something puts its types aside, behind all
others, and is recorded at most once, behind all others. If it stays unresolved that is all
that changes; if it is resolved and infers nothing, there is no new error.
-/
theorem bounds_are_booked :
    (∀ s : Session, s.Reached →
      (∀ r ∈ s.resolutions, s.unification.deferred[r.deferred]? = some r.bound.args) ∧
      s.resolutions.Pairwise fun r r' => r.deferred < r'.deferred) ∧
    ∀ (s s' : Session) (program : Program) (limits : Limits) (c : Constraint) (b : Bound)
      (w w' : World), s.Reached → c.core = .require b → Sought b →
      outcome (s.execute program limits c) w = (.ok s', w') → ∃ new, Booked s b new s' := by
  constructor
  · intro s hs
    exact ⟨hs.tidy.recorded, hs.tidy.increasing⟩
  · intro s s' program limits c b w w' hs hCore hSought hRun
    have hEffect := work_effect hRun
    rw [hCore] at hEffect
    exact hEffect.booked hs.tidy.reachable hs.tidy.staged hSought

-- The trait at point 0 has an instance, for blocks, that asks something of its own point 4.
-- The trait at point 3 has none.

/-- What the bounds below are about. -/
def about : Parameter :=
  ⟨0, "about", ⟨0⟩, false⟩

/-- The instance at point 1, with what it says when it is used. -/
def knowing : Program where
  definitions := (∅ : PointMap (List Constraint)).insert ⟨1⟩
    [.ascribe { node := ⟨4⟩, type := .con .tuple [] none }]
  instances := (∅ : PointMap (List Instance)).insert ⟨0⟩
    [⟨⟨1⟩, ⟨0⟩, (∅ : Substitution).insert about (.con .block [] none), false, false⟩]

/-- Asks at point 2 for a trait of a type. -/
def soughtOf (trait : Point) (type : Ty) : Bound :=
  ⟨⟨2⟩, trait, (∅ : Substitution).insert about type, false, false⟩

/-- Five points, of which the last belongs to the instance. -/
def beforeKnowing : World where
  arena := ⟨([none, none, none, none, some ⟨1⟩].map fun owner =>
    { span := ⟨0, 0⟩, source := "", owner }).toArray⟩

/-- The first bound is resolved, the second is not, and each is recorded with the place of its
own types. -/
theorem bounds_are_booked_knowing : ∃ s s' w w',
    outcome ((start [] []).execute knowing ⟨3, 3⟩ (.require (soughtOf ⟨0⟩ (.con .block [] none))))
      beforeKnowing = (.ok s, w) ∧
    outcome (s.execute knowing ⟨3, 3⟩ (.scoped (.require (soughtOf ⟨3⟩ (.con .tuple [] none))))) w =
      (.ok s', w') ∧
    (∃ new, Booked s (soughtOf ⟨3⟩ (.con .tuple [] none)) new s') ∧
    s'.resolutions.map (fun r => (r.deferred, r.outcome)) =
      [(0, .resolved ⟨1⟩ false), (1, .unresolved)] ∧
    s'.unification.deferred.map (·[about]?) =
      [some (.con .block [] none), some (.con .tuple [] none)] ∧
    s'.resolutions.Pairwise fun r r' => r.deferred < r'.deferred := by
  have hRuns : (match outcome ((start [] []).execute knowing ⟨3, 3⟩
        (.require (soughtOf ⟨0⟩ (.con .block [] none)))) beforeKnowing with
      | (.ok s, w) => (match outcome (s.execute knowing ⟨3, 3⟩
            (.scoped (.require (soughtOf ⟨3⟩ (.con .tuple [] none))))) w with
          | (.ok s', _) => s'.resolutions.map (fun r => (r.deferred, r.outcome)) ==
              [(0, .resolved ⟨1⟩ false), (1, .unresolved)]
          | _ => false)
      | _ => false) = true := by decide +kernel
  split at hRuns
  · rename_i s w hFirst
    split at hRuns
    · rename_i s' w' hSecond
      have hStart : (start [] []).Reached := .start [] []
      have hs : s.Reached := .execute hStart hFirst
      obtain ⟨_, hBooked⟩ :=
        bounds_are_booked.2 _ s knowing ⟨3, 3⟩ _ _ _ w hStart rfl ⟨rfl, rfl⟩ hFirst
      obtain ⟨new, hBooked'⟩ :=
        bounds_are_booked.2 s s' knowing ⟨3, 3⟩ _ _ w w' hs rfl ⟨rfl, rfl⟩ hSecond
      refine ⟨s, s', w, w', hFirst, hSecond, ⟨new, hBooked'⟩, eq_of_beq hRuns, ?_,
        (bounds_are_booked.1 s' (.execute hs hSecond)).2⟩
      rw [hBooked'.deferred, hBooked.deferred]
      simp [start, soughtOf]
    · cases hRuns
  · cases hRuns

end Session

end TraitInference
