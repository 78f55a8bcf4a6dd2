import TraitInference.Proofs.Agendas
import TraitInference.Proofs.Effects
import TraitInference.Proofs.Later
import TraitInference.Proofs.Queries

/-!
# TraitInference — how the state of a session evolves

Whatever the constraints of a session are, few things happen to its state:
`Unification.Evolves` lists them, and nothing else does. What holds of every session is then
proved by going through that list.

* `Session.moves_runBefore` — the state evolves, and forks are committed only if they show no
  conflict.
* `Session.evolves_run` — the equations that are unified on the way are under control: on the
  session itself, one side is always a point if every bound leaves its inferred parameters to
  points (`Bound.OpenSlots`).
* `Session.Live` — the states of a session itself, as opposed to those of its forks.
* `Session.live_invariant` — what holds of all of them.
-/

namespace TraitInference

-- ---------------------------------------------------------------------------
-- What happens to a state
-- ---------------------------------------------------------------------------

namespace Unification

/-- Two types of which `allowed` holds are unified, points are looked up, substitutions
are kept for the end, and a fork on which anything was done is committed if it shows no
conflict. -/
inductive Evolves : (Ty → Ty → Prop) → Unification → Unification → Prop
  | refl {allowed : Ty → Ty → Prop} (u : Unification) : Evolves allowed u u
  | unify {allowed : Ty → Ty → Prop} {u u' u'' : Unification} {fuel : Nat} {left right : Ty}
      {notes : List Note} (h : Evolves allowed u u') (hAllowed : allowed left right)
      (hRun : u'.unify fuel left right = some (notes, u'')) : Evolves allowed u u''
  | isOpen {allowed : Ty → Ty → Prop} {u u' : Unification} (h : Evolves allowed u u')
      (p : Point) : Evolves allowed u (u'.isOpen p).2
  | defer {allowed : Ty → Ty → Prop} {u u' : Unification} (h : Evolves allowed u u')
      (args : Substitution) : Evolves allowed u (u'.defer args).2
  | commit {allowed : Ty → Ty → Prop} {u u' branch : Unification} (h : Evolves allowed u u')
      (hBranch : Evolves (fun _ _ => True) u'.fork branch) (hFits : branch.hasError = false) :
      Evolves allowed u (u'.commit branch)

variable {u u' u'' : Unification} {allowed : Ty → Ty → Prop}

/-- One thing after the other. -/
theorem Evolves.trans (h : Evolves allowed u u') (h' : Evolves allowed u' u'') :
    Evolves allowed u u'' := by
  induction h' with
  | refl => exact h
  | unify _ hAllowed hRun ih => exact .unify (ih h) hAllowed hRun
  | isOpen _ p ih => exact .isOpen (ih h) p
  | defer _ args ih => exact .defer (ih h) args
  | commit _ hBranch hFits ih _ => exact .commit (ih h) hBranch hFits

/-- What evolves from a reachable state is reachable and later. -/
theorem Evolves.later (h : Evolves allowed u u') (hu : u.Reachable) :
    u'.Reachable ∧ Later u u' := by
  induction h with
  | refl u => exact ⟨hu, .refl u⟩
  | unify _ _ hRun ih =>
    obtain ⟨hReachable, hLater⟩ := ih hu
    exact ⟨.unify hReachable hRun, hLater.trans (hReachable.later_unify hRun)⟩
  | isOpen _ p ih =>
    obtain ⟨hReachable, hLater⟩ := ih hu
    exact ⟨.isOpen hReachable p, hLater.trans (hReachable.later_isOpen p)⟩
  | defer _ args ih =>
    obtain ⟨hReachable, hLater⟩ := ih hu
    exact ⟨.defer hReachable args, hLater.trans (later_defer _ args)⟩
  | commit _ _ _ ih ihBranch =>
    obtain ⟨hReachable, hLater⟩ := ih hu
    obtain ⟨hBranch, hFork⟩ := ihBranch (.fork hReachable)
    exact ⟨.commit hReachable hBranch, hLater.trans hFork.commit⟩

/-- Equations that are allowed. -/
theorem Evolves.unifyAll {depth : Nat} {eqs : List (Ty × Ty)}
    (hAllowed : ∀ eq ∈ eqs, allowed eq.1 eq.2) (hRun : u.unifyAll depth eqs = some u') :
    Evolves allowed u u' :=
  unifyAll_induction (.refl u) hRun fun eq hMem {_ _ _} h hUnify =>
    .unify h (hAllowed eq hMem) hUnify

theorem Evolves.ascribe {depth : Nat} {a : Ascription}
    (hAllowed : allowed (.point a.node) a.type) (hRun : u.ascribe depth a = some u') :
    Evolves allowed u u' :=
  ascribe_induction (.refl u) hRun (fun h => .isOpen h a.node) fun h hUnify =>
    .unify h hAllowed hUnify

end Unification

-- ---------------------------------------------------------------------------
-- Open slots
-- ---------------------------------------------------------------------------

/-- The bound leaves each inferred parameter to a point. -/
def Bound.OpenSlots (b : Bound) : Prop :=
  ∀ (q : Parameter) (t : Ty), b.args.inferred[q]? = some t → ∃ p, t = .point p

/-- So do the bounds in the constraint. -/
def Constraint.OpenSlots : Constraint → Prop
  | .require b => b.OpenSlots
  | .scoped c => c.OpenSlots
  | _ => True

/-- Where a constraint holds makes no difference to its bound. -/
theorem Constraint.openSlots_core : ∀ {c : Constraint}, c.OpenSlots → c.core.OpenSlots
  | .ascribe _, h | .fallback _, h | .call _, h | .require _, h => h
  | .scoped c, h => openSlots_core (c := c) h

/-- So do the bounds in all definitions. -/
def Program.OpenSlots (program : Program) : Prop :=
  ∀ d, ∀ c ∈ program.definition d, c.OpenSlots

/-- So do the bounds still to be worked off. -/
def Agenda.OpenSlots (q : Agenda) : Prop :=
  ∀ c ∈ q.toList, c.OpenSlots

theorem Agenda.OpenSlots.extend {q : Agenda} (h : q.OpenSlots) {cs : List Constraint}
    (hNew : ∀ c ∈ cs, c.OpenSlots) : (q.extend cs).OpenSlots := by
  intro c hc
  rcases List.mem_append.mp ((q.toList_extend cs).mem_iff.mp hc) with hNew' | hOld
  · exact hNew c hNew'
  · exact h c hOld

/-- The copy of a bound leaves the same parameters open. -/
theorem Bound.Filled.openSlots {A : Reply → Prop} {b b' : Bound} (h : b.Filled A b')
    (hb : b.OpenSlots) : b'.OpenSlots := by
  obtain ⟨source, args, -, hArgs, rfl⟩ := h
  intro q t' hFound
  rw [Substitution.inferred, Std.ExtTreeMap.getElem?_filter', Option.filter_eq_some_iff] at hFound
  obtain ⟨t, ht, hFilled⟩ := hArgs.exists_of_getElem? hFound.1
  have hInferred : b.args.inferred[q]? = some t := by
    rw [Substitution.inferred, Std.ExtTreeMap.getElem?_filter', Option.filter_eq_some_iff]
    exact ⟨ht, hFound.2⟩
  -- a point becomes a point
  obtain ⟨p, rfl⟩ := hb q t hInferred
  obtain ⟨p', -, rfl⟩ := hFilled
  exact ⟨p', rfl⟩

/-- And so does that of any constraint, most of which have no bound. -/
theorem Constraint.Filled.openSlots {A : Reply → Prop} : ∀ {c c' : Constraint},
    c.Filled A (some c') → c.OpenSlots → c'.OpenSlots
  | .require _, _, h, hc => by
    obtain ⟨b', hb', hCopy⟩ := h
    exact Option.some.inj hCopy ▸ hb'.openSlots hc
  | .ascribe _, _, h, _ | .fallback _, _, h, _ | .call _, _, h, _ => by
    obtain ⟨x', -, hCopy⟩ := h
    exact Option.some.inj hCopy ▸ trivial
  | .scoped _, _, h, _ => by cases h

/-- **Copies leave open what was left open.** -/
theorem CopyM.openSlots_of_constraints {cs copies : List Constraint} {s s' : Copying}
    (h : ∀ c ∈ cs, c.OpenSlots) (hRun : outcome (constraints cs) s = (.ok copies, s')) :
    ∀ c ∈ copies, c.OpenSlots := by
  intro c' hc'
  obtain ⟨c, hc, hCopy⟩ := ((asks_constraints cs).form hRun).exists_of_mem hc'
  exact hCopy.openSlots (h c hc)

-- ---------------------------------------------------------------------------
-- One turn
-- ---------------------------------------------------------------------------

namespace Session

/-- The state evolves by unifications of any kind. -/
abbrev Moves (s s' : Session) : Prop :=
  s.unification.Evolves (fun _ _ => True) s'.unification

variable {program : Program} {depth : Nat} {settle : Session → SolveM Session} {s s' : Session}
  {allowed : Ty → Ty → Prop}

/-- Going on with a fork: what was unified on it does not matter, for it shows no conflict. -/
theorem Adopts.evolves {b : Bound} {tier : Tier} {i : Instance} {branch : Session}
    {args found : Substitution} {u u' : Unification}
    (h : Adopts depth b tier i s branch args u found u' s') (hBranch : Moves s.fork branch)
    (hSlots : ∀ (q : Parameter) (slot t : Ty), b.args.inferred[q]? = some slot → allowed slot t) :
    s.unification.Evolves allowed s'.unification := by
  have hMatched : branch.unification.Evolves (fun _ _ => True) u :=
    .unifyAll (fun _ _ => trivial) (Unification.matchArgs_ok h.matched).1
  -- which equations were unified on the fork is not recorded: `commit` allows any
  have hCommit : s.unification.Evolves allowed (s.unification.commit u) :=
    .commit (.refl _) (hBranch.trans hMatched) h.fits
  have hAdopted : (s.unification.commit u).Evolves allowed u' := by
    refine .unifyAll (fun eq hEq => ?_) h.adopted
    obtain ⟨q, -, hSlot⟩ := Bound.mem_slots.mp hEq
    exact hSlots q eq.1 eq.2 hSlot
  rw [h.closed]
  exact .defer (hCommit.trans hAdopted) b.args

/-- **A turn makes the state evolve** by equations that are allowed, if those about points and
those about inferred parameters are. -/
theorem Effect.evolves {c : Constraint} {w w' : World}
    (h : Effect program depth settle s c w s' w') (hPoint : ∀ p t, allowed (.point p) t)
    (hSlots : ∀ b, c = .require b → ∀ (q : Parameter) (slot t : Ty),
      b.args.inferred[q]? = some slot → allowed slot t)
    (hFork : ∀ {cs start settled stop},
      Accepts program depth settle s c w cs start settled stop s' → Moves s.fork settled) :
    s.unification.Evolves allowed s'.unification := by
  cases h with
  | kept hKeeps =>
    cases hKeeps with
    | ascribed _ hState hEq =>
      rw [hEq]
      exact .ascribe (hPoint _ _) hState
    | skipped _ _ hEq =>
      rw [hEq]
      exact .refl _
    | unresolved _ _ _ hEq =>
      rw [hEq]
      exact .defer (.refl _) _
    | assumed hCore _ _ hAdopts => exact hAdopts.evolves (.refl _) (hSlots _ hCore)
  | called hCalls =>
    obtain ⟨-, -, rfl⟩ := hCalls
    exact .refl _
  | accepted hAccepts =>
    have hSettled := hFork hAccepts
    obtain ⟨hCore, -, -, -, -, hAdopts⟩ := hAccepts
    exact hAdopts.evolves hSettled (hSlots _ hCore)

-- ---------------------------------------------------------------------------
-- Runs
-- ---------------------------------------------------------------------------

/-- **Whatever is worked off, the state evolves.** -/
theorem moves_runBefore (program : Program) (depth steps : Nat) (limit : Option Stage) (a : Arena) :
    Leads a (fun _ => True) Moves (runBefore program depth limit steps) := by
  have hCarries : Carries program depth a (fun _ => True) (fun _ => True) Moves :=
    { bound := trivial
      refl := fun _ => .refl _
      trans := fun h h' => h.trans h'
      turn := fun _ hSettle _ ha _ hEffect => ⟨trivial, hEffect.evolves (fun _ _ => trivial)
        (fun _ _ _ _ _ _ => trivial) fun hAccepts => (hAccepts.leads ha hSettle trivial).2⟩ }
  exact hCarries.runBefore steps trivial

/-- One constraint, on the agenda or not. -/
theorem moves_execute {limits : Limits} {c : Constraint} {w w' : World}
    (hRun : outcome (s.execute program limits c) w = (.ok s', w')) : Moves s s' :=
  (work_effect hRun).evolves (fun _ _ => trivial) (fun _ _ _ _ _ _ => trivial) fun hAccepts =>
    (hAccepts.leads .refl (moves_runBefore program limits.depth limits.steps _ _) trivial).2

theorem moves_step {limits : Limits} {next : Option Constraint} {w w' : World}
    (hRun : outcome (s.step program limits) w = (.ok (next, s'), w')) : Moves s s' := by
  unfold step at hRun
  cases hPop : s.agenda.pop with
  | none =>
    rw [hPop] at hRun
    obtain ⟨-, rfl⟩ := Prod.mk.inj (Except.ok.inj (Prod.mk.inj hRun).1)
    exact .refl _
  | some popped =>
    rw [hPop] at hRun
    obtain ⟨s₁, w₁, hExecute, hPure⟩ := outcome_bind_eq_ok.mp hRun
    obtain ⟨-, rfl⟩ := Prod.mk.inj (Except.ok.inj (Prod.mk.inj hPure).1)
    have hMoves : Moves { s with agenda := popped.2 } s₁ := moves_execute hExecute
    exact hMoves

/-- The left side is a point. -/
def AboutPoint (left _ : Ty) : Prop :=
  ∃ p, left = .point p

/-- What a call unfolds to leaves open what its definition left open. -/
theorem unfold_openSlots (hProgram : program.OpenSlots) {k : Call} {cs : List Constraint}
    {copier : Copier} {w w' : World}
    (hRun : outcome (k.unfold program) w = (.ok (cs, copier), w')) : ∀ c ∈ cs, c.OpenSlots := by
  obtain ⟨s, hCopy, -, -⟩ := k.copying_of_unfold hRun
  exact CopyM.openSlots_of_constraints (hProgram k.definition) hCopy

/-- **How the state of a session evolves** if all bounds leave their inferred parameters to
points, and that they always do. -/
theorem evolves_runBefore (hProgram : program.OpenSlots) (depth steps : Nat)
    (limit : Option Stage) (a : Arena) :
    Leads a (fun s => s.agenda.OpenSlots)
      (fun s s' => s.unification.Evolves AboutPoint s'.unification)
      (runBefore program depth limit steps) := by
  have hCarries : Carries program depth a (fun _ => True) (fun s => s.agenda.OpenSlots)
      fun s s' => s.unification.Evolves AboutPoint s'.unification :=
    { bound := trivial
      refl := fun _ => .refl _
      trans := fun h h' => h.trans h'
      turn := fun {steps _ s s' c agenda w _} _ hSettle hs ha hPop hEffect => ?turn }
  case turn =>
    obtain ⟨hNext, hLeft⟩ := Agenda.mem_toList_of_popBefore hPop
    have hAgenda : agenda.OpenSlots := fun x hx => hs x (hLeft x hx)
    refine ⟨?_, hEffect.evolves (fun p _ => ⟨p, rfl⟩) (fun b hCore q slot _ hSlot => ?_)
      fun hAccepts => ?_⟩
    · -- what joins the agenda is copied from definitions, on the fork as well
      cases hEffect with
      | kept hKeeps => exact hKeeps.agenda_eq ▸ hAgenda
      | called hCalls =>
        obtain ⟨-, hUnfold, rfl⟩ := hCalls
        exact hAgenda.extend (unfold_openSlots hProgram hUnfold)
      | accepted hAccepts =>
        rw [hAccepts.agenda_eq]
        refine (hAccepts.leads ha hSettle ?_).1
        obtain ⟨-, -, -, -, ⟨hUnfold, -, -⟩, -⟩ := hAccepts
        exact hAgenda.extend (unfold_openSlots hProgram hUnfold)
    · have hOpen := Constraint.openSlots_core (hs c hNext)
      rw [hCore] at hOpen
      exact hOpen q slot hSlot
    · -- on the fork supplied types are compared, and these need not be points
      exact (hAccepts.leads ha (moves_runBefore program depth steps (some .bound) a) trivial).2
  exact hCarries.runBefore steps trivial

/-- **How the state of a session evolves**, from the empty one to the last. -/
theorem evolves_run (hProgram : program.OpenSlots) {cs : List Constraint}
    (hcs : ∀ c ∈ cs, c.OpenSlots) {limits : Limits} {implied : List Instance} {w w' : World}
    (hRun : (run program limits (start implied cs)).runIn w = (.ok s, w')) :
    ({} : Unification).Evolves AboutPoint s.unification := by
  have hEmpty : ({} : Agenda).OpenSlots := fun c hc => absurd hc List.not_mem_nil
  have hStart : (start implied cs).agenda.OpenSlots := hEmpty.extend hcs
  exact (evolves_runBefore hProgram limits.depth limits.steps none w.arena hStart .refl hRun).2

-- ---------------------------------------------------------------------------
-- Live states
-- ---------------------------------------------------------------------------

/-- The states of a session itself: it starts with nothing known, constraints join its
agenda, and constraints, on the agenda or not, are worked off one by one or all at once.
The program and the limits may be others each time. -/
inductive Live : Session → Prop
  | start (implied : List Instance) (cs : List Constraint) : Live (start implied cs)
  | extend {s : Session} (hs : Live s) (cs : List Constraint) :
      Live { s with agenda := s.agenda.extend cs }
  | execute {s s' : Session} {program : Program} {limits : Limits} {c : Constraint} {w w' : World}
      (hs : Live s) (hRun : (s.execute program limits c).runIn w = (.ok s', w')) : Live s'
  | step {s s' : Session} {program : Program} {limits : Limits} {next : Option Constraint}
      {w w' : World} (hs : Live s)
      (hRun : (s.step program limits).runIn w = (.ok (next, s'), w')) : Live s'
  | run {s s' : Session} {program : Program} {limits : Limits} {w w' : World} (hs : Live s)
      (hRun : (s.run program limits).runIn w = (.ok s', w')) : Live s'

/-- A live state has evolved from the empty one. -/
theorem Live.evolves {s : Session} (h : Live s) :
    ({} : Unification).Evolves (fun _ _ => True) s.unification := by
  induction h with
  | start => exact .refl _
  | extend _ _ ih => exact ih
  | execute _ hRun ih => exact ih.trans (moves_execute hRun)
  | step _ hRun ih => exact ih.trans (moves_step hRun)
  | run _ hRun ih => exact ih.trans (moves_runBefore _ _ _ _ _ trivial .refl hRun).2

/-- On a live state a second type comes with a conflict. -/
theorem Live.single {s : Session} (h : Live s) (hNoError : s.unification.hasError = false) :
    s.unification.Single := by
  have hEmpty : ({} : Unification).Single := fun r => by simp [Unification.typesAt]
  exact (h.evolves.later .empty).2.single hNoError hEmpty

/--
**The invariant of the state.** Whatever operations have led to a state, its types are kept
under recorded points that represent themselves, no list of types is empty, and each holds
constructed types only, no two of them the same; and a unification that starts without an
error says that there was a conflict exactly when it leaves one. In a live state, whatever
was worked off and committed before, a class has two types only if there is an error.
-/
theorem live_invariant :
    (∀ u : Unification, u.Reachable →
      (∀ (r : Point) (ts : List Ty), u.types[r]? = some ts →
        u.classes.contains r = true ∧ u.representative r = r ∧ ts ≠ [] ∧
        (∀ t ∈ ts, ∃ tag children emit, t = .con tag children emit) ∧
        ts.Pairwise fun t t' => t.same t' = false) ∧
      ∀ fuel left right conflict u', u.hasError = false →
        Unification.unifyWithin fuel left right u = some (conflict, u') →
        (conflict = true ↔ u'.hasError = true)) ∧
    ∀ s : Session, s.Live → s.unification.Reachable ∧
      ∀ r, 2 ≤ (s.unification.typesAt r).length → s.unification.hasError = true := by
  refine ⟨fun u hu => ⟨fun r ts hTypes => ?_, fun fuel left right conflict u' hNoError hRun => ?_⟩,
    fun s hs => ⟨(hs.evolves.later .empty).1, fun r hTwo => ?_⟩⟩
  · have hFormed := hu.wellFormed
    refine ⟨hFormed.recorded r ts hTypes, hFormed.root r ts hTypes, hFormed.nonempty r ts hTypes,
      fun t ht => ?_, hFormed.distinct r ts hTypes⟩
    refine hFormed.exists_con (r := r) ?_
    rw [Unification.typesAt, hTypes]
    exact ht
  · obtain ⟨notes, hNotes, hTells⟩ :=
      Unification.unifyWithin_tellsConflicts fuel _ _ _ _ _ hu.wellFormed hRun
    rw [hNotes.hasError, hTells, hNoError, Bool.or_false]
  · -- without an error each class has one type at most
    by_contra hError
    have hSingle := hs.single (by simpa using hError) r
    omega

-- Point 0 is said to be of two types.

def disputed : List Constraint :=
  [.ascribe { node := ⟨0⟩, type := .con .tuple [] none },
    .ascribe { node := ⟨0⟩, type := .con .block [] none }]

theorem live_invariant_disputed : ∃ s : Session, s.Live ∧
    2 ≤ (s.unification.typesAt ⟨0⟩).length ∧ s.unification.hasError = true := by
  have hRun : ∃ s w', ((start [] disputed).run {} ⟨3, 2⟩).runIn { arena := {} } = (.ok s, w') ∧
      2 ≤ (s.unification.typesAt ⟨0⟩).length := ⟨_, _, rfl, by decide⟩
  obtain ⟨s, w', hRun, hTwo⟩ := hRun
  have hLive : s.Live := .run (.start [] disputed) hRun
  exact ⟨s, hLive, hTwo, (live_invariant.2 s hLive).2 ⟨0⟩ hTwo⟩

end Session

end TraitInference
