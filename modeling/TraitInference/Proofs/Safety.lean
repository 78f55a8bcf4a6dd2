import TraitInference.Proofs.Agendas
import TraitInference.Proofs.Coverage
import TraitInference.Proofs.Equations
import TraitInference.Proofs.Later

/-!
# TraitInference — no step of a session faults

A fault is the end of a malformed program. Here the steps of a session are followed on
programs that are well formed: whatever a session holds mentions allocated points only, and
the bounds that it comes to, copies and assumptions included, have the parameters that the
program has for their traits (`Session.Proper`). So the arena is never asked about a point
that it does not hold, and no instance gives a type for a parameter that the bound lacks.

* `SolveM.Safe` — a step that keeps to this and does not fault.
* `Session.safe_runBefore` — a run of a session, with all the trials that it makes.
-/

namespace TraitInference

variable {n m : Nat}

-- ---------------------------------------------------------------------------
-- Safe steps
-- ---------------------------------------------------------------------------

/-- The points that an event is written with. -/
def Trace.Event.mentions : Trace.Event → List Point
  | .ascribe _ type => type.mentions
  | .seek b => b.mentions
  | _ => []

/-- What a step can make of a world: the arena does not shrink, and new events mention
points that it held when they happened. -/
structure World.Grows (w w' : World) : Prop where
  size : w.arena.size ≤ w'.arena.size
  log  : ∀ e k, .event e k ∈ w'.log → .event e k ∈ w.log ∨
    k ≤ w'.arena.size ∧ Below k (Trace.Event.mentions e)

theorem World.Grows.refl (w : World) : w.Grows w :=
  ⟨Nat.le_refl _, fun _ _ h => .inl h⟩

theorem World.Grows.trans {w w' w'' : World} (h : w.Grows w') (h' : w'.Grows w'') :
    w.Grows w'' where
  size := Nat.le_trans h.size h'.size
  log e k hEvent := by
    rcases h'.log e k hEvent with hOld | hNew
    · rcases h.log e k hOld with hOlder | ⟨hSize, hBelow⟩
      · exact .inl hOlder
      · exact .inr ⟨Nat.le_trans hSize h'.size, hBelow⟩
    · exact .inr hNew

namespace SolveM

variable {α β : Type} {x : SolveM α} {P Q : Nat → α → Prop}

/-- In every world of at least `n` points the step ends without a fault, and `Q` holds of
its result and of the size of the arena then. -/
def Safe (n : Nat) (x : SolveM α) (Q : Nat → α → Prop) : Prop :=
  ∀ w r w', n ≤ w.arena.size → w.arena.Closed → outcome x w = (r, w') →
    w'.arena.Closed ∧ w.Grows w' ∧ (∀ f, r ≠ .error (.fault f)) ∧
      ∀ v, r = .ok v → Q w'.arena.size v

/-- What is safe in small arenas is safe in large ones. -/
theorem Safe.later (h : Safe n x Q) (hLe : n ≤ m) : Safe m x Q :=
  fun w r w' hSize => h w r w' (Nat.le_trans hLe hSize)

theorem Safe.pure {v : α} (h : ∀ m, n ≤ m → Q m v) : Safe n (pure v) Q := by
  intro w r w' hSize hClosed hRun
  obtain ⟨rfl, rfl⟩ := Prod.mk.inj hRun
  exact ⟨hClosed, .refl w, (by rintro f ⟨⟩), fun v' hv' => Except.ok.inj hv' ▸ h _ hSize⟩

/-- A limit that has been reached is no fault. -/
theorem Safe.throw {e : Halt} (h : ∀ f, e ≠ .fault f) : Safe n (throw e : SolveM α) Q := by
  intro w r w' hSize hClosed hRun
  obtain ⟨rfl, rfl⟩ := Prod.mk.inj hRun
  exact ⟨hClosed, .refl w, fun f hf => h f (Except.error.inj hf), (by rintro v ⟨⟩)⟩

/-- The second part runs in an arena that has grown. -/
theorem Safe.bind {k : α → SolveM β} {Q : Nat → β → Prop} (hx : Safe n x P)
    (hk : ∀ v m, n ≤ m → P m v → Safe m (k v) Q) : Safe n (x >>= k) Q := by
  intro w r w'' hSize hClosed hRun
  rcases hFirst : outcome x w with ⟨e | v, w'⟩
  · -- the first part halts, though not at a fault
    obtain ⟨hClosed', hGrows, hFault, -⟩ := hx w _ w' hSize hClosed hFirst
    rw [outcome_bind_error hFirst] at hRun
    obtain ⟨rfl, rfl⟩ := Prod.mk.inj hRun
    exact ⟨hClosed', hGrows, fun f hf => hFault f (Except.error.inj hf ▸ rfl),
      (by rintro v ⟨⟩)⟩
  · obtain ⟨hClosed', hGrows, -, hP⟩ := hx w _ w' hSize hClosed hFirst
    rw [outcome_bind_ok hFirst] at hRun
    obtain ⟨hClosed'', hGrows', hEnd⟩ := hk v w'.arena.size (Nat.le_trans hSize hGrows.size)
      (hP v rfl) w' r w'' (Nat.le_refl _) hClosed' hRun
    exact ⟨hClosed'', hGrows.trans hGrows', hEnd⟩

/-- The result is still valid when it is passed on, in whatever arena that happens. -/
theorem Safe.map {f : α → β} {Q : Nat → β → Prop} (hx : Safe n x P)
    (hf : ∀ v m, n ≤ m → P m v → ∀ k, m ≤ k → Q k (f v)) : Safe n (do return f (← x)) Q :=
  hx.bind fun v m hLe hP => .pure (hf v m hLe hP)

theorem safe_log {l : World → List Trace.Entry}
    (hl : ∀ w : World, n ≤ w.arena.size → w.Grows { w with log := l w }) :
    Safe n (modify fun w => { w with log := l w } : SolveM PUnit) fun _ _ => True := by
  intro w r w' hSize hClosed hRun
  obtain ⟨rfl, rfl⟩ := Prod.mk.inj hRun
  exact ⟨hClosed, hl w hSize, (by rintro f ⟨⟩), fun _ _ => trivial⟩

/-- An event is safe to log if it mentions allocated points only. -/
theorem safe_emit {e : Trace.Event} (he : Below n e.mentions) :
    Safe n (emit e) fun _ _ => True := by
  refine safe_log fun w hSize => ⟨Nat.le_refl _, fun e' k hEvent => ?_⟩
  rcases List.mem_cons.mp hEvent with hNew | hOld
  · obtain ⟨rfl, rfl⟩ := Trace.Entry.event.inj hNew
    exact .inr ⟨Nat.le_refl _, he.mono hSize⟩
  · exact .inl hOld

/-- A step that only logs. -/
theorem Logs.safe {result : Except Halt α} (h : Logs (fun e => Below n e.mentions) x result)
    (hFault : ∀ f, result ≠ .error (.fault f)) (hQ : ∀ v, result = .ok v → ∀ m, n ≤ m → Q m v) :
    Safe n x Q := by
  intro w r w' hSize hClosed hRun
  obtain ⟨entries, hOutcome, hEvents⟩ := h w
  obtain ⟨rfl, rfl⟩ := Prod.mk.inj (hRun.symm.trans hOutcome)
  refine ⟨hClosed, ⟨Nat.le_refl _, fun e k hEvent => ?_⟩, hFault, fun v hv => hQ v hv _ hSize⟩
  rcases List.mem_append.mp hEvent with hNew | hOld
  · obtain ⟨hBelow, rfl⟩ := hEvents e k hNew
    exact .inr ⟨Nat.le_refl _, hBelow.mono hSize⟩
  · exact .inl hOld

/-- Spans mention no points. -/
theorem Safe.within (hMono : ∀ i j v, i ≤ j → Q i v → Q j v) (hx : Safe n x Q)
    (sp : Trace.Span) : Safe n (within sp x) Q := by
  have hMark : ∀ (entry : Trace.Entry), (∀ e k, entry ≠ .event e k) → ∀ (i : Nat) (w : World),
      i ≤ w.arena.size → w.Grows { w with log := entry :: w.log } := by
    intro entry hEntry i w _
    refine ⟨Nat.le_refl _, fun e k hEvent => .inl ?_⟩
    exact (List.mem_cons.mp hEvent).resolve_left (hEntry e k).symm
  refine (safe_log (hMark (.enter sp) (by rintro e k ⟨⟩) n)).bind fun _ m hLe _ => ?_
  refine (hx.later hLe).bind fun v i _ hQ => ?_
  exact (safe_log (hMark .leave (by rintro e k ⟨⟩) i)).map fun _ j hLe' _ k hLe'' =>
    hMono i k v (Nat.le_trans hLe' hLe'') hQ

/-- A question about points that the arena holds. -/
theorem safe_ask {question : Arena → Except Fault α}
    (h : ∀ b : Arena, n ≤ b.size → ∃ v, question b = .ok v) :
    Safe n (ask question) fun _ v => ∃ b, question b = .ok v := by
  intro w r w' hSize hClosed hRun
  obtain ⟨v, hv⟩ := h w.arena hSize
  rw [ask, outcome_bind_ok (outcome_get w), hv] at hRun
  obtain ⟨rfl, rfl⟩ := Prod.mk.inj hRun
  exact ⟨hClosed, .refl w, (by rintro f ⟨⟩), fun v' hv' => ⟨w.arena, Except.ok.inj hv' ▸ hv⟩⟩

/-- Copying is safe where it is sure to give a result. -/
theorem safe_copy {c : Copier} (hc : c.Within n) {x : CopyM α} (Q : Nat → α → Prop)
    (hx : ∀ s : Copying, s.Proper → n ≤ s.arena.size → CopyM.Sure x s Q) :
    Safe n (copy c x) fun m result => Q m result.1 ∧ result.2.Within m := by
  intro w r w' hSize hClosed hRun
  obtain ⟨v, s, hCopy, hProper, hGrown, hQ⟩ := hx ⟨c, w.arena⟩ (hc.mono hSize) hSize
  rw [outcome_copy, hCopy] at hRun
  obtain ⟨rfl, rfl⟩ := Prod.mk.inj hRun
  refine ⟨hClosed.grown hGrown, ⟨hGrown.size_le, fun e k hEvent => .inl hEvent⟩,
    (by rintro f ⟨⟩), ?_⟩
  intro result hResult
  obtain rfl := Except.ok.inj hResult
  exact ⟨hQ, hProper⟩

/-- The candidates of a tier are tried one after the other, each in the arena that the others
have left. -/
theorem Safe.mapM {k : α → SolveM (Option β)} {Q : Nat → β → Prop}
    (hMono : ∀ i j v, i ≤ j → Q i v → Q j v) (l : List α)
    (hk : ∀ i ∈ l, Safe n (k i) fun m found => ∀ c, found = some c → Q m c) :
    Safe n (l.mapM k) fun m results => ∀ c, some c ∈ results → Q m c := by
  induction l generalizing n with
  | nil => exact .pure fun _ _ c hc => by cases hc
  | cons i l ih =>
    obtain ⟨hHead, hTail⟩ := List.forall_mem_cons.mp hk
    rw [List.mapM_cons]
    refine hHead.bind fun found m hLe hFound => ?_
    refine (ih fun j hj => (hTail j hj).later hLe).map ?_
    intro results i hLe' hResults k hLe'' c hc
    rcases List.mem_cons.mp hc with hFirst | hRest
    · exact hMono m k c (Nat.le_trans hLe' hLe'') (hFound c hFirst.symm)
    · exact hMono i k c hLe'' (hResults c hRest)

end SolveM

open SolveM (Safe)

-- ---------------------------------------------------------------------------
-- Proper sessions
-- ---------------------------------------------------------------------------

/-- A bound that was worked off, on the first `n` points, when there were types waiting at
`places` places. -/
structure Resolution.Proper (n places : Nat) (r : Resolution) : Prop where
  bound    : Below n r.bound.mentions
  node     : ∀ node isError, r.outcome = .resolved node isError → node.index < n
  deferred : r.deferred < places

/-- **The invariant of sessions.** They speak of the first `n` points only, their bounds
are like those of the program, and the types of the bounds that were worked off are
waiting where they are looked for. -/
structure Session.Proper (program : Program) (n : Nat) (s : Session) : Prop where
  reachable   : s.unification.Reachable
  unification : s.unification.Within n
  agenda      : ∀ c ∈ s.agenda.toList, c.Proper program n
  implied     : ∀ i ∈ s.implied, i.Proper program n
  resolutions : ∀ r ∈ s.resolutions, r.Proper n s.unification.deferred.length

/-- A candidate on the first `n` points. -/
structure Candidate.Proper (program : Program) (n : Nat) (c : Candidate) : Prop where
  branch : c.branch.Proper program n
  node   : c.candidate.node.index < n
  found  : Below n c.found.mentions

theorem Resolution.Proper.mono {places places' : Nat} {r : Resolution} (h : r.Proper n places)
    (hLe : n ≤ m) (hPlaces : places ≤ places') : r.Proper m places' where
  bound := h.bound.mono hLe
  node node isError hOutcome := Nat.lt_of_lt_of_le (h.node node isError hOutcome) hLe
  deferred := Nat.lt_of_lt_of_le h.deferred hPlaces

namespace Session

variable {program : Program} {s : Session}

theorem Proper.mono (h : s.Proper program n) (hLe : n ≤ m) : s.Proper program m where
  reachable := h.reachable
  unification := h.unification.mono hLe
  agenda c hc := (h.agenda c hc).mono hLe
  implied i hi := (h.implied i hi).mono hLe
  resolutions r hr := (h.resolutions r hr).mono hLe (Nat.le_refl _)

/-- A session may go on with another state of unification, as long as nothing that is waiting
gets lost. -/
theorem Proper.withUnification (h : s.Proper program n) {u : Unification} (hu : u.Reachable)
    (hWithin : u.Within n)
    (hPlaces : s.unification.deferred.length ≤ u.deferred.length) :
    { s with unification := u }.Proper program n where
  reachable := hu
  unification := hWithin
  agenda := h.agenda
  implied := h.implied
  resolutions r hr := (h.resolutions r hr).mono (Nat.le_refl n) hPlaces

theorem Proper.withAgenda (h : s.Proper program n) {agenda : Agenda}
    (hAgenda : ∀ c ∈ agenda.toList, c.Proper program n) : { s with agenda }.Proper program n :=
  ⟨h.reachable, h.unification, hAgenda, h.implied, h.resolutions⟩

/-- New constraints on the agenda. -/
theorem Proper.extend (h : s.Proper program n) {cs : List Constraint}
    (hcs : ∀ c ∈ cs, c.Proper program n) :
    { s with agenda := s.agenda.extend cs }.Proper program n := by
  refine h.withAgenda fun c hc => ?_
  rcases List.mem_append.mp ((Agenda.toList_extend s.agenda cs).mem_iff.mp hc) with hNew | hOld
  · exact hcs c hNew
  · exact h.agenda c hOld

/-- A fork has flags of its own, but speaks of the same points. -/
theorem Proper.fork (h : s.Proper program n) : s.fork.Proper program n :=
  h.withUnification (.fork h.reachable) (h.unification.congr rfl rfl rfl) (Nat.le_refl _)

/-- A branch takes the place of the session. -/
theorem Proper.commit (h : s.Proper program n) {branch : Session}
    (hBranch : branch.Proper program n) : (s.commit branch).Proper program n :=
  hBranch.withUnification (.commit h.reachable hBranch.reachable)
    (hBranch.unification.congr rfl rfl rfl) (Nat.le_refl _)

/-- The types of a bound go to the next place, which is where they are looked for. -/
theorem Proper.close (h : s.Proper program n) {b : Bound} (hb : Below n b.mentions)
    {outcome : Option Outcome}
    (hNode : ∀ node isError, outcome = some (.resolved node isError) → node.index < n) :
    (s.close b outcome).Proper program n where
  reachable := .defer h.reachable b.args
  unification := h.unification.defer (Bound.below_mentions.mp hb).2.2
  agenda := h.agenda
  implied := h.implied
  resolutions r hr := by
    have hPlaces : (s.close b outcome).unification.deferred.length =
        s.unification.deferred.length + 1 := by
      simp [Session.close, Unification.defer]
    rw [hPlaces]
    rcases List.mem_append.mp hr with hOld | hNew
    · exact (h.resolutions r hOld).mono (Nat.le_refl n) (Nat.le_succ _)
    · -- the new entry waits at the last place
      obtain ⟨o, rfl, rfl⟩ := Option.map_eq_some_iff.mp (Option.mem_toList.mp hNew)
      refine ⟨hb, fun node isError hOutcome => hNode node isError (congrArg some hOutcome), ?_⟩
      exact Nat.lt_succ_self _

end Session

theorem Candidate.Proper.mono {program : Program} {c : Candidate} (h : c.Proper program n)
    (hLe : n ≤ m) : c.Proper program m :=
  ⟨h.branch.mono hLe, Nat.lt_of_lt_of_le h.node hLe, h.found.mono hLe⟩

-- ---------------------------------------------------------------------------
-- Ascriptions and calls
-- ---------------------------------------------------------------------------

namespace Session

variable {program : Program} {s : Session} {depth : Nat}

/-- What a small step logs mentions nothing, but for the type of an ascription. -/
theorem below_minor (e : Trace.Event) (he : e.Minor) : Below n e.mentions := by
  cases e <;> first | exact below_nil | cases he

/-- Unifying types on allocated points. -/
theorem Proper.unify (h : s.Proper program n) {left right : Ty} (hLeft : Below n left.mentions)
    (hRight : Below n right.mentions) {notes : List Note} {u : Unification}
    (hRun : s.unification.unify depth left right = some (notes, u)) :
    { s with unification := u }.Proper program n :=
  h.withUnification (.unify h.reachable hRun)
    (h.unification.unify h.reachable.wellFormed hLeft hRight hRun)
    (h.reachable.later_unify hRun).deferred.length_le

/-- Unifying one pair after the other. -/
theorem Proper.unifyAll (h : s.Proper program n) {eqs : List (Ty × Ty)} {u : Unification}
    (hEqs : ∀ eq ∈ eqs, Below n eq.1.mentions ∧ Below n eq.2.mentions)
    (hRun : s.unification.unifyAll depth eqs = some u) :
    { s with unification := u }.Proper program n := by
  refine Unification.unifyAll_induction (P := fun v => { s with unification := v }.Proper program n)
    h hRun ?_
  intro eq hEq v v' notes hv hUnify
  exact hv.unify (hEqs eq hEq).1 (hEqs eq hEq).2 hUnify

theorem Proper.ascribe (h : s.Proper program n) {a : Ascription} (ha : Below n a.mentions)
    {u : Unification} (hRun : s.unification.ascribe depth a = some u) :
    { s with unification := u }.Proper program n := by
  obtain ⟨hNode, hType⟩ := below_cons.mp ha
  refine Unification.ascribe_induction
    (P := fun v => { s with unification := v }.Proper program n) h hRun (fun _ => ?_) ?_
  · exact h.withUnification (.isOpen h.reachable a.node) (h.unification.isOpen hNode)
      (h.reachable.later_isOpen a.node).deferred.length_le
  · intro v v' notes hv hUnify
    have hPoint : Below n (Ty.point a.node).mentions := below_cons.mpr ⟨hNode, below_nil⟩
    exact hv.unify hPoint hType hUnify

/-- An ascription never faults. -/
theorem safe_ascribe (hs : s.Proper program n) {a : Ascription} (ha : Below n a.mentions) :
    Safe n (s.ascribe depth a) (Session.Proper program) := by
  refine (logs_ascribe depth below_minor (below_cons.mp ha).2 s).safe withState_ne_fault ?_
  intro s' hState m hLe
  obtain ⟨u, hRun, rfl⟩ := unification_of_withState hState
  exact (hs.ascribe ha hRun).mono hLe

end Session

/-- A copier starts with what the call fixes. -/
theorem Copier.within_ofCall {c : Call} (h : Below n c.mentions) : (Copier.ofCall c).Within n := by
  obtain ⟨-, -, hPoints, hArgs⟩ := Call.below_mentions.mp h
  exact ⟨fun p q hFound => (hPoints p q hFound).2,
    fun k t hFound => (Substitution.below_mentions.mp hArgs k t hFound).2⟩

/-- The constraints of a definition can be copied for a call, and the copies are like
constraints of the program. -/
theorem Call.safe_unfold {program : Program} (hProgram : program.Proper n) {c : Call}
    (hc : Below n c.mentions) :
    Safe n (c.unfold program) fun m result =>
      (∀ x ∈ result.1, x.Proper program m) ∧ result.2.Within m := by
  refine Safe.within (fun _ _ _ hLe hResult =>
    ⟨fun x hx => (hResult.1 x hx).mono hLe, hResult.2.mono hLe⟩) ?_ _
  refine (SolveM.safe_emit below_nil).bind fun _ m hLe _ => ?_
  refine SolveM.safe_copy ((Copier.within_ofCall hc).mono hLe)
    (fun k (cs : List Constraint) => ∀ x ∈ cs, x.Proper program k) fun s hProper hSize => ?_
  refine CopyM.sure_constraints _ hProper fun x hx => ?_
  exact (hProgram.constraint (Program.mem_constraints_of_definition hx)).mono
    (Nat.le_trans hLe hSize)

/-- A call never faults. -/
theorem Session.safe_call {program : Program} (hProgram : program.Proper n) {s : Session}
    (hs : s.Proper program n) {c : Call} (hc : Below n c.mentions) :
    Safe n (s.call program c) (Session.Proper program) := by
  refine (c.safe_unfold hProgram hc).map ?_
  rintro ⟨cs, copier⟩ m hLe ⟨hcs, -⟩ k hLe'
  exact ((hs.mono hLe).extend hcs).mono hLe'

-- ---------------------------------------------------------------------------
-- The search for an instance
-- ---------------------------------------------------------------------------

/-- A parameter is supplied or inferred. -/
theorem Substitution.contains_inferred {args : Substitution} {q : Parameter}
    (h : args.contains q = true) (hSupplied : args.supplied[q]? = none) :
    args.inferred.contains q = true := by
  obtain ⟨t, ht⟩ := Option.isSome_iff_exists.mp
    ((Std.ExtTreeMap.contains_eq_isSome_getElem? (t := args) (a := q)).symm.trans h)
  rw [Std.ExtTreeMap.contains_eq_isSome_getElem?]
  rw [supplied, Std.ExtTreeMap.getElem?_filter', ht] at hSupplied
  rw [inferred, Std.ExtTreeMap.getElem?_filter', ht]
  cases hInfer : q.infer with
  | true => simp
  | false => simp [hInfer] at hSupplied

namespace Session

variable {program : Program} {s : Session} {depth : Nat} {b : Bound} {i : Instance} {tier : Tier}
  {settle : Session → SolveM Session}

/-- The types of a bound for one of its parameters. -/
theorem below_of_getElem? (hb : Below n b.mentions) {q : Parameter} {t : Ty}
    (h : b.args[q]? = some t) : Below n t.mentions :=
  (Substitution.below_mentions.mp (Bound.below_mentions.mp hb).2.2 q t h).2

/-- The types that an instance gives are compared with those of a bound that has all its
parameters. -/
theorem safe_judge {branch : Session} {args : Substitution} (hb : Below n b.mentions)
    (hBranch : branch.Proper program n) (hNode : i.node.index < n) (hArgs : Below n args.mentions)
    (hKeys : ∀ q, args.contains q = true → b.args.contains q = true) :
    Safe n (judge depth b i branch args) fun m found =>
      ∀ c, found = some c → c.Proper program m := by
  have hEntries : ∀ x ∈ args.toList, b.args.contains x.1 = true ∧ x.1.source.index < n ∧
      Below n x.2.mentions := by
    rintro ⟨q, t⟩ hEntry
    have hFound := Std.ExtTreeMap.mem_toList_iff_getElem?_eq_some.mp hEntry
    have hContains : args.contains q = true := by
      rw [Std.ExtTreeMap.contains_eq_isSome_getElem?, hFound]
      rfl
    exact ⟨hKeys q hContains, Substitution.below_mentions.mp hArgs q t hFound⟩
  refine (logs_judge depth below_minor b i branch args).safe (fun f hFault => ?_) ?_
  · -- for a fault the bound would have to lack a parameter
    obtain ⟨x, hx, hSupplied, hInferred⟩ := verdict_fault hFault
    rw [Substitution.contains_inferred (hEntries x hx).1 hSupplied] at hInferred
    cases hInferred
  · rintro found hFound m hLe c rfl
    obtain ⟨u, found, hMatch, -, rfl⟩ := verdict_some hFound
    obtain ⟨hRun, hCompares⟩ := Unification.matchArgs_ok hMatch
    refine Candidate.Proper.mono (n := n) ⟨hBranch.unifyAll (fun eq hEq => ?_) hRun, hNode, ?_⟩ hLe
    · -- what is unified are types of the bound and of the instance
      obtain ⟨q, hEntry, hSupplied⟩ := Bound.mem_equations.mp hEq
      exact ⟨below_of_getElem? hb (Substitution.getElem?_of_supplied hSupplied),
        (hEntries _ hEntry).2.2⟩
    · refine Substitution.below_mentions.mpr fun q t ht => ?_
      rcases hCompares.origin q t ht with hNone | hEntry
      · simp at hNone
      · exact (hEntries _ hEntry).2

/-- What `settle` makes of sessions that have come at least as far as `n` points. -/
def SettlesFrom (program : Program) (n : Nat) (settle : Session → SolveM Session) : Prop :=
  ∀ m s, n ≤ m → s.Proper program m → Safe m (settle s) (Session.Proper program)

/-- What is prepared for the trial of an instance has the parameters of the instance. -/
def Prepared (program : Program) (i : Instance) (m : Nat) (result : Session × Substitution) :
    Prop :=
  result.1.Proper program m ∧ Below m result.2.mentions ∧
    ∀ q, result.2.contains q = i.args.contains q

/-- An instance can be copied for a bound. -/
theorem safe_instantiate (hProgram : program.Proper n) (hSettle : SettlesFrom program n settle)
    (hs : s.Proper program n) (hb : Below n b.mentions) (hi : Below n i.mentions) :
    Safe n (s.instantiate program settle b i) (Prepared program i) := by
  obtain ⟨hNode, -, hArgs⟩ := Instance.below_mentions.mp hi
  have hCall : Below n (Call.ofSource b.source i.node ∅).mentions :=
    Call.below_mentions_ofSource (Bound.below_mentions.mp hb).1 hNode
      Substitution.below_mentions_empty
  refine (Call.safe_unfold hProgram hCall).bind ?_
  rintro ⟨cs, copier⟩ m hLe ⟨hcs, hCopier⟩
  refine (SolveM.safe_copy hCopier _ fun s hProper hSize =>
    CopyM.sure_substitution hProper (hArgs.mono (Nat.le_trans hLe hSize))).bind ?_
  rintro ⟨args, _⟩ j hLe' ⟨⟨hCopied, hKeys⟩, -⟩
  have hNext := (hs.mono (Nat.le_trans hLe hLe')).extend fun c hc => (hcs c hc).mono hLe'
  -- settling happens in an arena that holds both copies
  refine (hSettle j _ (by omega) hNext).map fun s' k hMore hs' k' hLast => ?_
  exact ⟨hs'.mono hLast, hCopied.mono (by omega), hKeys⟩

/-- An assumption is taken as it stands. -/
theorem safe_prepare (hProgram : program.Proper n) (hSettle : SettlesFrom program n settle)
    (hs : s.Proper program n) (hb : Below n b.mentions) (hi : Below n i.mentions) :
    Safe n (s.prepare program settle b tier i) (Prepared program i) := by
  cases tier with
  | implied =>
    have hArgs := (Instance.below_mentions.mp hi).2.2
    exact .pure fun m hLe => ⟨hs.fork.mono hLe, hArgs.mono hLe, fun _ => rfl⟩
  | ordinary => exact safe_instantiate hProgram hSettle hs.fork hb hi
  | default => exact safe_instantiate hProgram hSettle hs.fork hb hi

/-- **A trial never faults**, if the instance has no parameter that the bound lacks. -/
theorem safe_attempt (hProgram : program.Proper n) (hSettle : SettlesFrom program n settle)
    (hs : s.Proper program n) (hb : Below n b.mentions) (hi : Below n i.mentions)
    (hKeys : ∀ q, i.args.contains q = true → b.args.contains q = true) :
    Safe n (s.attempt depth program settle b tier i) fun m found =>
      ∀ c, found = some c → c.Proper program m := by
  rw [attempt_eq]
  refine (safe_prepare hProgram hSettle hs hb hi).bind ?_
  rintro ⟨branch, args⟩ m hLe ⟨hBranch, hArgs, hSame⟩
  have hNode := Nat.lt_of_lt_of_le (Instance.below_mentions.mp hi).1 hLe
  exact safe_judge (hb.mono hLe) hBranch hNode hArgs fun q hq => hKeys q (hSame q ▸ hq)

/-- The winner of a tier is one of its candidates. -/
theorem safe_firstUnique {trial : Tier → Instance → SolveM (Option Candidate)}
    (l : List (Tier × List Instance))
    (hTrial : ∀ x ∈ l, ∀ i ∈ x.2, Safe n (trial x.1 i) fun m found =>
      ∀ c, found = some c → c.Proper program m) :
    Safe n (firstUnique trial l) fun m result =>
      ∀ tier c, result = some (tier, c) → c.Proper program m := by
  induction l generalizing n with
  | nil => exact .pure fun _ _ tier c hc => by cases hc
  | cons x rest ih =>
    obtain ⟨tier, is⟩ := x
    obtain ⟨hHere, hRest⟩ := List.forall_mem_cons.mp hTrial
    refine (Safe.mapM (Q := Candidate.Proper program) (fun _ _ _ hLe hc => hc.mono hLe) is
      hHere).bind fun results m hLe hResults => ?_
    refine (SolveM.safe_emit below_nil).bind fun _ j hLe' _ => ?_
    split
    · -- exactly one fits, and it was among the results
      rename_i c hOnly
      have hMem : c ∈ results.reduceOption := hOnly ▸ List.mem_singleton_self c
      have hc := hResults c (List.reduceOption_mem_iff.mp hMem)
      refine .pure fun k hLe'' tier' c' hc' => ?_
      obtain ⟨-, rfl⟩ := Prod.mk.inj (Option.some.inj hc')
      exact hc.mono (Nat.le_trans hLe' hLe'')
    · exact ih fun x hx i hi => (hRest x hx i hi).later (Nat.le_trans hLe hLe')

/-- The winner is adopted. -/
theorem safe_accept (hs : s.Proper program n) (hb : Below n b.mentions) {c : Candidate}
    (hc : c.Proper program n) :
    Safe n (s.accept depth b tier c) (Session.Proper program) := by
  refine (logs_accept depth below_minor b tier c s).safe conclude_ne_fault ?_
  intro s' hEnd m hLe
  obtain ⟨u, hRun, rfl⟩ := conclude_ok hEnd
  have hAdopted : { s.commit c.branch with unification := u }.Proper program n := by
    refine (hs.commit hc.branch).unifyAll (fun eq hEq => ?_) hRun
    obtain ⟨q, hEntry, hSlot⟩ := Bound.mem_slots.mp hEq
    exact ⟨below_of_getElem? hb (Substitution.getElem?_of_inferred hSlot),
      (Substitution.below_mentions.mp hc.found q eq.2
        (Std.ExtTreeMap.mem_toList_iff_getElem?_eq_some.mp hEntry)).2⟩
  refine (hAdopted.close hb fun node isError hOutcome => ?_).mono hLe
  -- only instances of the program are booked, with their nodes
  unfold Tier.outcome at hOutcome
  split at hOutcome
  · cases hOutcome
  · exact (Outcome.resolved.inj (Option.some.inj hOutcome)).1 ▸ hc.node

/-- **The instances that are tried for a bound fit it**: they are on points that there are
and give types for no parameter that the bound lacks. -/
theorem Proper.tiers (hProgram : program.Proper n) (hs : s.Proper program n)
    (hDeclared : program.Declares b.trait b.args) {x : Tier × List Instance}
    (hx : x ∈ s.tiers program b) {i : Instance} (hi : i ∈ x.2) :
    Below n i.mentions ∧ ∀ q, i.args.contains q = true → b.args.contains q = true := by
  by_cases hTier : x.1 = .implied
  · -- assumptions have exactly the parameters of the bounds of their trait
    have hAssumed : i ∈ s.implied.filter (·.trait == b.trait) := by
      simp only [Session.tiers, List.mem_cons, List.not_mem_nil, or_false] at hx
      rcases hx with rfl | rfl | rfl
      · exact hi
      · cases hTier
      · cases hTier
    obtain ⟨hMem, hTrait⟩ := List.mem_filter.mp hAssumed
    have hProper := hs.implied i hMem
    have hDeclared' : program.Declares b.trait i.args := eq_of_beq hTrait ▸ hProper.declared
    exact ⟨hProper.below, fun q hq => (hProgram.contains_eq hDeclared hDeclared').trans hq⟩
  · have hMem := mem_instancesOf_of_mem_tiers hx hi hTier
    exact ⟨Program.below_mentions_instance hProgram.allocated hMem, fun q hq =>
      hProgram.contains_of_instance hDeclared hMem hq⟩

/-- A search never faults, whatever comes of it. -/
theorem safe_seek (hProgram : program.Proper n) (hSettle : SettlesFrom program n settle)
    (hs : s.Proper program n) (hb : Below n b.mentions)
    (hDeclared : program.Declares b.trait b.args) :
    Safe n (s.seek depth program settle b) (Session.Proper program) := by
  refine (SolveM.safe_emit hb).bind fun _ m hLe _ => ?_
  have hUnique : Safe m (firstUnique (fun tier i => s.attempt depth program settle b tier i)
      (s.tiers program b)) fun k result =>
        ∀ tier c, result = some (tier, c) → c.Proper program k := by
    refine safe_firstUnique _ fun x hx i hi => Safe.later (n := n) ?_ hLe
    obtain ⟨hBelow, hKeys⟩ := Proper.tiers hProgram hs hDeclared hx hi
    exact safe_attempt hProgram hSettle hs hb hBelow hKeys
  refine hUnique.bind fun result j hLe' hResult => ?_
  have hs' := hs.mono (Nat.le_trans hLe hLe')
  have hb' := hb.mono (Nat.le_trans hLe hLe')
  cases result with
  -- nothing was found, and the bound is booked as unresolved
  | none =>
    refine (SolveM.safe_emit below_nil).map fun _ k hMore _ k' hLast => ?_
    exact (hs'.close hb' fun node isError hOutcome => by cases hOutcome).mono (by omega)
  | some winner =>
    obtain ⟨tier, c⟩ := winner
    exact safe_accept hs' hb' (hResult tier c rfl)

/-- Nor does a bound for which nothing is sought. -/
theorem safe_resolve (hProgram : program.Proper n) (hSettle : SettlesFrom program n settle)
    (hs : s.Proper program n) (hb : Below n b.mentions)
    (hDeclared : program.Declares b.trait b.args) :
    Safe n (s.resolve depth program settle b) (Session.Proper program) := by
  refine Safe.within (fun _ _ _ hLe hs => hs.mono hLe) ?_ _
  have hSame : Safe n (pure s : SolveM Session) (Session.Proper program) :=
    .pure fun _ hLe => hs.mono hLe
  split
  · exact (SolveM.safe_emit below_nil).bind fun _ _ hLe _ => hSame.later hLe
  · split
    · exact (SolveM.safe_emit below_nil).bind fun _ _ hLe _ => hSame.later hLe
    · exact safe_seek hProgram hSettle hs hb hDeclared

-- ---------------------------------------------------------------------------
-- Runs
-- ---------------------------------------------------------------------------

/-- **One step**, for each kind of constraint. -/
theorem safe_work (hProgram : program.Proper n) (hSettle : SettlesFrom program n settle)
    (hs : s.Proper program n) : ∀ c : Constraint, c.Proper program n →
      Safe n (s.work depth program settle c) (Session.Proper program)
  | .ascribe _, hc => safe_ascribe hs hc.below
  | .fallback _, hc => safe_ascribe hs hc.below
  | .call _, hc => safe_call hProgram hs hc.below
  | .require b, hc => safe_resolve hProgram hSettle hs hc.below (hc.declared b rfl)
  | .scoped c, hc => safe_work hProgram hSettle hs c ⟨hc.below, hc.declared⟩

/-- **Whole runs**, and the runs inside trials with them. -/
theorem safe_runBefore (hProgram : program.Proper n) (steps : Nat) (limit : Option Stage) :
    SettlesFrom program n (runBefore program depth limit steps) := by
  -- a trial has fewer steps left than the run that makes it, so `ih` covers both
  induction steps generalizing n limit with
  | zero => exact fun _ _ _ _ => .throw (by rintro f ⟨⟩)
  | succ steps ih =>
    intro m s hLe hs
    unfold runBefore
    cases hPop : s.agenda.popBefore limit with
    | none => exact .pure fun _ hLe' => hs.mono hLe'
    | some next =>
      obtain ⟨c, agenda⟩ := next
      obtain ⟨hNext, hLeft⟩ := Agenda.mem_toList_of_popBefore hPop
      have hs' : { s with agenda }.Proper program m :=
        hs.withAgenda fun x hx => hs.agenda x (hLeft x hx)
      refine (SolveM.safe_emit below_nil).bind fun _ j hLe' _ => ?_
      have hProgram' := hProgram.mono (Nat.le_trans hLe hLe')
      refine (safe_work hProgram' (ih hProgram' (some .bound)) (hs'.mono hLe') c
        ((hs.agenda c hNext).mono hLe')).bind fun s'' k hLe'' hs'' => ?_
      exact ih (hProgram'.mono hLe'') limit k s'' (Nat.le_refl k) hs''

/-- A session starts with constraints and assumptions of the program. -/
theorem Proper.start {implied : List Instance} {cs : List Constraint}
    (hImplied : ∀ i ∈ implied, i.Proper program n) (hcs : ∀ c ∈ cs, c.Proper program n) :
    (start implied cs).Proper program n where
  reachable := .empty
  unification := Unification.within_empty
  agenda c hc := by
    rcases List.mem_append.mp ((Agenda.toList_extend {} cs).mem_iff.mp hc) with hNew | hOld
    · exact hcs c hNew
    · exact absurd hOld List.not_mem_nil
  implied := hImplied
  resolutions r hr := absurd hr List.not_mem_nil

end Session

end TraitInference
