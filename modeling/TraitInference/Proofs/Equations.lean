import TraitInference.Proofs.Solving

/-!
# TraitInference — what the small steps of a session do

To unify, to work off an ascription, to compare the types of an instance with those of a
bound and to go on with a candidate: each of these changes the state of unification, writes
to the log, and does nothing else. This module says once what each of them does, and no
other has to look at them:

* `SolveM.Logs` — a program that only logs, and the result with which it ends in every world.
* `Unification.unifyAll`, `Unification.ascribe`, `Unification.matchArgs` — what becomes of
  the state. All of it is unifications, the equations of which are known, and questions
  whether a point is open (`Unification.ascribe_cases`, `Unification.matchArgs_ok`).
* `Session.logs_unify`, `logs_ascribe`, `logs_judge`, `logs_accept` — the steps themselves.
* `Call.unfold_runIn` — what a call unfolds to is copied in the arena as it is.
-/

namespace TraitInference

-- ---------------------------------------------------------------------------
-- Programs that only log
-- ---------------------------------------------------------------------------

/-- An event of a small step, other than the start of an ascription. -/
def Trace.Event.Minor : Trace.Event → Prop
  | .noted _ | .defaultSkipped _ | .rejected _ | .resolved _ _ => True
  | _ => False

namespace SolveM

variable {α β : Type} {P : Trace.Event → Prop} {x : SolveM α} {result : Except Halt α}

/-- In every world the program ends with this result and only adds to the log, and `P` holds
of the events that it adds. -/
def Logs (P : Trace.Event → Prop) (x : SolveM α) (result : Except Halt α) : Prop :=
  ∀ w : World, ∃ entries, outcome x w = (result, { w with log := entries ++ w.log }) ∧
    ∀ e k, .event e k ∈ entries → P e ∧ k = w.arena.size

/-- The program ends with this result in every world and changes nothing but the log. -/
abbrev OnlyLogs (x : SolveM α) (result : Except Halt α) : Prop :=
  Logs (fun _ => True) x result

theorem Logs.pure (v : α) : Logs P (pure v) (.ok v) :=
  fun _ => ⟨[], rfl, fun _ _ hEvent => absurd hEvent List.not_mem_nil⟩

theorem Logs.throw (e : Halt) : Logs P (throw e : SolveM α) (.error e) :=
  fun _ => ⟨[], rfl, fun _ _ hEvent => absurd hEvent List.not_mem_nil⟩

theorem logs_emit {e : Trace.Event} (he : P e) : Logs P (emit e) (.ok ()) := by
  intro w
  refine ⟨[.event e w.arena.size], rfl, fun e' k hEvent => ?_⟩
  obtain ⟨rfl, rfl⟩ := Trace.Entry.event.inj (List.mem_singleton.mp hEvent)
  exact ⟨he, rfl⟩

/-- An entry that is no event. -/
theorem logs_mark {entry : Trace.Entry} (hEntry : ∀ e k, entry ≠ .event e k) :
    Logs P (modify fun w => { w with log := entry :: w.log } : SolveM PUnit) (.ok ⟨⟩) :=
  fun _ => ⟨[entry], rfl, fun e k hEvent => absurd (List.mem_singleton.mp hEvent).symm (hEntry e k)⟩

/-- The entries of the second program come on top of those of the first. -/
theorem Logs.bind {v : α} {k : α → SolveM β} {result : Except Halt β}
    (hx : Logs P x (.ok v)) (hk : Logs P (k v) result) : Logs P (x >>= k) result := by
  intro w
  obtain ⟨entries, hFirst, hEvents⟩ := hx w
  obtain ⟨entries', hSecond, hEvents'⟩ := hk { w with log := entries ++ w.log }
  refine ⟨entries' ++ entries, ?_, fun e k hEvent => ?_⟩
  · rw [outcome_bind_ok hFirst, hSecond, List.append_assoc]
  · exact (List.mem_append.mp hEvent).elim (hEvents' e k) (hEvents e k)

/-- A program that halts is not followed by anything. -/
theorem Logs.bind_error {e : Halt} {k : α → SolveM β} (hx : Logs P x (.error e)) :
    Logs P (x >>= k) (.error e) := by
  intro w
  obtain ⟨entries, hFirst, hEvents⟩ := hx w
  exact ⟨entries, outcome_bind_error hFirst, hEvents⟩

/-- A span adds its two marks, of which the second one is missing if the program halts. -/
theorem Logs.within (hx : Logs P x result) (sp : Trace.Span) : Logs P (within sp x) result := by
  have hLeave :
      Logs P (modify fun w => { w with log := .leave :: w.log } : SolveM PUnit) (.ok ⟨⟩) :=
    logs_mark (by rintro e k ⟨⟩)
  refine (logs_mark (by rintro e k ⟨⟩)).bind ?_
  cases result with
  | error e => exact hx.bind_error
  | ok v => exact hx.bind (hLeave.bind (.pure v))

/-- A run that ends has ended with the result, and the arena is as it was. -/
theorem Logs.of_outcome (h : Logs P x result) {r : Except Halt α} {w w' : World}
    (hRun : outcome x w = (r, w')) : r = result ∧ w'.arena = w.arena := by
  obtain ⟨entries, hOutcome, -⟩ := h w
  obtain ⟨rfl, rfl⟩ := Prod.mk.inj (hRun.symm.trans hOutcome)
  exact ⟨rfl, rfl⟩

end SolveM

-- ---------------------------------------------------------------------------
-- Equations
-- ---------------------------------------------------------------------------

namespace Unification

variable {depth : Nat} {u u' : Unification} {eqs eqs' : List (Ty × Ty)}

/-- Unifies the sides of each equation, the first one first. -/
def unifyAll (depth : Nat) : List (Ty × Ty) → Unification → Option Unification
  | [], u => some u
  | eq :: eqs, u => (u.unify depth eq.1 eq.2).bind fun result => unifyAll depth eqs result.2

theorem unifyAll_cons_iff {eq : Ty × Ty} : u.unifyAll depth (eq :: eqs) = some u' ↔
    ∃ notes v, u.unify depth eq.1 eq.2 = some (notes, v) ∧ v.unifyAll depth eqs = some u' := by
  rw [unifyAll, Option.bind_eq_some_iff, Prod.exists]

theorem unifyAll_single (left right : Ty) (u : Unification) :
    u.unifyAll depth [(left, right)] = (u.unify depth left right).map (·.2) := by
  rw [unifyAll]
  cases u.unify depth left right <;> rfl

/-- What every one of the unifications keeps, all of them keep. -/
theorem unifyAll_induction {P : Unification → Prop} {eqs : List (Ty × Ty)} (hu : P u)
    (hRun : u.unifyAll depth eqs = some u')
    (hStep : ∀ eq ∈ eqs, ∀ {v v' : Unification} {notes : List Note}, P v →
      v.unify depth eq.1 eq.2 = some (notes, v') → P v') : P u' := by
  induction eqs generalizing u with
  | nil => exact Option.some.inj hRun ▸ hu
  | cons eq eqs ih =>
    obtain ⟨notes, v, hFirst, hRest⟩ := unifyAll_cons_iff.mp hRun
    obtain ⟨hHead, hTail⟩ := List.forall_mem_cons.mp hStep
    exact ih (hHead hu hFirst) hRest hTail

/-- What working off an ascription makes of a state. -/
def ascribe (depth : Nat) (a : Ascription) (u : Unification) : Option Unification :=
  if a.onlyCopies && !a.copied then some u
  else if a.isDefault then
    if (u.isOpen a.node).1 then ((u.isOpen a.node).2.unify depth (.point a.node) a.type).map (·.2)
    else some (u.isOpen a.node).2
  else (u.unify depth (.point a.node) a.type).map (·.2)

/-- **An ascription is at most one equation**, possibly after the question whether its point
is open. -/
theorem ascribe_cases {a : Ascription} (h : u.ascribe depth a = some u') :
    ∃ v eqs, (v = u ∨ v = (u.isOpen a.node).2) ∧ (∀ eq ∈ eqs, eq = (.point a.node, a.type)) ∧
      v.unifyAll depth eqs = some u' := by
  have hNone : ∀ eq ∈ ([] : List (Ty × Ty)), eq = (.point a.node, a.type) := by simp
  have hOne : ∀ eq ∈ [(Ty.point a.node, a.type)], eq = (.point a.node, a.type) := by simp
  unfold ascribe at h
  split at h
  · exact ⟨u, [], .inl rfl, hNone, h⟩
  · split at h
    · split at h
      · exact ⟨_, _, .inr rfl, hOne, (unifyAll_single _ _ _).trans h⟩
      · exact ⟨_, [], .inr rfl, hNone, h⟩
    · exact ⟨u, _, .inl rfl, hOne, (unifyAll_single _ _ _).trans h⟩

/-- What questions about the point and unifications with it keep, an ascription keeps. -/
theorem ascribe_induction {P : Unification → Prop} {a : Ascription} (hu : P u)
    (hRun : u.ascribe depth a = some u') (hOpen : P u → P (u.isOpen a.node).2)
    (hStep : ∀ {v v' : Unification} {notes : List Note}, P v →
      v.unify depth (.point a.node) a.type = some (notes, v') → P v') : P u' := by
  obtain ⟨v, eqs, hLooked, hEqs, hRun⟩ := ascribe_cases hRun
  have hv : P v := hLooked.elim (fun h => h ▸ hu) fun h => h ▸ hOpen hu
  refine unifyAll_induction hv hRun fun eq hMem {_ _ _} hPrevious hUnify => ?_
  obtain rfl := hEqs eq hMem
  exact hStep hPrevious hUnify

/-- What comparing the types of an instance with those of a bound makes of a state, and what
it adds to the types found for inferred parameters. -/
def matchArgs (depth : Nat) (b : Bound) (node : Point) :
    List (Parameter × Ty) → Unification → Substitution → Except Halt (Unification × Substitution)
  | [], u, found => .ok (u, found)
  | (q, t) :: rest, u, found =>
    b.args.supplied[q]?.elim
      (if b.args.inferred.contains q then matchArgs depth b node rest u (found.insert q t)
      else .error (.fault (.foreignParameter q.name node)))
      fun expected => (u.unify depth expected t).elim (.error .tooDeep) fun result =>
        matchArgs depth b node rest result.2 found

end Unification

/-- Supplied types are types of the substitution. -/
theorem Substitution.getElem?_of_supplied {args : Substitution} {q : Parameter} {t : Ty}
    (h : args.supplied[q]? = some t) : args[q]? = some t := by
  rw [supplied, Std.ExtTreeMap.getElem?_filter', Option.filter_eq_some_iff] at h
  exact h.1

theorem Substitution.getElem?_of_inferred {args : Substitution} {q : Parameter} {t : Ty}
    (h : args.inferred[q]? = some t) : args[q]? = some t := by
  rw [inferred, Std.ExtTreeMap.getElem?_filter', Option.filter_eq_some_iff] at h
  exact h.1

namespace Bound

variable {b : Bound} {l rest : List (Parameter × Ty)} {q : Parameter} {t : Ty}

/-- The types of the instance that are unified with supplied ones. -/
def equations (b : Bound) (l : List (Parameter × Ty)) : List (Ty × Ty) :=
  l.filterMap fun x => b.args.supplied[x.1]?.map (·, x.2)

/-- The types that were found and are unified with those for inferred parameters. -/
def slots (b : Bound) (l : List (Parameter × Ty)) : List (Ty × Ty) :=
  l.filterMap fun x => b.args.inferred[x.1]?.map (·, x.2)

theorem mem_equations {eq : Ty × Ty} :
    eq ∈ b.equations l ↔ ∃ q, (q, eq.2) ∈ l ∧ b.args.supplied[q]? = some eq.1 := by
  simp only [equations, List.mem_filterMap, Option.map_eq_some_iff, Prod.exists]
  constructor
  · rintro ⟨q, t, hMem, expected, hSupplied, rfl⟩
    exact ⟨q, hMem, hSupplied⟩
  · rintro ⟨q, hMem, hSupplied⟩
    exact ⟨q, eq.2, hMem, eq.1, hSupplied, rfl⟩

theorem mem_slots {eq : Ty × Ty} :
    eq ∈ b.slots l ↔ ∃ q, (q, eq.2) ∈ l ∧ b.args.inferred[q]? = some eq.1 := by
  simp only [slots, List.mem_filterMap, Option.map_eq_some_iff, Prod.exists]
  constructor
  · rintro ⟨q, t, hMem, slot, hSlot, rfl⟩
    exact ⟨q, hMem, hSlot⟩
  · rintro ⟨q, hMem, hSlot⟩
    exact ⟨q, eq.2, hMem, eq.1, hSlot, rfl⟩

/-- The types of an instance were compared with those of the bound. Those for inferred
parameters were added to `found`, which gave `found'`. -/
structure Compares (b : Bound) (l : List (Parameter × Ty)) (found found' : Substitution) :
    Prop where
  known  : ∀ x ∈ l, (∃ t, b.args.supplied[x.1]? = some t) ∨ ∃ t, b.args.inferred[x.1]? = some t
  origin : ∀ (q : Parameter) (t : Ty), found'[q]? = some t → found[q]? = some t ∨ (q, t) ∈ l
  others : ∀ q, (∀ x ∈ l, x.1 ≠ q) → found'[q]? = found[q]?
  found  : l.Pairwise (fun x y => x.1 ≠ y.1) → ∀ x ∈ l, b.args.supplied[x.1]? = none →
    found'[x.1]? = some x.2

theorem Compares.nil (found : Substitution) : b.Compares [] found found where
  known _ hx := absurd hx List.not_mem_nil
  origin _ _ := .inl
  others _ _ := rfl
  found _ _ hx := absurd hx List.not_mem_nil

/-- A type for a supplied parameter is unified, and nothing is found. -/
theorem Compares.cons_supplied {found found' : Substitution} {expected : Ty}
    (hSupplied : b.args.supplied[q]? = some expected) (h : b.Compares rest found found') :
    b.Compares ((q, t) :: rest) found found' where
  known := List.forall_mem_cons.mpr ⟨.inl ⟨expected, hSupplied⟩, h.known⟩
  origin q' t' hFound := (h.origin q' t' hFound).imp id (List.mem_cons_of_mem _)
  others q' hOthers := h.others q' fun x hx => hOthers x (List.mem_cons_of_mem _ hx)
  found hDistinct := by
    refine List.forall_mem_cons.mpr ⟨fun hNone => ?_, h.found (List.pairwise_cons.mp hDistinct).2⟩
    rw [hSupplied] at hNone
    cases hNone

/-- A type for an inferred parameter is found. -/
theorem Compares.cons_inferred {found found' : Substitution}
    (hInferred : b.args.inferred.contains q = true)
    (h : b.Compares rest (found.insert q t) found') :
    b.Compares ((q, t) :: rest) found found' where
  known := by
    rw [Std.ExtTreeMap.contains_eq_isSome_getElem?] at hInferred
    exact List.forall_mem_cons.mpr ⟨.inr (Option.isSome_iff_exists.mp hInferred), h.known⟩
  origin q' t' hFound := by
    rcases h.origin q' t' hFound with hBefore | hRest
    · rw [Std.ExtTreeMap.getElem?_insert] at hBefore
      split at hBefore
      · rename_i hEq
        obtain rfl := Std.LawfulEqOrd.compare_eq_iff_eq.mp hEq
        exact .inr (Option.some.inj hBefore ▸ List.mem_cons_self)
      · exact .inl hBefore
    · exact .inr (List.mem_cons_of_mem _ hRest)
  others q' hOthers := by
    have hNe : q ≠ q' := hOthers _ List.mem_cons_self
    rw [h.others q' fun x hx => hOthers x (List.mem_cons_of_mem _ hx),
      Std.ExtTreeMap.getElem?_insert, if_neg (by simpa using hNe)]
  found hDistinct := by
    -- the parameters are distinct, so nothing that was found is replaced
    obtain ⟨hNew, hRest⟩ := List.pairwise_cons.mp hDistinct
    refine List.forall_mem_cons.mpr ⟨fun _ => ?_, h.found hRest⟩
    rw [h.others q fun x hx => (hNew x hx).symm]
    simp

end Bound

namespace Unification

variable {depth : Nat} {b : Bound} {node : Point}

/-- **What is compared with success is equations**, and types found. -/
theorem matchArgs_ok : ∀ {l : List (Parameter × Ty)} {u u' : Unification}
    {found found' : Substitution}, u.matchArgs depth b node l found = .ok (u', found') →
    u.unifyAll depth (b.equations l) = some u' ∧ b.Compares l found found'
  | [], _, _, found, _, h => by
    obtain ⟨rfl, rfl⟩ := Prod.mk.inj (Except.ok.inj h)
    exact ⟨rfl, .nil found⟩
  | (q, t) :: rest, u, u', found, found', h => by
    unfold matchArgs at h
    rw [Bound.equations, List.filterMap_cons]
    cases hSupplied : b.args.supplied[q]? with
    | some expected =>
      rw [hSupplied, Option.elim_some] at h
      cases hUnify : u.unify depth expected t with
      | none =>
        rw [hUnify] at h
        cases h
      | some result =>
        obtain ⟨notes, v⟩ := result
        rw [hUnify] at h
        obtain ⟨hRest, hCompares⟩ := matchArgs_ok h
        exact ⟨unifyAll_cons_iff.mpr ⟨notes, v, hUnify, hRest⟩, hCompares.cons_supplied hSupplied⟩
    -- an inferred parameter, or a fault
    | none =>
      rw [hSupplied, Option.elim_none] at h
      split at h
      · rename_i hInferred
        obtain ⟨hRest, hCompares⟩ := matchArgs_ok h
        exact ⟨hRest, hCompares.cons_inferred hInferred⟩
      · cases h

/-- A fault means that the instance has a parameter that the bound lacks. -/
theorem matchArgs_fault : ∀ {l : List (Parameter × Ty)} {u : Unification} {found : Substitution}
    {f : Fault}, u.matchArgs depth b node l found = .error (.fault f) →
    ∃ x ∈ l, b.args.supplied[x.1]? = none ∧ b.args.inferred.contains x.1 = false
  | [], _, _, _, h => by cases h
  | (q, t) :: rest, u, found, f, h => by
    -- a fault that comes later is one about a later parameter
    have hLater : (∃ x ∈ rest, b.args.supplied[x.1]? = none ∧
        b.args.inferred.contains x.1 = false) → ∃ x ∈ (q, t) :: rest,
        b.args.supplied[x.1]? = none ∧ b.args.inferred.contains x.1 = false := by
      rintro ⟨x, hx, hForeign⟩
      exact ⟨x, List.mem_cons_of_mem _ hx, hForeign⟩
    unfold matchArgs at h
    cases hSupplied : b.args.supplied[q]? with
    | some expected =>
      rw [hSupplied, Option.elim_some] at h
      cases hUnify : u.unify depth expected t with
      | none =>
        rw [hUnify] at h
        cases h
      | some result =>
        rw [hUnify] at h
        exact hLater (matchArgs_fault h)
    | none =>
      rw [hSupplied, Option.elim_none] at h
      split at h
      · exact hLater (matchArgs_fault h)
      · rename_i hForeign
        exact ⟨_, List.mem_cons_self, hSupplied, Bool.eq_false_iff.mpr hForeign⟩

end Unification

-- ---------------------------------------------------------------------------
-- The small steps of a session
-- ---------------------------------------------------------------------------

/-- What is recorded of a bound that is resolved in the tier. -/
def Tier.outcome (tier : Tier) (i : Instance) : Option Outcome :=
  if tier = .implied then none else some (.resolved i.node i.isError)

namespace Session

variable {depth : Nat} {P : Trace.Event → Prop}

/-- The session with what became of its state, if a unification did not go too deep. -/
def withState (s : Session) (state : Option Unification) : Except Halt Session :=
  state.elim (.error .tooDeep) fun unification => .ok { s with unification }

/-- A session that goes on has changed in its state only. -/
theorem unification_of_withState {s s' : Session} {state : Option Unification}
    (h : s.withState state = .ok s') :
    ∃ u, state = some u ∧ s' = { s with unification := u } := by
  cases state with
  | none => cases h
  | some u => exact ⟨u, rfl, (Except.ok.inj h).symm⟩

theorem withState_ne_fault {s : Session} {state : Option Unification} (f : Fault) :
    s.withState state ≠ .error (.fault f) := by
  cases state with
  | none => exact fun h => by cases h
  | some u => exact fun h => by cases h

/-- **To unify is to change the state**, and to log what was noted on the way. -/
theorem logs_unify (depth : Nat) (hP : ∀ e : Trace.Event, e.Minor → P e) (left right : Ty)
    (s : Session) : SolveM.Logs P (s.unify depth left right)
      (s.withState ((s.unification.unify depth left right).map (·.2))) := by
  refine SolveM.Logs.within ?_ _
  cases s.unification.unify depth left right with
  | none => exact .throw _
  | some result =>
    -- one event per note, whatever is noted
    have hNotes : SolveM.Logs P (result.1.forM fun n => SolveM.emit (.noted n)) (.ok ⟨⟩) := by
      induction result.1 with
      | nil => exact .pure _
      | cons n notes ih => exact (SolveM.logs_emit (hP (.noted n) trivial)).bind ih
    exact hNotes.bind (.pure _)

/-- **An ascription concerns nothing but the state.** -/
theorem logs_ascribe (depth : Nat) (hP : ∀ e : Trace.Event, e.Minor → P e) {a : Ascription}
    (ha : P (.ascribe a.node a.type)) (s : Session) :
    SolveM.Logs P (s.ascribe depth a) (s.withState (s.unification.ascribe depth a)) := by
  unfold Session.ascribe Unification.ascribe
  split
  · -- meant for copies only, and this is none
    exact .pure s
  · refine (SolveM.logs_emit ha).bind ?_
    split
    · unfold ascribeDefault
      rcases s.unification.isOpen a.node with ⟨_ | _, v⟩
      · exact (SolveM.logs_emit (hP (.defaultSkipped a.node) trivial)).bind (.pure _)
      · exact logs_unify depth hP (.point a.node) a.type { s with unification := v }
    · exact logs_unify depth hP (.point a.node) a.type s

/-- **Comparing types concerns nothing but the state** and what is found. -/
theorem logs_matchArgs (depth : Nat) (hP : ∀ e : Trace.Event, e.Minor → P e) (b : Bound)
    (node : Point) : ∀ (l : List (Parameter × Ty)) (s : Session) (found : Substitution),
    SolveM.Logs P (matchArgs depth b node l s found)
      ((s.unification.matchArgs depth b node l found).map fun result =>
        ({ s with unification := result.1 }, result.2))
  | [], s, found => .pure (s, found)
  | (q, t) :: rest, s, found => by
    unfold matchArgs Unification.matchArgs
    cases b.args.supplied[q]? with
    | some expected =>
      have hUnify := logs_unify depth hP expected t s
      rw [Option.elim_some]
      cases hState : s.unification.unify depth expected t with
      | none =>
        rw [hState] at hUnify
        exact hUnify.bind_error
      | some result =>
        rw [hState] at hUnify
        exact hUnify.bind
          (logs_matchArgs depth hP b node rest { s with unification := result.2 } found)
    | none =>
      rw [Option.elim_none]
      dsimp only
      split
      · exact logs_matchArgs depth hP b node rest s (found.insert q t)
      · exact .throw _

/-- The end of a trial: the types of the instance are compared with those of the bound. -/
def judge (depth : Nat) (b : Bound) (i : Instance) (branch : Session) (args : Substitution) :
    SolveM (Option Candidate) := do
  let (branch, found) ← branch.matchArgs depth b i.node args.toList ∅
  if branch.unification.hasError then
    SolveM.emit (.rejected i.node)
    return none
  else return some { candidate := i, branch, found }

/-- A trial is prepared, by copying or not, and then judged. -/
theorem attempt_eq (depth : Nat) (program : Program) (settle : Session → SolveM Session)
    (b : Bound) (tier : Tier) (i : Instance) (s : Session) :
    s.attempt depth program settle b tier i =
      s.prepare program settle b tier i >>= fun result => judge depth b i result.1 result.2 :=
  rfl

/-- How a trial ends: the candidate fits if the state shows no conflict. -/
def verdict (depth : Nat) (b : Bound) (i : Instance) (branch : Session) (args : Substitution) :
    Except Halt (Option Candidate) :=
  (branch.unification.matchArgs depth b i.node args.toList ∅).map fun result =>
    if result.1.hasError then none
    else some ⟨i, { branch with unification := result.1 }, result.2⟩

/-- A trial is judged by the state alone. -/
theorem logs_judge (depth : Nat) (hP : ∀ e : Trace.Event, e.Minor → P e) (b : Bound) (i : Instance)
    (branch : Session) (args : Substitution) :
    SolveM.Logs P (judge depth b i branch args) (verdict depth b i branch args) := by
  have hMatch := logs_matchArgs depth hP b i.node args.toList branch ∅
  unfold judge verdict
  cases hResult : branch.unification.matchArgs depth b i.node args.toList ∅ with
  | error e =>
    rw [hResult] at hMatch
    exact hMatch.bind_error
  | ok result =>
    rw [hResult] at hMatch
    refine hMatch.bind ?_
    dsimp only [Except.map]
    split
    · exact (SolveM.logs_emit (hP (.rejected i.node) trivial)).bind (.pure none)
    · exact .pure _

/-- A candidate that fits shows no conflict. -/
theorem verdict_some {b : Bound} {i : Instance} {branch : Session} {args : Substitution}
    {c : Candidate} (h : verdict depth b i branch args = .ok (some c)) :
    ∃ u found, branch.unification.matchArgs depth b i.node args.toList ∅ = .ok (u, found) ∧
      u.hasError = false ∧ c = ⟨i, { branch with unification := u }, found⟩ := by
  unfold verdict at h
  cases hMatch : branch.unification.matchArgs depth b i.node args.toList ∅ with
  | error e =>
    rw [hMatch] at h
    cases h
  | ok result =>
    rw [hMatch] at h
    have hCandidate := Except.ok.inj h
    dsimp only at hCandidate
    split at hCandidate
    · cases hCandidate
    · rename_i hFits
      exact ⟨result.1, result.2, rfl, by simpa using hFits, (Option.some.inj hCandidate).symm⟩

/-- A trial faults only on a parameter that the bound lacks. -/
theorem verdict_fault {b : Bound} {i : Instance} {branch : Session} {args : Substitution}
    {f : Fault} (h : verdict depth b i branch args = .error (.fault f)) :
    ∃ x ∈ args.toList, b.args.supplied[x.1]? = none ∧ b.args.inferred.contains x.1 = false := by
  unfold verdict at h
  cases hMatch : branch.unification.matchArgs depth b i.node args.toList ∅ with
  | ok result =>
    rw [hMatch] at h
    cases h
  | error e =>
    rw [hMatch] at h
    obtain rfl := Except.error.inj h
    exact Unification.matchArgs_fault hMatch

/-- To adopt what was found is to unify it with the types for inferred parameters. -/
theorem logs_adopt (depth : Nat) (hP : ∀ e : Trace.Event, e.Minor → P e) (b : Bound) :
    ∀ (l : List (Parameter × Ty)) (s : Session), SolveM.Logs P (adopt depth b l s)
      (s.withState (s.unification.unifyAll depth (b.slots l)))
  | [], s => .pure s
  | (q, t) :: rest, s => by
    unfold adopt
    rw [Bound.slots, List.filterMap_cons]
    cases b.args.inferred[q]? with
    | none => exact logs_adopt depth hP b rest s
    | some slot =>
      have hUnify := logs_unify depth hP slot t s
      rw [Option.map_some, Unification.unifyAll]
      cases hState : s.unification.unify depth slot t with
      | none =>
        rw [hState] at hUnify
        exact hUnify.bind_error
      | some result =>
        rw [hState] at hUnify
        exact hUnify.bind (logs_adopt depth hP b rest _)

/-- What becomes of a session that goes on with a candidate: the fork is committed, and what
was found is unified with the types for inferred parameters. -/
def conclude (depth : Nat) (b : Bound) (tier : Tier) (c : Candidate) (s : Session) :
    Except Halt Session :=
  ((s.commit c.branch).withState ((s.unification.commit c.branch.unification).unifyAll depth
    (b.slots c.found.toList))).map fun s' => s'.close b (tier.outcome c.candidate)

/-- **Going on with a candidate concerns nothing but the session.** -/
theorem logs_accept (depth : Nat) (hP : ∀ e : Trace.Event, e.Minor → P e) (b : Bound) (tier : Tier)
    (c : Candidate) (s : Session) :
    SolveM.Logs P (s.accept depth b tier c) (s.conclude depth b tier c) := by
  have hAdopt := logs_adopt depth hP b c.found.toList (s.commit c.branch)
  unfold accept conclude
  cases hState : (s.commit c.branch).withState
      ((s.unification.commit c.branch.unification).unifyAll depth (b.slots c.found.toList)) with
  | error e => exact (hState ▸ hAdopt).bind_error
  | ok s' =>
    refine (hState ▸ hAdopt).bind
      ((SolveM.logs_emit (hP (.resolved tier c.candidate.node) trivial)).bind ?_)
    -- assumptions are not recorded as resolutions, the other two tiers are
    cases tier <;> exact .pure _

/-- The session that goes on is the fork, with the bound among what was worked off. -/
theorem conclude_ok {b : Bound} {tier : Tier} {c : Candidate} {s s' : Session}
    (h : s.conclude depth b tier c = .ok s') :
    ∃ u, (s.unification.commit c.branch.unification).unifyAll depth (b.slots c.found.toList) =
        some u ∧
      s' = { s.commit c.branch with unification := u }.close b (tier.outcome c.candidate) := by
  unfold conclude at h
  cases hState : (s.unification.commit c.branch.unification).unifyAll depth
      (b.slots c.found.toList) with
  | none =>
    rw [hState] at h
    cases h
  | some u =>
    rw [hState] at h
    exact ⟨u, rfl, (Except.ok.inj h).symm⟩

theorem conclude_ne_fault {b : Bound} {tier : Tier} {c : Candidate} {s : Session} (f : Fault) :
    s.conclude depth b tier c ≠ .error (.fault f) := by
  unfold conclude
  cases (s.unification.commit c.branch.unification).unifyAll depth (b.slots c.found.toList) with
  | none => exact fun h => by cases h
  | some u => exact fun h => by cases h

end Session

-- ---------------------------------------------------------------------------
-- Calls
-- ---------------------------------------------------------------------------

/-- A span leaves its mark on the log only. -/
theorem Session.within_runIn {α : Type} (sp : Trace.Span) (x : SolveM α) (w : World) :
    ((SolveM.within sp x).runIn w).1 = (x.runIn { w with log := .enter sp :: w.log }).1 ∧
      ((SolveM.within sp x).runIn w).2.arena =
        (x.runIn { w with log := .enter sp :: w.log }).2.arena := by
  -- once the span is entered it is the program, and a mark
  have hEnter : (SolveM.within sp x).runIn w =
      outcome (do
        let v ← x
        modify fun w => { w with log := .leave :: w.log }
        return v) { w with log := .enter sp :: w.log } :=
    outcome_bind_ok rfl
  rw [hEnter]
  rcases hRun : outcome x { w with log := .enter sp :: w.log } with ⟨e | v, w'⟩
  · have hRun' : x.runIn { w with log := .enter sp :: w.log } = _ := hRun
    rw [outcome_bind_error hRun, hRun']
    exact ⟨rfl, rfl⟩
  · have hRun' : x.runIn { w with log := .enter sp :: w.log } = _ := hRun
    rw [outcome_bind_ok hRun, hRun']
    exact ⟨rfl, rfl⟩

/-- What a call unfolds to is copied in the arena as it is. -/
theorem Call.unfold_runIn (program : Program) (k : Call) (w : World) :
    let copied := outcome (CopyM.constraints (program.definition k.definition)) ⟨.ofCall k, w.arena⟩
    ((k.unfold program).runIn w).1 =
        (copied.1.map fun cs => (cs, copied.2.copier)).mapError .fault ∧
      ((k.unfold program).runIn w).2.arena = copied.2.arena := by
  intro copied
  have hCopy := fun log => SolveM.outcome_copy
    (CopyM.constraints (program.definition k.definition)) (.ofCall k) { w with log }
  constructor
  · refine (Session.within_runIn _ _ w).1.trans ((congrArg Prod.fst (hCopy _)).trans ?_)
    show _ = (copied.1.map fun cs => (cs, copied.2.copier)).mapError Halt.fault
    cases copied.1 <;> rfl
  · exact (Session.within_runIn _ _ w).2.trans (congrArg (·.2.arena) (hCopy _))

/-- What a call unfolds to is what its definition is copied to. -/
theorem Call.outcome_unfold {program : Program} {k : Call} {w : World} {cs : List Constraint}
    {s : Copying} (hRun : outcome (CopyM.constraints (program.definition k.definition))
      ⟨.ofCall k, w.arena⟩ = (.ok cs, s)) :
    ∃ w', outcome (k.unfold program) w = (.ok (cs, s.copier), w') ∧ w'.arena = s.arena := by
  obtain ⟨hResult, hArena⟩ := k.unfold_runIn program w
  rw [hRun] at hResult hArena
  exact ⟨_, Prod.ext hResult rfl, hArena⟩

/-- Copying that ended as a step of solving ended. -/
theorem SolveM.copying_of_copy {α : Type} {x : CopyM α} {c c' : Copier} {w w' : World} {v : α}
    (hRun : outcome (copy c x) w = (.ok (v, c'), w')) :
    ∃ s, outcome x ⟨c, w.arena⟩ = (.ok v, s) ∧ s.copier = c' ∧ s.arena = w'.arena := by
  rw [outcome_copy] at hRun
  obtain ⟨hOk, rfl⟩ := Prod.mk.inj hRun
  rcases hCopy : outcome x ⟨c, w.arena⟩ with ⟨e | v', s⟩
  · rw [hCopy] at hOk
    cases hOk
  · rw [hCopy] at hOk
    obtain ⟨rfl, rfl⟩ := Prod.mk.inj (Except.ok.inj hOk)
    exact ⟨s, rfl, rfl, rfl⟩

/-- So did that of a call that was unfolded. -/
theorem Call.copying_of_unfold {program : Program} {k : Call} {w w' : World}
    {cs : List Constraint} {copier : Copier}
    (hRun : outcome (k.unfold program) w = (.ok (cs, copier), w')) :
    ∃ s, outcome (CopyM.constraints (program.definition k.definition)) ⟨.ofCall k, w.arena⟩ =
      (.ok cs, s) ∧ s.copier = copier ∧ s.arena = w'.arena := by
  -- from the outside to the inside: the span, the event, the copy
  obtain ⟨_, _, hEnter, hRun⟩ := outcome_bind_eq_ok.mp hRun
  obtain rfl := (Prod.mk.inj hEnter).2
  obtain ⟨_, w₁, hCopies, hLeave⟩ := outcome_bind_eq_ok.mp hRun
  obtain ⟨_, _, hMark, hPure⟩ := outcome_bind_eq_ok.mp hLeave
  obtain rfl := Except.ok.inj (Prod.mk.inj hPure).1
  have hArena : w₁.arena = w'.arena := by
    rw [← (Prod.mk.inj hPure).2, ← (Prod.mk.inj hMark).2]
  obtain ⟨_, _, hEmit, hCopy⟩ := outcome_bind_eq_ok.mp hCopies
  obtain rfl := (Prod.mk.inj hEmit).2
  obtain ⟨s, hCopied, hCopier, hLeft⟩ := SolveM.copying_of_copy hCopy
  exact ⟨s, hCopied, hCopier, hLeft.trans hArena⟩

/-- In worlds with the same arena a call unfolds to the same. -/
theorem Call.unfold_of_arena_eq {program : Program} {k : Call} {w w' w₁ : World}
    {result : List Constraint × Copier} (hArena : w'.arena = w.arena)
    (hRun : outcome (k.unfold program) w = (.ok result, w₁)) :
    ∃ w₁', outcome (k.unfold program) w' = (.ok result, w₁') ∧ w₁'.arena = w₁.arena := by
  obtain ⟨hResult, hLeft⟩ := k.unfold_runIn program w
  obtain ⟨hResult', hLeft'⟩ := k.unfold_runIn program w'
  rw [hArena] at hResult' hLeft'
  have hOk : ((k.unfold program).runIn w').1 = .ok result :=
    hResult'.trans (hResult.symm.trans (congrArg Prod.fst hRun))
  exact ⟨_, Prod.ext hOk rfl, hLeft'.trans (hLeft.symm.trans (congrArg (·.2.arena) hRun))⟩

-- ---------------------------------------------------------------------------
-- The arena only grows
-- ---------------------------------------------------------------------------

/-- Whatever is done in twin arenas, the first one grows. -/
theorem Sim.grown {α β : Type} {φ : Renaming} {M : Mirror φ} {f : α → β} {x : SolveM α}
    {x' : SolveM β} (h : Sim M.solving f x x') {w w' : World} {result : Except Halt α}
    (hRun : outcome x w = (result, w')) : w.arena.Grown w'.arena := by
  have hGrows := h.grows w
  rw [hRun] at hGrows
  exact hGrows

section Grown

variable {program : Program} {depth : Nat} {w w' : World}

/-- The simulations say that the arena grows, so none of the following looks at a function. -/
theorem Call.grown_unfold {k : Call} {result : Except Halt (List Constraint × Copier)}
    (hRun : outcome (k.unfold program) w = (result, w')) : w.arena.Grown w'.arena :=
  (Session.sim_unfold (.still id) program.over_true k).grown hRun

theorem SolveM.grown_copy_substitution {copier : Copier} {args : Substitution}
    {result : Except Halt (Substitution × Copier)}
    (hRun : outcome (copy copier (CopyM.substitution args)) w = (result, w')) :
    w.arena.Grown w'.arena :=
  (sim_copy (.still id) (CopyM.sim_substitution _ fun _ t _ => t.over_true) copier).grown hRun

theorem Session.grown_runBefore {limit : Option Stage} {steps : Nat} {s : Session}
    {result : Except Halt Session}
    (hRun : outcome (runBefore program depth limit steps s) w = (result, w')) :
    w.arena.Grown w'.arena :=
  (sim_runBefore (.still id) depth program.over_true steps limit s).grown hRun

theorem Session.grown_work {steps : Nat} {c : Constraint} {s : Session}
    {result : Except Halt Session}
    (hRun : outcome (s.work depth program (runBefore program depth (some .bound) steps) c) w =
      (result, w')) : w.arena.Grown w'.arena :=
  (sim_work (.still id) depth program.over_true
    (sim_runBefore _ depth program.over_true steps (some .bound)) c s).grown hRun

/-- A trial, with what is worked off before the bounds. -/
theorem Session.grown_attempt {steps : Nat} {b : Bound} {tier : Tier} {i : Instance} {s : Session}
    {result : Except Halt (Option Candidate)}
    (hRun : outcome (s.attempt depth program (runBefore program depth (some .bound) steps) b tier i)
      w = (result, w')) : w.arena.Grown w'.arena :=
  (sim_attempt (.still id) depth program.over_true
    (sim_runBefore _ depth program.over_true steps (some .bound)) b
    (fun _ => ⟨trivial, fun _ t _ => t.over_true⟩) s).grown hRun

end Grown

end TraitInference
