import Mathlib.Data.List.Basic
import TraitInference.Proofs.Agendas
import TraitInference.Proofs.Isolation
import TraitInference.Proofs.Later
import TraitInference.Proofs.Principal

/-!
# TraitInference — the order of ascriptions does not matter

A session of ascriptions that have a common solution ends, finds no conflict, and
ends in a state that **expresses** them: its solutions are those of the ascriptions
(`Session.runBefore_expresses`). Which point survives a merge, which type a class
keeps and even which points are in one class depends on the order in which the
ascriptions leave the agenda. What they say does not, and what is said determines
the normal forms (`Unification.normal_eq_of_solves_iff`). So two sessions of the
same ascriptions differ in the names of unknown types only (`Session.run_perm`).
-/

namespace TraitInference

-- ---------------------------------------------------------------------------
-- What ascriptions say
-- ---------------------------------------------------------------------------

namespace Ascription

/-- The ascription is worked off wherever it is met and yields to nothing. -/
structure Unconditional (a : Ascription) : Prop where
  everywhere : a.onlyCopies = false
  firm       : a.isDefault = false

/-- The assignment gives the point and its type one tree. -/
def Holds (σ : Assignment) (a : Ascription) : Prop :=
  σ a.node = a.type.value σ

end Ascription

namespace Unification

variable {u u' : Unification} {σ : Assignment} {as as' : List Ascription}

/-- A unification for which there is a solution reports nothing and adds the one
equation. -/
theorem Reachable.unify_of_solution (hu : u.Reachable) {depth : Nat} {left right : Ty}
    {notes : List Note} (hRun : u.unify depth left right = some (notes, u')) (hClean : u.Clean)
    (hSolves : Solves σ u) (hEqual : left.value σ = right.value σ) :
    u'.Clean ∧ ∀ τ, Solves τ u' ↔ Solves τ u ∧ left.value τ = right.value τ := by
  obtain ⟨hError, hDropped⟩ := hu.reports_of_unify hRun
  obtain ⟨conflict, v, hWithin, rfl, rfl⟩ := unify_eq_some_iff.mp hRun
  -- where there is a solution, nothing is noted
  have hJournal : v.journal = [] :=
    (unifyWithin_keepsSolutions depth _ _ _ _ _ σ hu.wellFormed hWithin hSolves hEqual).2.2.trans
      hu.journal_eq_nil
  have hClean' : Clean { v with journal := [] } := by
    refine ⟨hError.trans ?_, hDropped.trans ?_⟩
    · rw [hJournal, hClean.noError]
      rfl
    · rw [hJournal, hClean.noDrop]
      rfl
  exact ⟨hClean', fun τ => ⟨fun h => hu.reflectsModels hRun hClean' h,
    fun h => h.1.unify hu hRun h.2⟩⟩

/-- The state says what the ascriptions say, and nothing else. -/
structure Expresses (u : Unification) (as : List Ascription) : Prop where
  reachable : u.Reachable
  clean     : u.Clean
  single    : u.Single
  solves    : ∀ σ, Solves σ u ↔ ∀ a ∈ as, a.Holds σ

/-- The order in which something is said makes no difference to what is said. -/
theorem Expresses.perm (h : u.Expresses as) (hPerm : as.Perm as') : u.Expresses as' :=
  ⟨h.reachable, h.clean, h.single, fun σ => (h.solves σ).trans <| by
    simp only [hPerm.mem_iff]⟩

/-- One more ascription. -/
theorem Expresses.unify (h : u.Expresses as) {a : Ascription} {depth : Nat} {notes : List Note}
    (hRun : u.unify depth (.point a.node) a.type = some (notes, u'))
    (hSolution : ∀ x ∈ as ++ [a], x.Holds σ) : u'.Expresses (as ++ [a]) := by
  rw [List.forall_mem_append, List.forall_mem_singleton] at hSolution
  obtain ⟨hClean, hSolves⟩ := h.reachable.unify_of_solution hRun h.clean
    ((h.solves σ).mpr hSolution.1) hSolution.2
  refine ⟨.unify h.reachable hRun, hClean,
    (h.reachable.later_unify hRun).single hClean.noError h.single, fun τ => ?_⟩
  rw [List.forall_mem_append, List.forall_mem_singleton, hSolves τ, h.solves τ]
  rfl

/-- What is expressed and has a solution can be normalised. -/
theorem Expresses.settled (h : u.Expresses as) (hSolution : ∀ a ∈ as, a.Holds σ) : u.Settled :=
  ⟨h.reachable.wellFormed, ((h.solves σ).mpr hSolution).acyclic h.reachable.wellFormed, h.single⟩

/-- There is a limit to how deep a unification goes if there is a solution. -/
theorem Expresses.unify_ne_none (h : u.Expresses as) {a : Ascription} {depth : Nat}
    (hSolution : ∀ x ∈ as ++ [a], x.Holds σ) (hDepth : 2 * (σ a.node).height ≤ depth) :
    u.unify depth (.point a.node) a.type ≠ none := by
  rw [List.forall_mem_append, List.forall_mem_singleton] at hSolution
  obtain ⟨⟨conflict, v⟩, hEnds⟩ := unifyWithin_ends σ (σ a.node).height (.point a.node) a.type u
    h.reachable.wellFormed ((h.solves σ).mpr hSolution.1) hSolution.2 le_rfl
  have hWithin := unifyWithin_mono hDepth _ _ _ _ hEnds
  simp [Unification.unify, hWithin]

end Unification

-- ---------------------------------------------------------------------------
-- Sessions of ascriptions
-- ---------------------------------------------------------------------------

namespace SolveM

variable {α β : Type} {x : SolveM α} {result : Except Halt α}

/-- The program ends with this result in every world. -/
def Answers (x : SolveM α) (result : Except Halt α) : Prop :=
  ∀ w : World, (x.runIn w).1 = result

/-- A program that always answers alike may be run first. -/
theorem Answers.bind {v : α} {k : α → SolveM β} {result : Except Halt β}
    (hx : x.Answers (.ok v)) (hk : (k v).Answers result) : (x >>= k).Answers result := by
  intro w
  rcases hFirst : outcome x w with ⟨r, w'⟩
  obtain rfl : r = .ok v := (congrArg Prod.fst hFirst).symm.trans (hx w)
  show (outcome (x >>= k) w).1 = result
  rw [outcome_bind_ok hFirst]
  exact hk w'

theorem Answers.bind_error {e : Halt} {k : α → SolveM β} (hx : x.Answers (.error e)) :
    (x >>= k).Answers (.error e) := by
  intro w
  rcases hFirst : outcome x w with ⟨r, w'⟩
  obtain rfl : r = .error e := (congrArg Prod.fst hFirst).symm.trans (hx w)
  show (outcome (x >>= k) w).1 = .error e
  rw [outcome_bind_error hFirst]

theorem answers_emit (e : Trace.Event) : (emit e).Answers (.ok ()) :=
  fun _ => rfl

theorem Logs.answers {P : Trace.Event → Prop} (h : Logs P x result) : x.Answers result := by
  intro w
  obtain ⟨entries, hRun, -⟩ := h w
  exact congrArg Prod.fst hRun

end SolveM

namespace Session

variable {program : Program} {depth : Nat} {s : Session} {σ : Assignment}
  {done as : List Ascription}

/-- An unconditional ascription is one unification. -/
theorem answers_ascribe (depth : Nat) {a : Ascription} (ha : a.Unconditional) (s : Session) :
    (s.ascribe depth a).Answers
      (s.withState ((s.unification.unify depth (.point a.node) a.type).map (·.2))) := by
  have hState : s.unification.ascribe depth a =
      (s.unification.unify depth (.point a.node) a.type).map (·.2) := by
    unfold Unification.ascribe
    rw [ha.everywhere, ha.firm]
    rfl
  rw [← hState]
  exact (logs_ascribe depth (P := fun _ => True) (fun _ _ => trivial) trivial s).answers

/-- How a session ends that works off ascriptions of which `σ` is a solution: in a
state that expresses them, or because a limit is too low for them. -/
inductive Ending (steps depth : Nat) (σ : Assignment) (as said : List Ascription) :
    Except Halt Session → Prop
  | expressed {s : Session} (h : s.unification.Expresses said) :
      Ending steps depth σ as said (.ok s)
  | tooLong (h : steps ≤ as.length) : Ending steps depth σ as said (.error .tooLong)
  | tooDeep {a : Ascription} (ha : a ∈ as) (h : depth < 2 * (σ a.node).height) :
      Ending steps depth σ as said (.error .tooDeep)

/-- Another ascription takes another step. -/
theorem Ending.step {steps : Nat} {before after said said' : List Ascription} {a : Ascription}
    {result : Except Halt Session} (h : Ending steps depth σ (before ++ after) said result)
    (hSaid : said.Perm said') :
    Ending (steps + 1) depth σ (before ++ a :: after) said' result := by
  cases h with
  | expressed h => exact .expressed (h.perm hSaid)
  | tooLong h =>
    refine .tooLong ?_
    rw [List.length_append] at h
    rw [List.length_append, List.length_cons]
    omega
  | tooDeep ha h =>
    refine .tooDeep ?_ h
    rw [List.mem_append] at ha
    rw [List.mem_append, List.mem_cons]
    exact ha.imp_right .inr

/-- **A session of ascriptions that have a solution comes to express them.** -/
theorem runBefore_expresses (steps : Nat) (hFirm : ∀ a ∈ as, a.Unconditional)
    (hAgenda : s.agenda.toList.Perm (as.map .ascribe)) (hDone : s.unification.Expresses done)
    (hSolution : ∀ a ∈ done ++ as, a.Holds σ) :
    ∃ result, (s.runBefore program depth none steps).Answers result ∧
      Ending steps depth σ as (done ++ as) result := by
  induction steps generalizing s done as with
  | zero => exact ⟨_, fun _ => rfl, .tooLong (Nat.zero_le _)⟩
  | succ steps ih =>
    unfold runBefore
    cases hPop : s.agenda.popBefore none with
    | none =>
      rw [Agenda.toList_eq_nil hPop, List.nil_perm, List.map_eq_nil_iff] at hAgenda
      subst hAgenda
      exact ⟨.ok s, fun _ => rfl, .expressed (by rwa [List.append_nil])⟩
    | some next =>
      obtain ⟨c, agenda⟩ := next
      rw [Agenda.toList_of_popBefore hPop] at hAgenda
      obtain ⟨a, ha, rfl⟩ := List.mem_map.mp (hAgenda.mem_iff.mp List.mem_cons_self)
      -- the agenda has an order of its own, so any of the ascriptions may be the first to leave
      obtain ⟨before, after, rfl⟩ := List.append_of_mem ha
      have hRest : agenda.toList.Perm ((before ++ after).map .ascribe) :=
        (List.perm_cons _).mp (hAgenda.trans (List.perm_middle.map _))
      -- the ascription moves from those to come to those done
      have hMoved : (done ++ [a] ++ (before ++ after)).Perm (done ++ (before ++ a :: after)) := by
        rw [List.append_assoc, List.singleton_append]
        exact List.perm_middle.symm.append_left done
      have hSolution' : ∀ x ∈ done ++ [a] ++ (before ++ after), x.Holds σ :=
        fun x hx => hSolution x (hMoved.mem_iff.mp hx)
      have hHere : ∀ x ∈ done ++ [a], x.Holds σ :=
        fun x hx => hSolution' x (List.mem_append_left _ hx)
      have hTurn := answers_ascribe depth (hFirm a ha) { s with agenda }
      cases hUnify : s.unification.unify depth (.point a.node) a.type with
      | none =>
        rw [hUnify] at hTurn
        refine ⟨.error .tooDeep, (SolveM.answers_emit _).bind hTurn.bind_error, .tooDeep ha ?_⟩
        exact Nat.lt_of_not_le fun hDepth => hDone.unify_ne_none hHere hDepth hUnify
      | some unified =>
        obtain ⟨notes, u⟩ := unified
        rw [hUnify] at hTurn
        have hFirm' : ∀ x ∈ before ++ after, x.Unconditional :=
          fun x hx => hFirm x (List.perm_middle.mem_iff.mpr (List.mem_cons_of_mem a hx))
        obtain ⟨result, hAnswers, hEnding⟩ := ih (s := { s with agenda, unification := u }) hFirm'
          hRest (hDone.unify hUnify hHere) hSolution'
        exact ⟨result, (SolveM.answers_emit _).bind (hTurn.bind hAnswers), hEnding.step hMoved⟩

/-- A session that starts has said nothing. -/
theorem expresses_start (implied : List Instance) (cs : List Constraint) :
    (start implied cs).unification.Expresses [] where
  reachable := .empty
  clean := ⟨rfl, rfl⟩
  single r := by simp [start, Unification.typesAt]
  solves σ := ⟨fun _ => by simp, fun _ => Unification.solves_empty σ⟩

/-- A whole session, from the ascriptions on its agenda. -/
theorem run_expresses (program : Program) (limits : Limits) (implied : List Instance)
    (hFirm : ∀ a ∈ as, a.Unconditional) (hSolution : ∀ a ∈ as, a.Holds σ) :
    ∃ result, (run program limits (start implied (as.map .ascribe))).Answers result ∧
      Ending limits.steps limits.depth σ as as result := by
  refine runBefore_expresses limits.steps hFirm ?_ (expresses_start implied _) hSolution
  have hExtend := Agenda.toList_extend {} (as.map .ascribe)
  rwa [show ({} : Agenda).toList = [] from rfl, List.append_nil] at hExtend

/-- With limits that are high enough, the session ends in such a state. -/
theorem exists_limits (hFirm : ∀ a ∈ as, a.Unconditional) (hSolution : ∀ a ∈ as, a.Holds σ) :
    ∃ least : Limits, ∀ limits : Limits, least.steps ≤ limits.steps → least.depth ≤ limits.depth →
      ∀ (program : Program) (implied : List Instance), ∃ s : Session,
        (run program limits (start implied (as.map .ascribe))).Answers (.ok s) ∧
          s.unification.Expresses as := by
  -- the trees of one solution bound the depth of all the unifications
  obtain ⟨depth, hDepth⟩ := exists_forall_mem_lt (fun a : Ascription => 2 * (σ a.node).height) as
  refine ⟨⟨as.length + 1, depth⟩, fun limits hSteps hDeep program implied => ?_⟩
  obtain ⟨result, hAnswers, hEnding⟩ := run_expresses program limits implied hFirm hSolution
  cases hEnding with
  | expressed h => exact ⟨_, hAnswers, h⟩
  | tooLong h => exact absurd h (Nat.not_le_of_lt hSteps)
  | tooDeep ha h =>
    have hLess := hDepth _ ha
    exact absurd (h.trans hLess) (Nat.not_lt_of_le hDeep)

end Session

-- ---------------------------------------------------------------------------
-- Two orders
-- ---------------------------------------------------------------------------

namespace Ty

variable (ρ : Equiv.Perm Point)

mutual

/-- To rename the points of a type is to put the renamed points into it. -/
theorem erase_rename : ∀ t : Ty,
    (t.rename (.ofPerm ρ)).erase = t.eval plain fun p => .point (ρ p)
  | .point p => rfl
  | .con tag children emit => by rw [rename, erase, eval, plain, eraseAll_renameAll children]

theorem eraseAll_renameAll : ∀ ts : List Ty,
    eraseAll (renameAll (.ofPerm ρ) ts) = evalAll plain (fun p => .point (ρ p)) ts
  | [] => rfl
  | t :: ts => by rw [renameAll, eraseAll, evalAll, erase_rename t, eraseAll_renameAll ts]

end

end Ty

/-- States that express the same have the same normal forms, up to the names of
unknown types. -/
theorem Unification.Expresses.exists_perm {u u' : Unification} {σ : Assignment}
    {as : List Ascription} (h : u.Expresses as) (h' : u'.Expresses as)
    (hSolution : ∀ a ∈ as, a.Holds σ) :
    ∃ ρ : Equiv.Perm Point, ∀ p,
      (u'.apply (.point p)).same ((u.apply (.point p)).rename (.ofPerm ρ)) = true := by
  obtain ⟨ρ, hρ⟩ := normal_eq_of_solves_iff (h.settled hSolution) (h'.settled hSolution)
    fun τ => (h.solves τ).trans (h'.solves τ).symm
  refine ⟨ρ, fun p => (Ty.same_iff _ _).mpr ?_⟩
  rw [Ty.erase_rename, ← Ty.eval_erase]
  exact hρ p

/--
**The order of ascriptions does not matter.** Let ascriptions that are worked off
everywhere and yield to nothing have a common solution in finite trees, and let them
be given to one session in one order and to another session in another. With limits
that are high enough, both sessions end, neither finds a conflict, and one
permutation of the points takes the normal form of every point in the first to its
normal form in the second, up to emission templates.
-/
theorem Session.run_perm {as as' : List Ascription} {σ : Assignment}
    (hFirm : ∀ a ∈ as, a.Unconditional) (hSolution : ∀ a ∈ as, a.Holds σ)
    (hPerm : as.Perm as') :
    ∃ least : Limits, ∀ limits : Limits, least.steps ≤ limits.steps → least.depth ≤ limits.depth →
      ∀ (program : Program) (implied : List Instance) (w w' : World), ∃ s s' : Session,
        ((run program limits (start implied (as.map .ascribe))).runIn w).1 = .ok s ∧
        ((run program limits (start implied (as'.map .ascribe))).runIn w').1 = .ok s' ∧
        s.unification.hasError = false ∧ s'.unification.hasError = false ∧
        ∃ ρ : Equiv.Perm Point, ∀ p,
          (s'.unification.apply (.point p)).same
            ((s.unification.apply (.point p)).rename (.ofPerm ρ)) = true := by
  have hFirm' : ∀ a ∈ as', a.Unconditional := fun a ha => hFirm a (hPerm.mem_iff.mpr ha)
  have hSolution' : ∀ a ∈ as', a.Holds σ := fun a ha => hSolution a (hPerm.mem_iff.mpr ha)
  obtain ⟨least, hLeast⟩ := exists_limits hFirm hSolution
  obtain ⟨least', hLeast'⟩ := exists_limits hFirm' hSolution'
  refine ⟨⟨max least.steps least'.steps, max least.depth least'.depth⟩,
    fun limits hSteps hDepth program implied w w' => ?_⟩
  obtain ⟨s, hAnswers, hExpresses⟩ := hLeast limits (le_of_max_le_left hSteps)
    (le_of_max_le_left hDepth) program implied
  obtain ⟨s', hAnswers', hExpresses'⟩ := hLeast' limits (le_of_max_le_right hSteps)
    (le_of_max_le_right hDepth) program implied
  -- the two states may differ in every table, but they express the same
  exact ⟨s, s', hAnswers w, hAnswers' w', hExpresses.clean.noError, hExpresses'.clean.noError,
    hExpresses.exists_perm (hExpresses'.perm hPerm.symm) hSolution⟩

/-- A block of point 1, and two links that join points 1 and 2 from either side: the
point named in the first link to be worked off survives. -/
def Session.links : List Ascription :=
  [{ node := ⟨0⟩, type := .con .block [.point ⟨1⟩] none },
    { node := ⟨1⟩, type := .point ⟨2⟩ },
    { node := ⟨2⟩, type := .point ⟨1⟩ }]

/-- Worked off backwards, the links leave point 2 where they left point 1 before. -/
theorem Session.run_perm_links :
    (∀ a ∈ links, a.Unconditional) ∧ (∃ σ, ∀ a ∈ links, a.Holds σ) ∧ links.Perm links.reverse ∧
    ∃ least : Limits, ∀ limits : Limits, least.steps ≤ limits.steps → least.depth ≤ limits.depth →
      ∀ (program : Program) (implied : List Instance) (w w' : World), ∃ s s' : Session,
        ((run program limits (start implied (links.map .ascribe))).runIn w).1 = .ok s ∧
        ((run program limits (start implied (links.reverse.map .ascribe))).runIn w').1 = .ok s' ∧
        s.unification.hasError = false ∧ s'.unification.hasError = false ∧
        ∃ ρ : Equiv.Perm Point, ∀ p,
          (s'.unification.apply (.point p)).same
            ((s.unification.apply (.point p)).rename (.ofPerm ρ)) = true := by
  have hFirm : ∀ a ∈ links, a.Unconditional := by
    simp only [links, List.forall_mem_cons]
    exact ⟨⟨rfl, rfl⟩, ⟨rfl, rfl⟩, ⟨rfl, rfl⟩, by simp⟩
  have hSolution : ∀ a ∈ links, a.Holds fun p =>
      if p = ⟨0⟩ then .node .block [.node .block []] else .node .block [] := by
    simp only [links, List.forall_mem_cons]
    exact ⟨rfl, rfl, rfl, by simp⟩
  have hPerm : links.Perm links.reverse := links.reverse_perm.symm
  exact ⟨hFirm, ⟨_, hSolution⟩, hPerm, run_perm hFirm hSolution hPerm⟩

end TraitInference
