import Mathlib.Data.List.Basic
import TraitInference.Proofs.Agendas

/-!
# TraitInference — the agenda as one list

An agenda keeps a queue for each stage. Whoever uses it need not know that: it behaves
as its **backlog**, the plain list of what waits in the order in which it joined, from
which the oldest constraint of the first stage leaves.

* `Backlog.Pops`, `Backlog.Serves` — how a backlog answers a request. It can answer in
  one way only (`Backlog.ServesAll.unique`).
* `Agenda.Lists` — the lanes of an agenda are the parts of a backlog. Every request
  keeps this (`Agenda.Lists.serve`).
* `Agenda.serveAll_refines` — so agendas answer any requests as backlogs do, and what
  leaves an agenda that is emptied is its backlog sorted by stage.
-/

namespace TraitInference

-- ---------------------------------------------------------------------------
-- Requests
-- ---------------------------------------------------------------------------

namespace Agenda

/-- What is asked of an agenda. -/
inductive Request
  | push (c : Constraint)
  | extend (cs : List Constraint)
  | pop
  | popBefore (limit : Option Stage)
  | size

/-- What a request is answered with. -/
inductive Answer
  | done
  /-- What has left, if there was anything to leave. -/
  | left (c : Option Constraint)
  | count (n : Nat)

/-- The answer when something was to leave, and what stays. -/
def leaving (q : Agenda) : Option (Constraint × Agenda) → Answer × Agenda
  | none => (.left none, q)
  | some (c, rest) => (.left (some c), rest)

/-- The answer to a request, and the agenda after it. -/
def Request.serve (q : Agenda) : Request → Answer × Agenda
  | .push c => (.done, q.push c)
  | .extend cs => (.done, q.extend cs)
  | .pop => q.leaving q.pop
  | .popBefore limit => q.leaving (q.popBefore limit)
  | .size => (.count q.size, q)

/-- The answers to a list of requests, and the agenda after them. -/
def serveAll : List Request → Agenda → List Answer × Agenda
  | [], q => ([], q)
  | r :: rs, q => ((r.serve q).1 :: (serveAll rs (r.serve q).2).1, (serveAll rs (r.serve q).2).2)

end Agenda

-- ---------------------------------------------------------------------------
-- The list behind it
-- ---------------------------------------------------------------------------

/-- What waits, in the order in which it joined. -/
abbrev Backlog := List Constraint

namespace Backlog

open Agenda (Request Answer)

variable {limit : Option Stage} {pending rest rest' : Backlog} {o o' : Option Constraint}

/-- What may leave a backlog, if it has to be of a stage before `limit`. -/
inductive Pops (limit : Option Stage) : Backlog → Option Constraint → Backlog → Prop
  /-- The oldest of the first stage that anything before the limit belongs to. -/
  | oldest {before after : Backlog} {c : Constraint} (allowed : c.stage.isBefore limit = true)
      (earliest : ∀ d ∈ before ++ c :: after, d.stage.isBefore limit = true →
        c.stage.rank ≤ d.stage.rank)
      (alone : ∀ d ∈ before, d.stage ≠ c.stage) :
      Pops limit (before ++ c :: after) (some c) (before ++ after)
  /-- Nothing, if all that waits has to wait on. -/
  | nothing {pending : Backlog} (late : ∀ d ∈ pending, d.stage.isBefore limit = false) :
      Pops limit pending none pending

/-- How a backlog answers a request, and what it is afterwards. -/
inductive Serves (pending : Backlog) : Request → Answer → Backlog → Prop
  | push (c : Constraint) : Serves pending (.push c) .done (pending ++ [c])
  | extend (cs : List Constraint) : Serves pending (.extend cs) .done (pending ++ cs)
  | pop {o : Option Constraint} {rest : Backlog} (h : Pops none pending o rest) :
      Serves pending .pop (.left o) rest
  | popBefore {limit : Option Stage} {o : Option Constraint} {rest : Backlog}
      (h : Pops limit pending o rest) : Serves pending (.popBefore limit) (.left o) rest
  | size : Serves pending .size (.count pending.length) pending

/-- How a backlog answers a list of requests, and what it is afterwards. -/
inductive ServesAll : List Request → Backlog → List Answer → Backlog → Prop
  | nil {pending : Backlog} : ServesAll [] pending [] pending
  | cons {r : Request} {rs : List Request} {pending next rest : Backlog} {a : Answer}
      {answers : List Answer} (first : Serves pending r a next)
      (later : ServesAll rs next answers rest) : ServesAll (r :: rs) pending (a :: answers) rest

/-- A list is cut in one way only at the first item that has a property. -/
theorem eq_of_append_cons_eq {α : Type} {P : α → Prop} {before before' after after' : List α}
    {c c' : α} (h : before ++ c :: after = before' ++ c' :: after') (hc : P c) (hc' : P c')
    (hBefore : ∀ d ∈ before, ¬ P d) (hBefore' : ∀ d ∈ before', ¬ P d) :
    before = before' ∧ c = c' ∧ after = after' := by
  induction before generalizing before' with
  | nil =>
    cases before' with
    | nil => exact ⟨rfl, List.cons.inj h⟩
    | cons d before' => exact absurd ((List.cons.inj h).1 ▸ hc) (hBefore' d List.mem_cons_self)
  | cons d before ih =>
    cases before' with
    | nil => exact absurd ((List.cons.inj h).1 ▸ hc') (hBefore d List.mem_cons_self)
    | cons d' before' =>
      obtain ⟨rfl, hTails⟩ := List.cons.inj h
      obtain ⟨rfl, hRest⟩ := ih hTails (fun x hx => hBefore x (List.mem_cons_of_mem d hx))
        fun x hx => hBefore' x (List.mem_cons_of_mem d hx)
      exact ⟨rfl, hRest⟩

/-- There is one oldest constraint of the first stage. -/
theorem Pops.unique (h : Pops limit pending o rest) (h' : Pops limit pending o' rest') :
    o = o' ∧ rest = rest' := by
  cases h with
  | nothing late =>
    cases h' with
    | nothing => exact ⟨rfl, rfl⟩
    | oldest allowed =>
      rw [late _ List.mem_append_cons_self] at allowed
      cases allowed
  | @oldest before after c allowed earliest alone =>
    generalize hPending : before ++ c :: after = pending at earliest h'
    have hc : c ∈ pending := hPending ▸ List.mem_append_cons_self
    cases h' with
    | nothing late =>
      rw [late c hc] at allowed
      cases allowed
    | @oldest before' after' c' allowed' earliest' alone' =>
      -- both are of the first stage, and both are the first of it
      have hStage : c.stage = c'.stage := Stage.rank_injective (Nat.le_antisymm
        (earliest c' List.mem_append_cons_self allowed') (earliest' c hc allowed))
      rw [hStage] at alone
      obtain ⟨rfl, rfl, rfl⟩ := eq_of_append_cons_eq
        (P := fun d : Constraint => d.stage = c'.stage) hPending hStage rfl alone alone'
      exact ⟨rfl, rfl⟩

theorem Serves.unique {r : Request} {a a' : Answer} (h : Serves pending r a rest)
    (h' : Serves pending r a' rest') : a = a' ∧ rest = rest' := by
  cases h with
  | push | extend | size =>
    cases h'
    exact ⟨rfl, rfl⟩
  | pop h =>
    cases h' with
    | pop h' =>
      obtain ⟨rfl, rfl⟩ := h.unique h'
      exact ⟨rfl, rfl⟩
  | popBefore h =>
    cases h' with
    | popBefore h' =>
      obtain ⟨rfl, rfl⟩ := h.unique h'
      exact ⟨rfl, rfl⟩

/-- **A backlog can answer in one way only.** -/
theorem ServesAll.unique {rs : List Request} {answers answers' : List Answer}
    (h : ServesAll rs pending answers rest) (h' : ServesAll rs pending answers' rest') :
    answers' = answers ∧ rest' = rest := by
  induction h generalizing answers' with
  | nil =>
    cases h'
    exact ⟨rfl, rfl⟩
  | cons first _ ih =>
    cases h' with
    | cons first' later' =>
      obtain ⟨rfl, rfl⟩ := first.unique first'
      obtain ⟨rfl, rfl⟩ := ih later'
      exact ⟨rfl, rfl⟩

-- ---------------------------------------------------------------------------
-- Sorting by stage
-- ---------------------------------------------------------------------------

/-- Whether a constraint may leave before another. -/
def inOrder (c d : Constraint) : Bool :=
  c.stage.rank ≤ d.stage.rank

theorem inOrder_trans (a b c : Constraint) (h : inOrder a b = true) (h' : inOrder b c = true) :
    inOrder a c = true := by
  simp only [inOrder, decide_eq_true_eq] at h h' ⊢
  omega

theorem inOrder_total (a b : Constraint) : (inOrder a b || inOrder b a) = true := by
  simp only [inOrder, Bool.or_eq_true, decide_eq_true_eq]
  omega

/-- What is in order is made up of its stages, one after the other. -/
theorem flatMap_filter_of_inOrder (h : pending.Pairwise fun c d => inOrder c d = true) :
    Stage.all.flatMap (fun s => pending.filter (·.stage = s)) = pending := by
  induction pending with
  | nil => rfl
  | cons c pending ih =>
    obtain ⟨hFirst, hRest⟩ := List.pairwise_cons.mp h
    have hMem : c.stage ∈ Stage.all := by cases c.stage <;> decide
    obtain ⟨before, after, hAll⟩ := List.append_of_mem hMem
    -- nothing that waits is of a stage before that of the first constraint
    have hNone : before.flatMap (fun s => pending.filter (·.stage = s)) = [] := by
      refine List.flatMap_eq_nil_iff.mpr fun s hs => List.filter_eq_nil_iff.mpr fun d hd => ?_
      have hLess := Stage.rank_lt_of_mem hAll hs
      have hLe := hFirst d hd
      rw [inOrder, decide_eq_true_eq] at hLe
      rw [decide_eq_true_eq]
      rintro rfl
      omega
    have hOther : ∀ stages : List Stage, c.stage ∉ stages →
        stages.flatMap (fun s => (c :: pending).filter (·.stage = s)) =
          stages.flatMap (fun s => pending.filter (·.stage = s)) := by
      intro stages hStages
      refine List.flatMap_congr fun s hs => List.filter_cons_of_neg ?_
      rw [decide_eq_true_eq]
      rintro rfl
      exact hStages hs
    obtain ⟨hBefore, hAfter⟩ := Stage.not_mem_of_all_eq hAll
    have hPending := ih hRest
    rw [hAll, List.flatMap_append, List.flatMap_cons, hNone, List.nil_append] at hPending
    rw [hAll, List.flatMap_append, List.flatMap_cons, hOther before hBefore, hOther after hAfter,
      hNone, List.nil_append, List.filter_cons_of_pos (by simp), List.cons_append, hPending]

/-- Sorting keeps what is of one stage in its order. -/
theorem filter_mergeSort (pending : Backlog) (s : Stage) :
    (pending.mergeSort inOrder).filter (·.stage = s) = pending.filter (·.stage = s) := by
  have hSame : (pending.filter (·.stage = s)).Pairwise fun c d => inOrder c d = true := by
    refine List.pairwise_of_forall_mem_list fun c hc d hd => ?_
    rw [List.mem_filter, decide_eq_true_eq] at hc hd
    rw [inOrder, hc.2, hd.2]
    exact decide_eq_true (Nat.le_refl _)
  -- the sort is stable, so a part that is in order already stays as it is
  have hSublist : (pending.filter (·.stage = s)).Sublist (pending.mergeSort inOrder) :=
    List.sublist_mergeSort inOrder_trans inOrder_total hSame List.filter_sublist
  have hFiltered := hSublist.filter (·.stage = s)
  simp only [List.filter_filter, Bool.and_self] at hFiltered
  refine (hFiltered.eq_of_length ?_).symm
  exact ((List.mergeSort_perm pending inOrder).filter _).length_eq.symm

/-- **Stage after stage is sorted by stage.** -/
theorem flatMap_filter_eq_mergeSort (pending : Backlog) :
    Stage.all.flatMap (fun s => pending.filter (·.stage = s)) = pending.mergeSort inOrder := by
  have hSorted := List.pairwise_mergeSort inOrder_trans inOrder_total pending
  rw [← flatMap_filter_of_inOrder hSorted]
  simp only [filter_mergeSort]

end Backlog

-- ---------------------------------------------------------------------------
-- Agendas are backlogs
-- ---------------------------------------------------------------------------

namespace Agenda

variable {q : Agenda} {pending : Backlog}

/-- The lanes of an agenda are the parts of a backlog. -/
def Lists (q : Agenda) (pending : Backlog) : Prop :=
  ∀ s, q.lane s = pending.filter (·.stage = s)

theorem lists_empty : Lists {} [] := by
  intro s
  cases s <;> rfl

/-- What joins an agenda joins the end of its backlog. -/
theorem Lists.extend (h : q.Lists pending) (cs : List Constraint) :
    (q.extend cs).Lists (pending ++ cs) := by
  intro s
  rw [lane_extend, h s, List.filter_append]

/-- An agenda lists its backlog sorted by stage. -/
theorem Lists.toList_eq (h : q.Lists pending) : q.toList = pending.mergeSort Backlog.inOrder := by
  rw [← Backlog.flatMap_filter_eq_mergeSort, toList]
  exact List.flatMap_congr fun s _ => h s

theorem Lists.size_eq (h : q.Lists pending) : q.size = pending.length := by
  rw [size_eq_length, h.toList_eq, List.length_mergeSort]

/-- **What leaves an agenda may leave its backlog.** -/
theorem Lists.popBefore (h : q.Lists pending) (limit : Option Stage) :
    ∃ o rest, q.leaving (q.popBefore limit) = (.left o, rest) ∧
      ∃ pending', Backlog.Pops limit pending o pending' ∧ rest.Lists pending' := by
  cases hPop : q.popBefore limit with
  | none =>
    refine ⟨none, q, rfl, pending, .nothing fun d hd => ?_, h⟩
    rw [← Bool.not_eq_true]
    intro hBefore
    have hLane := lane_eq_nil_of_popBefore hPop hBefore
    rw [h, List.filter_eq_nil_iff] at hLane
    exact hLane d hd (decide_eq_true rfl)
  | some next =>
    obtain ⟨c, rest⟩ := next
    obtain ⟨s, hBefore, hEmpty, hLane, hOthers⟩ := popBefore_cases hPop
    rw [h, List.filter_eq_cons_iff] at hLane
    obtain ⟨before, after, rfl, hNone, hc, hAfter⟩ := hLane
    obtain rfl : c.stage = s := of_decide_eq_true hc
    refine ⟨some c, rest, rfl, before ++ after, .oldest hBefore ?_ ?_, ?_⟩
    · -- the lanes of all earlier stages are empty
      intro d hd _
      by_contra hLess
      have hNil := hEmpty d.stage (by omega)
      rw [h, List.filter_eq_nil_iff] at hNil
      exact hNil d hd (decide_eq_true rfl)
    · intro d hd hStage
      exact hNone d hd (decide_eq_true hStage)
    · -- only the lane from which it leaves gets shorter
      intro s
      by_cases hs : s = c.stage
      · subst hs
        rw [List.filter_append, List.filter_eq_nil_iff.mpr hNone, List.nil_append, hAfter]
      · rw [hOthers s hs, h, List.filter_append, List.filter_append,
          List.filter_cons_of_neg (by simpa using Ne.symm hs)]

/-- **One request.** -/
theorem Lists.serve (h : q.Lists pending) (r : Request) :
    ∃ next, Backlog.Serves pending r (r.serve q).1 next ∧ (r.serve q).2.Lists next := by
  cases r with
  | push c => exact ⟨pending ++ [c], .push c, h.extend [c]⟩
  | extend cs => exact ⟨pending ++ cs, .extend cs, h.extend cs⟩
  | pop =>
    obtain ⟨o, rest, hLeaving, next, hPops, hLists⟩ := h.popBefore none
    rw [Request.serve, pop, hLeaving]
    exact ⟨next, .pop hPops, hLists⟩
  | popBefore limit =>
    obtain ⟨o, rest, hLeaving, next, hPops, hLists⟩ := h.popBefore limit
    rw [Request.serve, hLeaving]
    exact ⟨next, .popBefore hPops, hLists⟩
  | size =>
    rw [Request.serve, h.size_eq]
    exact ⟨pending, .size, h⟩

/-- **Any number of requests.** -/
theorem Lists.serveAll (h : q.Lists pending) (rs : List Request) :
    ∃ rest, Backlog.ServesAll rs pending (serveAll rs q).1 rest ∧ (serveAll rs q).2.Lists rest := by
  induction rs generalizing q pending with
  | nil => exact ⟨pending, .nil, h⟩
  | cons r rs ih =>
    obtain ⟨next, hFirst, hNext⟩ := h.serve r
    obtain ⟨rest, hLater, hRest⟩ := ih hNext
    exact ⟨rest, .cons hFirst hLater, hRest⟩

/-- What leaves an agenda that is emptied is all that was on it, in order. -/
theorem serveAll_pop (q : Agenda) :
    (serveAll (List.replicate (q.toList.length + 1) .pop) q).1 =
      q.toList.map (fun c => .left (some c)) ++ [.left none] := by
  induction hList : q.toList generalizing q with
  | nil =>
    cases hPop : q.popBefore none with
    | none =>
      show [(q.leaving (q.popBefore none)).1] = [.left none]
      rw [hPop]
      rfl
    | some next =>
      rw [toList_of_popBefore hPop] at hList
      cases hList
  | cons c cs ih =>
    cases hPop : q.popBefore none with
    | none =>
      rw [toList_eq_nil hPop] at hList
      cases hList
    | some next =>
      obtain ⟨c', rest⟩ := next
      rw [toList_of_popBefore hPop] at hList
      obtain ⟨rfl, rfl⟩ := List.cons.inj hList
      rw [List.length_cons, List.replicate_succ, Agenda.serveAll, Request.serve, pop, hPop]
      exact congrArg _ (ih rest rfl)

/--
**An agenda is a stable priority queue.** Whatever is asked of an agenda that was empty
at first, its answers are those that a backlog gives, and a backlog can give no others:
what leaves is the oldest constraint of the first stage before the limit, and nothing
leaves, and nothing changes, exactly if no such stage has any. The size of the agenda is
the length of the backlog. An agenda that is emptied then gives its backlog sorted by
stage, with constraints of one stage in the order in which they joined; in particular so
does one to which a list of constraints was added.
-/
theorem serveAll_refines (requests : List Request) :
    (∃ pending : Backlog,
      (∀ answers rest, Backlog.ServesAll requests [] answers rest ↔
        answers = (serveAll requests {}).1 ∧ rest = pending) ∧
      (serveAll requests {}).2.size = pending.length ∧
      (serveAll (List.replicate (pending.length + 1) .pop) (serveAll requests {}).2).1 =
        (pending.mergeSort Backlog.inOrder).map (fun c => .left (some c)) ++ [.left none]) ∧
    ∀ cs : List Constraint,
      (serveAll (List.replicate (cs.length + 1) .pop) (Agenda.extend {} cs)).1 =
        (cs.mergeSort Backlog.inOrder).map (fun c => .left (some c)) ++ [.left none] := by
  -- emptying is the same for an agenda that was served and for one that was filled
  have hDrain : ∀ {q : Agenda} {pending : Backlog}, q.Lists pending →
      (serveAll (List.replicate (pending.length + 1) .pop) q).1 =
        (pending.mergeSort Backlog.inOrder).map (fun c => .left (some c)) ++ [.left none] := by
    intro q pending h
    rw [← h.toList_eq, ← h.size_eq, size_eq_length]
    exact serveAll_pop q
  obtain ⟨pending, hServes, hLists⟩ := lists_empty.serveAll requests
  refine ⟨⟨pending, fun answers rest => ⟨hServes.unique, ?_⟩, hLists.size_eq, hDrain hLists⟩,
    fun cs => hDrain (lists_empty.extend cs)⟩
  rintro ⟨rfl, rfl⟩
  exact hServes

end Agenda

end TraitInference
