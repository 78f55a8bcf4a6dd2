import Mathlib.Data.List.Basic
import Mathlib.Data.List.Nodup
import TraitInference.Agenda

/-!
# TraitInference — what is on an agenda

`Agenda.toList` is the view through which agendas are understood: what leaves it is its
head (`Agenda.toList_of_popBefore`), and everything that joins is on it
(`Agenda.toList_extend`). Lane by lane, what leaves is the head of the first lane that has
any (`Agenda.popBefore_cases`), and what joins goes to the end of its own
(`Agenda.lane_extend`).
-/

namespace TraitInference

/-- Each stage stands once in their order. -/
theorem Stage.not_mem_of_all_eq {s : Stage} {before after : List Stage}
    (hAll : Stage.all = before ++ s :: after) : s ∉ before ∧ s ∉ after := by
  have hNodup : Stage.all.Nodup := by decide
  rw [hAll, List.nodup_middle, List.nodup_cons, List.mem_append, not_or] at hNodup
  exact hNodup.1

/-- An earlier stage stands before. -/
theorem Stage.mem_of_rank_lt {s s' : Stage} {before after : List Stage}
    (hAll : Stage.all = before ++ s :: after) (hLess : s'.rank < s.rank) : s' ∈ before := by
  have hSorted : Stage.all.Pairwise fun s s' => s.rank < s'.rank := by decide
  have hMem : s' ∈ Stage.all := by cases s' <;> decide
  rw [hAll] at hSorted hMem
  obtain ⟨-, hAfter, -⟩ := List.pairwise_append.mp hSorted
  rcases List.mem_append.mp hMem with hBefore | hRest
  · exact hBefore
  · rcases List.mem_cons.mp hRest with rfl | hLater
    · omega
    · have hMore := (List.pairwise_cons.mp hAfter).1 s' hLater
      omega

/-- What stands before is an earlier stage. -/
theorem Stage.rank_lt_of_mem {s s' : Stage} {before after : List Stage}
    (hAll : Stage.all = before ++ s :: after) (hs' : s' ∈ before) : s'.rank < s.rank := by
  have hSorted : Stage.all.Pairwise fun s s' => s.rank < s'.rank := by decide
  rw [hAll] at hSorted
  exact (List.pairwise_append.mp hSorted).2.2 s' hs' s List.mem_cons_self

/-- Stages are told apart by their ranks. -/
theorem Stage.rank_injective : Function.Injective Stage.rank := by
  intro s s' hRank
  revert hRank
  cases s <;> cases s' <;> decide

/-- What is before the limit has all earlier stages before it too. -/
theorem Stage.isBefore_of_rank_le {s s' : Stage} {limit : Option Stage} (hLe : s'.rank ≤ s.rank)
    (h : s.isBefore limit = true) : s'.isBefore limit = true := by
  cases limit with
  | none => rfl
  | some limit =>
    simp only [isBefore, decide_eq_true_eq] at h ⊢
    omega

namespace Agenda

variable {q q' rest : Agenda} {c : Constraint}

/-- Lanes that are not among the stages do not matter. -/
theorem flatMap_lane_congr {s : Stage} {stages : List Stage} (hs : s ∉ stages)
    (h : ∀ s', s' ≠ s → q'.lane s' = q.lane s') :
    stages.flatMap q'.lane = stages.flatMap q.lane :=
  List.flatMap_congr fun s' hs' => h s' fun hEq => hs (hEq ▸ hs')

/-- One constraint more is on the agenda, in the lane of its stage. -/
theorem toList_push (q : Agenda) (c : Constraint) : (q.push c).toList.Perm (c :: q.toList) := by
  have hMem : c.stage ∈ Stage.all := by cases c.stage <;> decide
  -- the view is cut at the lane that changes
  obtain ⟨before, after, hAll⟩ := List.append_of_mem hMem
  have hOthers : ∀ s, s ≠ c.stage → (q.push c).lane s = q.lane s := by
    intro s hNe
    rw [lane_push, if_neg hNe]
  obtain ⟨hBefore, hAfter⟩ := Stage.not_mem_of_all_eq hAll
  rw [toList, toList, hAll, List.flatMap_append, List.flatMap_append, List.flatMap_cons,
    List.flatMap_cons, flatMap_lane_congr hBefore hOthers, flatMap_lane_congr hAfter hOthers,
    lane_push, if_pos rfl, ← List.append_assoc, ← List.append_assoc, ← List.append_assoc,
    List.append_assoc _ [c]]
  exact List.perm_middle

/-- **Everything that joins an agenda is on it.** -/
theorem toList_extend (q : Agenda) (cs : List Constraint) :
    (q.extend cs).toList.Perm (cs ++ q.toList) := by
  unfold extend
  induction cs generalizing q with
  | nil => rfl
  | cons c cs ih =>
    rw [List.foldl_cons]
    exact (ih (q.push c)).trans (((toList_push q c).append_left cs).trans List.perm_middle)

-- ---------------------------------------------------------------------------
-- Lane by lane
-- ---------------------------------------------------------------------------

/-- **What joins goes to the end of its lane**, in the order in which it was given. -/
theorem lane_extend (q : Agenda) (cs : List Constraint) (s : Stage) :
    (q.extend cs).lane s = q.lane s ++ cs.filter (·.stage = s) := by
  unfold extend
  induction cs generalizing q with
  | nil => rw [List.foldl_nil, List.filter_nil, List.append_nil]
  | cons c cs ih =>
    rw [List.foldl_cons, ih, lane_push, List.filter_cons]
    by_cases hs : s = c.stage
    · subst hs
      simp
    · simp [hs, Ne.symm hs]

/-- **What leaves is the head of the first lane before the limit that has any**, and the
other lanes stay as they are. -/
theorem popBefore_cases {limit : Option Stage} (h : q.popBefore limit = some (c, rest)) :
    ∃ s : Stage, s.isBefore limit = true ∧ (∀ s' : Stage, s'.rank < s.rank → q.lane s' = []) ∧
      q.lane s = c :: rest.lane s ∧ ∀ s', s' ≠ s → rest.lane s' = q.lane s' := by
  obtain ⟨before, s, after, hAll, hFound, hNone⟩ := List.findSome?_eq_some_iff.mp h
  split at hFound
  · rename_i hBefore
    rw [Option.map_eq_some_iff] at hFound
    obtain ⟨⟨c', cs⟩, hPop, hEq⟩ := hFound
    obtain ⟨rfl, rfl⟩ := Prod.mk.inj hEq
    refine ⟨s, hBefore, fun s' hLess => ?_, ?_, fun s' hNe => ?_⟩
    · -- an earlier lane was asked first, and had nothing
      have hMem : s' ∈ before := Stage.mem_of_rank_lt hAll hLess
      have hEmpty := hNone s' hMem
      rw [if_pos (Stage.isBefore_of_rank_le (Nat.le_of_lt hLess) hBefore),
        Option.map_eq_none_iff] at hEmpty
      exact Queue.pop_eq_none_iff.mp hEmpty
    · rw [lane, lane, queue_setQueue, if_pos rfl]
      exact Queue.toList_of_pop hPop
    · rw [lane, lane, queue_setQueue, if_neg hNe]
  · cases hFound

/-- If nothing leaves, all lanes before the limit are empty. -/
theorem lane_eq_nil_of_popBefore {limit : Option Stage} (h : q.popBefore limit = none)
    {s : Stage} (hBefore : s.isBefore limit = true) : q.lane s = [] := by
  have hMem : s ∈ Stage.all := by cases s <;> decide
  have hNone := List.findSome?_eq_none_iff.mp h s hMem
  rw [if_pos hBefore, Option.map_eq_none_iff] at hNone
  exact Queue.pop_eq_none_iff.mp hNone

/-- Conversely, the head of the first lane that has any is what leaves next. -/
theorem exists_popBefore {s : Stage} {cs : List Constraint}
    (hEmpty : ∀ s' : Stage, s'.rank < s.rank → q.lane s' = []) (hLane : q.lane s = c :: cs) :
    ∃ rest, q.popBefore none = some (c, rest) ∧ rest.lane s = cs ∧
      ∀ s', s' ≠ s → rest.lane s' = q.lane s' := by
  cases hPop : q.popBefore none with
  | none =>
    rw [lane_eq_nil_of_popBefore hPop rfl] at hLane
    cases hLane
  | some next =>
    obtain ⟨c', rest⟩ := next
    obtain ⟨s', -, hEmpty', hLane', hOthers⟩ := popBefore_cases hPop
    -- what leaves comes from the same lane: an earlier one is empty, and a later one is not
    -- asked
    have hNotLess : ¬ s'.rank < s.rank := fun hLess => by
      rw [hEmpty s' hLess] at hLane'
      cases hLane'
    have hNotMore : ¬ s.rank < s'.rank := fun hLess => by
      rw [hEmpty' s hLess] at hLane
      cases hLane
    obtain rfl : s' = s := Stage.rank_injective (by omega)
    obtain ⟨rfl, hRest⟩ := List.cons.inj (hLane'.symm.trans hLane)
    exact ⟨rest, rfl, hRest, hOthers⟩

/-- An agenda from which nothing leaves is empty. -/
theorem toList_eq_nil (h : q.popBefore none = none) : q.toList = [] :=
  List.flatMap_eq_nil_iff.mpr fun _ _ => lane_eq_nil_of_popBefore h rfl

/-- **What leaves is the head of the view**, and what is left is its tail. -/
theorem toList_of_popBefore {limit : Option Stage} (h : q.popBefore limit = some (c, rest)) :
    q.toList = c :: rest.toList := by
  obtain ⟨s, -, hEmpty, hLane, hOthers⟩ := popBefore_cases h
  have hMem : s ∈ Stage.all := by cases s <;> decide
  obtain ⟨before, after, hAll⟩ := List.append_of_mem hMem
  obtain ⟨hBefore, hAfter⟩ := Stage.not_mem_of_all_eq hAll
  have hNone : before.flatMap q.lane = [] :=
    List.flatMap_eq_nil_iff.mpr fun s' hs' => hEmpty s' (Stage.rank_lt_of_mem hAll hs')
  rw [toList, toList, hAll, List.flatMap_append, List.flatMap_append, List.flatMap_cons,
    List.flatMap_cons, flatMap_lane_congr hBefore hOthers, flatMap_lane_congr hAfter hOthers,
    hNone, hLane]
  rfl

theorem mem_toList_of_popBefore {limit : Option Stage} (h : q.popBefore limit = some (c, rest)) :
    c ∈ q.toList ∧ ∀ x ∈ rest.toList, x ∈ q.toList := by
  rw [toList_of_popBefore h]
  exact ⟨List.mem_cons_self, fun x hx => List.mem_cons_of_mem c hx⟩

/-- Every constraint waits in the lane of its stage. -/
def Staged (q : Agenda) : Prop :=
  ∀ s, ∀ c ∈ q.lane s, c.stage = s

theorem staged_empty : Staged {} := by
  intro s c hc
  cases s <;> cases hc

/-- A constraint joins the lane of its stage. -/
theorem Staged.push (h : q.Staged) (c : Constraint) : (q.push c).Staged := by
  intro s x hx
  rw [lane_push] at hx
  split at hx
  · rename_i hs
    rcases List.mem_append.mp hx with hOld | hNew
    · exact hs ▸ h _ x hOld
    · rw [List.mem_singleton.mp hNew, hs]
  · exact h s x hx

theorem Staged.extend (h : q.Staged) (cs : List Constraint) : (q.extend cs).Staged := by
  unfold Agenda.extend
  induction cs generalizing q with
  | nil => exact h
  | cons c cs ih => exact ih (h.push c)

/-- What is left waits where it was. -/
theorem Staged.popBefore {limit : Option Stage} (h : q.Staged)
    (hPop : q.popBefore limit = some (c, rest)) : rest.Staged := by
  obtain ⟨s, -, -, hLane, hOthers⟩ := popBefore_cases hPop
  intro s' x hx
  by_cases hs : s' = s
  · subst hs
    exact h s' x (hLane ▸ List.mem_cons_of_mem c hx)
  · exact h s' x (hOthers s' hs ▸ hx)

/-- What leaves was the first in the lane of its stage. -/
theorem Staged.lane_of_popBefore {limit : Option Stage} (h : q.Staged)
    (hPop : q.popBefore limit = some (c, rest)) :
    q.lane c.stage = c :: rest.lane c.stage ∧ ∀ s, s ≠ c.stage → rest.lane s = q.lane s := by
  obtain ⟨s, -, -, hLane, hOthers⟩ := popBefore_cases hPop
  obtain rfl : c.stage = s := h s c (hLane ▸ List.mem_cons_self)
  exact ⟨hLane, hOthers⟩

/-- Nothing waits in the lanes before a stage. -/
def ClearBefore (q : Agenda) (limit : Stage) : Prop :=
  ∀ s : Stage, s.rank < limit.rank → q.lane s = []

theorem clearBefore_of_popBefore_none {limit : Stage} (h : q.popBefore (some limit) = none) :
    q.ClearBefore limit :=
  fun s hLess => lane_eq_nil_of_popBefore h (by simpa [Stage.isBefore] using hLess)

/-- What leaves is of the first stage that has any, so nothing is left before it. -/
theorem Staged.clearBefore {limit : Option Stage} (h : q.Staged)
    (hPop : q.popBefore limit = some (c, rest)) :
    q.ClearBefore c.stage ∧ rest.ClearBefore c.stage := by
  obtain ⟨s, -, hEmpty, hLane, hOthers⟩ := popBefore_cases hPop
  obtain rfl : c.stage = s := h s c (hLane ▸ List.mem_cons_self)
  refine ⟨hEmpty, fun s' hLess => ?_⟩
  have hNe : s' ≠ c.stage := by
    rintro rfl
    exact Nat.lt_irrefl _ hLess
  rw [hOthers s' hNe]
  exact hEmpty s' hLess

/-- What waits is of the stage or a later one. -/
theorem ClearBefore.rank_le {limit : Stage} (h : q.ClearBefore limit)
    {c : Constraint} (hc : c ∈ q.lane c.stage) : limit.rank ≤ c.stage.rank := by
  by_contra hLess
  rw [h c.stage (by omega)] at hc
  cases hc

/-- Whatever is on the agenda waits in the lane of its stage. -/
theorem Staged.mem_lane (h : q.Staged) (hc : c ∈ q.toList) : c ∈ q.lane c.stage := by
  obtain ⟨s, -, hMem⟩ := List.mem_flatMap.mp hc
  rw [h s c hMem]
  exact hMem

end Agenda

end TraitInference
