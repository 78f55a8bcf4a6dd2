import TraitInference.Proofs.PointMap
import TraitInference.Unification.Occurs
import Mathlib.Data.List.TakeWhile
import Mathlib.Logic.Relation

/-!
# TraitInference — classes inside classes

A class **links** to the class of every point that occurs in one of its types.
A state is acyclic when no class can be reached from its own types along links.

The occurs check searches along links, with one set of opened classes for all
branches and a bound on how many it opens. `occurs_iff` says that it decides
reachability exactly, whatever the types are: answering *no* at a class that was
opened before is right because whatever lies behind that class is either opened
too or still to be looked at (`Frontier`), and the bound suffices because every
class that is opened has types and is opened once. So whether a state is acyclic
can be decided as well (`hasCycle_eq_false_iff`).
-/

namespace TraitInference.Unification

variable {u : Unification}

/-- From the class `r`, one of its types leads to the class `r'`. -/
def Links (u : Unification) (r r' : Point) : Prop :=
  ∃ p ∈ u.pointsAt r, u.representative p = r'

/-- Some number of links leads from `r` to `r'`, possibly none. -/
abbrev Reaches (u : Unification) : Point → Point → Prop :=
  Relation.ReflTransGen u.Links

/-- No class is reachable from its own types. -/
def Acyclic (u : Unification) : Prop :=
  ∀ r, ¬ Relation.TransGen u.Links r r

theorem mem_pointsAt {r p : Point} :
    p ∈ u.pointsAt r ↔ ∃ t ∈ u.typesAt r, p ∈ t.points :=
  List.mem_flatMap

/-- A class without types leads nowhere. -/
theorem typesAt_ne_nil_of_links {r r' : Point} (h : u.Links r r') : u.typesAt r ≠ [] := by
  obtain ⟨p, hp, -⟩ := h
  obtain ⟨t, ht, -⟩ := mem_pointsAt.mp hp
  exact List.ne_nil_of_mem ht

/-- A class without types reaches only itself. -/
theorem eq_of_reaches_of_typesAt_eq_nil {r r' : Point} (hNil : u.typesAt r = [])
    (h : u.Reaches r r') : r = r' := by
  rcases h.cases_head with hEq | ⟨_, hLink, -⟩
  · exact hEq
  · exact absurd hNil (typesAt_ne_nil_of_links hLink)

/-- Classes with types are listed. -/
theorem mem_keys_of_typesAt_ne_nil {r : Point} (h : u.typesAt r ≠ []) : r ∈ u.types.keys := by
  rw [Std.ExtTreeMap.mem_keys, Std.ExtTreeMap.mem_iff_isSome_getElem?]
  unfold typesAt at h
  cases hTypes : u.types[r]? with
  | none => simp [hTypes] at h
  | some ts => rfl

-- ---------------------------------------------------------------------------
-- The search finds only what can be reached
-- ---------------------------------------------------------------------------

/-- Whatever is opened was reached from a point that was to be looked at. -/
theorem exists_reaches_of_search {target : Point} {fuel : Nat} {opened : PointSet}
    {todo : List Point} (h : u.search target fuel opened todo = true) :
    ∃ p ∈ todo, u.Reaches (u.representative p) target := by
  induction fuel generalizing opened todo with
  | zero =>
    rw [search, List.any_eq_true] at h
    obtain ⟨p, hp, hRoot⟩ := h
    rw [decide_eq_true_eq] at hRoot
    exact ⟨p, hp, hRoot ▸ .refl⟩
  | succ fuel ih =>
    rw [search] at h
    split at h
    · cases h
    · rename_i p rest hTodo
      -- what is left after passing over settled points was there before
      have hMem : ∀ q ∈ p :: rest, q ∈ todo := by
        intro q hq
        rw [← hTodo] at hq
        exact (List.dropWhile_suffix _).subset hq
      simp only [Bool.or_eq_true, decide_eq_true_eq] at h
      rcases h with hRoot | hLater
      · exact ⟨p, hMem p (by simp), hRoot ▸ .refl⟩
      · obtain ⟨q, hq, hReach⟩ := ih hLater
        rcases List.mem_append.mp hq with hq | hq
        · exact ⟨p, hMem p (by simp), .head ⟨q, hq, rfl⟩ hReach⟩
        · exact ⟨q, hMem q (by simp [hq]), hReach⟩

-- ---------------------------------------------------------------------------
-- The search finds all that can be reached
-- ---------------------------------------------------------------------------

/-- The classes in `opened` have been looked into: what they link to is opened
as well, or still to be looked at, or leads nowhere. -/
structure Frontier (u : Unification) (target : Point) (opened : PointSet)
    (todo : List Point) : Prop where
  target_not_mem : target ∉ opened
  links : ∀ r r', r ∈ opened → u.Links r r' →
    r' ∈ opened ∨ (∃ p ∈ todo, u.representative p = r') ∨ (r' ≠ target ∧ u.typesAt r' = [])

/-- A way from an opened class to the target leaves the opened classes at a
point that is still to be looked at. -/
theorem Frontier.exists_todo {target : Point} {opened : PointSet} {todo : List Point}
    (h : u.Frontier target opened todo) {r : Point} (hReach : u.Reaches r target)
    (hOpened : r ∈ opened) :
    ∃ p ∈ todo, u.representative p ∉ opened ∧ u.Reaches (u.representative p) target := by
  induction hReach using Relation.ReflTransGen.head_induction_on with
  | refl => exact absurd hOpened h.target_not_mem
  | @head r r' hLink hRest ih =>
    rcases h.links r r' hOpened hLink with hMem | ⟨p, hp, rfl⟩ | ⟨hNe, hNil⟩
    · exact ih hMem
    · by_cases hMem : u.representative p ∈ opened
      · exact ih hMem
      · exact ⟨p, hp, hMem, hRest⟩
    · exact absurd (eq_of_reaches_of_typesAt_eq_nil hNil hRest) hNe

/-- So some point to be looked at leads to the target and is not opened yet. -/
theorem Frontier.exists_outside {target : Point} {opened : PointSet} {todo : List Point}
    (h : u.Frontier target opened todo) {p : Point} (hp : p ∈ todo)
    (hReach : u.Reaches (u.representative p) target) :
    ∃ q ∈ todo, u.representative q ∉ opened ∧ u.Reaches (u.representative q) target := by
  by_cases hOpened : u.representative p ∈ opened
  · exact h.exists_todo hReach hOpened
  · exact ⟨p, hp, hOpened, hReach⟩

theorem isSettled_iff {target : Point} {opened : PointSet} {p : Point} :
    u.isSettled target opened p = true ↔
      u.representative p ≠ target ∧
        (u.representative p ∈ opened ∨ u.typesAt (u.representative p) = []) := by
  simp [isSettled]

/-- Passing over settled points and opening the class of the next one. -/
theorem Frontier.open {target : Point} {opened : PointSet} {todo settled rest : List Point}
    {p : Point} (h : u.Frontier target opened todo) (hTodo : todo = settled ++ p :: rest)
    (hSettled : ∀ q ∈ settled, u.isSettled target opened q = true)
    (hNe : u.representative p ≠ target) :
    u.Frontier target (opened.insert (u.representative p))
      (u.pointsAt (u.representative p) ++ rest) := by
  refine ⟨?_, fun r r' hr hLink => ?_⟩
  · rw [PointSet.mem_insert, not_or]
    exact ⟨hNe.symm, h.target_not_mem⟩
  · rw [PointSet.mem_insert] at hr ⊢
    rcases hr with rfl | hr
    · -- the class just opened: its points are now to be looked at
      obtain ⟨q, hq, hRoot⟩ := hLink
      exact .inr (.inl ⟨q, List.mem_append_left _ hq, hRoot⟩)
    · rcases h.links r r' hr hLink with hMem | ⟨q, hq, hRoot⟩ | hDead
      · exact .inl (.inr hMem)
      · rw [hTodo, List.mem_append, List.mem_cons] at hq
        rcases hq with hq | rfl | hq
        · obtain ⟨hOther, hCases⟩ := isSettled_iff.mp (hSettled q hq)
          rw [hRoot] at hOther hCases
          rcases hCases with hMem | hNil
          · exact .inl (.inr hMem)
          · exact .inr (.inr ⟨hOther, hNil⟩)
        · exact .inl (.inl hRoot.symm)
        · exact .inr (.inl ⟨q, List.mem_append_right _ hq, hRoot⟩)
      · exact .inr (.inr hDead)

/-- The typed classes that a search has not opened. -/
def unopened (u : Unification) (opened : PointSet) : List Point :=
  u.types.keys.filter fun r => r ∉ opened

theorem mem_unopened {opened : PointSet} {r : Point} (hTyped : u.typesAt r ≠ [])
    (hClosed : r ∉ opened) : r ∈ u.unopened opened := by
  rw [unopened, List.mem_filter]
  exact ⟨mem_keys_of_typesAt_ne_nil hTyped, by simpa using hClosed⟩

/-- Each class that is opened takes one unit of the bound. -/
theorem length_unopened_insert {opened : PointSet} {r : Point} (hTyped : u.typesAt r ≠ [])
    (hClosed : r ∉ opened) :
    (u.unopened (opened.insert r)).length < (u.unopened opened).length := by
  have hFilter : u.unopened (opened.insert r) = (u.unopened opened).filter fun q => q ≠ r := by
    rw [unopened, unopened, List.filter_filter]
    apply List.filter_congr
    intro q _
    by_cases hq : r = q
    · simp [hq]
    · simp [Std.ExtTreeSet.mem_insert, hq, Ne.symm hq]
  rw [hFilter]
  refine List.length_filter_lt_length_iff_exists.mpr ⟨r, mem_unopened hTyped hClosed, ?_⟩
  simp

/-- The search cannot stop before the target: there is a way out as long as fuel is needed. -/
theorem search_of_reaches {target : Point} {fuel : Nat} {opened : PointSet} {todo : List Point}
    (hFrontier : u.Frontier target opened todo) (hFuel : (u.unopened opened).length ≤ fuel)
    {p : Point} (hp : p ∈ todo) (hReach : u.Reaches (u.representative p) target) :
    u.search target fuel opened todo = true := by
  induction fuel generalizing opened todo p with
  | zero =>
    -- every typed class is opened, so the way out leads straight to the target
    obtain ⟨q, hq, hClosed, hOut⟩ := hFrontier.exists_outside hp hReach
    rw [search, List.any_eq_true]
    refine ⟨q, hq, ?_⟩
    rw [decide_eq_true_eq]
    rcases hOut.cases_head with hEq | ⟨_, hLink, -⟩
    · exact hEq
    · have hMem := mem_unopened (typesAt_ne_nil_of_links hLink) hClosed
      have hPos := List.length_pos_of_mem hMem
      omega
  | succ fuel ih =>
    obtain ⟨q, hq, hClosed, hOut⟩ := hFrontier.exists_outside hp hReach
    -- a point with a way to the target outside the opened classes is not settled
    have hUnsettled : ¬ u.isSettled target opened q = true := by
      rw [isSettled_iff]
      rintro ⟨hNe, hMem | hNil⟩
      · exact hClosed hMem
      · exact hNe (eq_of_reaches_of_typesAt_eq_nil hNil hOut)
    have hSplit := List.takeWhile_append_dropWhile (p := u.isSettled target opened) (l := todo)
    rw [search]
    split
    · rename_i hNil
      rw [hNil, List.append_nil] at hSplit
      rw [← hSplit] at hq
      exact absurd (List.mem_takeWhile_imp hq) hUnsettled
    · rename_i x rest hDrop
      rw [hDrop] at hSplit
      have hHead : ¬ u.isSettled target opened x = true := by
        have hNot := List.head?_dropWhile_not (u.isSettled target opened) todo
        rw [hDrop] at hNot
        simpa using hNot
      simp only [Bool.or_eq_true, decide_eq_true_eq]
      by_cases hRoot : u.representative x = target
      · exact .inl hRoot
      · right
        have hOpen := hFrontier.open hSplit.symm (fun _ => List.mem_takeWhile_imp) hRoot
        rw [isSettled_iff, not_and, not_or] at hHead
        obtain ⟨hFresh, hTyped⟩ := hHead hRoot
        have hLess := length_unopened_insert hTyped hFresh
        rw [← hSplit, List.mem_append, List.mem_cons] at hq
        rcases hq with hq | rfl | hq
        · exact absurd (List.mem_takeWhile_imp hq) hUnsettled
        · rcases hOut.cases_head with hEq | ⟨_, ⟨next, hNext, rfl⟩, hRest⟩
          · exact absurd hEq hRoot
          · exact ih hOpen (by omega) (List.mem_append_left _ hNext) hRest
        · exact ih hOpen (by omega) (List.mem_append_right _ hq) hOut

/-- **The occurs check decides reachability**: the class `target` occurs in `t`
exactly when links lead to it from the class of some point of `t`. -/
theorem occurs_iff (u : Unification) (target : Point) (t : Ty) :
    u.occurs target t = true ↔
      ∃ p ∈ t.points, u.Reaches (u.representative p) target := by
  constructor
  · exact exists_reaches_of_search
  · rintro ⟨p, hp, hReach⟩
    have hEmpty : ∀ r : Point, r ∉ (∅ : PointSet) := fun r => Std.ExtTreeSet.not_mem_empty
    refine search_of_reaches ⟨hEmpty target, fun r _ hr => absurd hr (hEmpty r)⟩ ?_ hp hReach
    calc (u.unopened ∅).length ≤ u.types.keys.length := List.length_filter_le ..
      _ = u.types.size := Std.ExtTreeMap.length_keys

-- ---------------------------------------------------------------------------
-- Cycles
-- ---------------------------------------------------------------------------

/-- A way of at least one link starts in one of the types. -/
theorem transGen_links_iff {r r' : Point} :
    Relation.TransGen u.Links r r' ↔ ∃ t ∈ u.typesAt r, u.occurs r' t = true := by
  simp only [occurs_iff]
  constructor
  · intro hWay
    obtain ⟨_, ⟨p, hp, rfl⟩, hReach⟩ := Relation.TransGen.head'_iff.mp hWay
    obtain ⟨t, ht, hpt⟩ := mem_pointsAt.mp hp
    exact ⟨t, ht, p, hpt, hReach⟩
  · rintro ⟨t, ht, p, hp, hReach⟩
    exact .head' ⟨p, mem_pointsAt.mpr ⟨t, ht, hp⟩, rfl⟩ hReach

/-- Whether some class occurs in one of its own types. -/
def hasCycle (u : Unification) : Bool :=
  u.types.keys.any fun r => (u.typesAt r).any (u.occurs r)

/-- Looking for a class inside its own types decides whether a state is acyclic. -/
theorem hasCycle_eq_false_iff : u.hasCycle = false ↔ u.Acyclic := by
  have hCycle : u.hasCycle = true ↔ ∃ r, Relation.TransGen u.Links r r := by
    simp only [hasCycle, List.any_eq_true, transGen_links_iff]
    constructor
    · rintro ⟨r, -, t, ht, hOccurs⟩
      exact ⟨r, t, ht, hOccurs⟩
    · rintro ⟨r, t, ht, hOccurs⟩
      exact ⟨r, mem_keys_of_typesAt_ne_nil (List.ne_nil_of_mem ht), t, ht, hOccurs⟩
  rw [← Bool.not_eq_true, hCycle, not_exists]
  exact Iff.rfl

end TraitInference.Unification
