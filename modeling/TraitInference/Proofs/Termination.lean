import TraitInference.Proofs.Solutions

/-!
# TraitInference — unification ends where there is a solution

On recursive types unification may go on for ever (`unify_endless`). It does not
where some assignment of finite trees solves the state and gives both types one
tree: every descent into the children of two types is a descent into lower trees,
and between two such descents there is at most one merge, after which the types of
the absorbed class, which are constructed, are compared with the new class. So the
depth is at most twice the height of the tree (`unifyWithin_ends`,
`unify_ends_of_solution`).

Nothing has to be known about how points are shared between classes and types:
the tree of a type is what it is however often its points occur.
-/

namespace TraitInference

-- ---------------------------------------------------------------------------
-- Heights
-- ---------------------------------------------------------------------------

namespace Tree

mutual

/-- The number of nodes on the longest way down a tree. -/
def height : Tree → Nat
  | .node _ children => heightOfAll children + 1

/-- The height of the highest tree in a row, zero if there is none. -/
def heightOfAll : List Tree → Nat
  | [] => 0
  | t :: ts => max t.height (heightOfAll ts)

end

theorem height_pos (t : Tree) : 0 < t.height := by
  cases t
  rw [height]
  omega

/-- No tree of a row is higher than the row. -/
theorem height_le_heightOfAll {t : Tree} {ts : List Tree} (h : t ∈ ts) :
    t.height ≤ heightOfAll ts := by
  induction ts with
  | nil => exact absurd h List.not_mem_nil
  | cons t' ts ih =>
    rw [heightOfAll]
    rcases List.mem_cons.mp h with rfl | h
    · exact Nat.le_max_left ..
    · have hRest := ih h
      omega

end Tree

namespace Ty

variable {A : Type} {node : Tag → List A → A} {σ : Point → A}

/-- A row of types is evaluated type by type. -/
theorem evalAll_eq (ts : List Ty) : evalAll node σ ts = ts.map (eval node σ) := by
  induction ts with
  | nil => rfl
  | cons t ts ih => rw [evalAll, List.map_cons, ih]

/-- The trees of children are lower. -/
theorem height_child_lt (σ : Assignment) (tag : Tag) {children : List Ty} (emit : Option String)
    {t : Ty} (ht : t ∈ children) :
    (t.value σ).height < ((con tag children emit).value σ).height := by
  have hMem : t.value σ ∈ evalAll Tree.node σ children := by
    rw [evalAll_eq]
    exact List.mem_map_of_mem ht
  have hLe := Tree.height_le_heightOfAll hMem
  rw [value, value, eval, Tree.height]
  exact Nat.lt_succ_of_le hLe

end Ty

namespace Unification

variable {u : Unification} {σ : Assignment} {allowed : Unification → Point → Point → Prop}

/-- `f` ends on types that `Q` relates, if the assignment solves the state and
gives them one tree. -/
def Unifier.EndsOn (f : Unifier) (σ : Assignment) (Q : Ty → Ty → Prop) : Prop :=
  ∀ left right u, u.WellFormed → Solves σ u → left.value σ = right.value σ → Q left right →
    ∃ result, f left right u = some result

/-- A row of calls ends if each of them does: the state in between is still solved. -/
theorem unifyEach_ends {f : Unifier} {Q : Ty → Ty → Prop} (hSteps : f.StepsBy allowed)
    (hKeeps : f.KeepsSolutions) (hf : f.EndsOn σ Q) (pairs : List (Ty × Ty)) {u : Unification}
    (h : u.WellFormed) (hSolves : Solves σ u)
    (hEqual : ∀ pair ∈ pairs, pair.1.value σ = pair.2.value σ)
    (hPairs : ∀ pair ∈ pairs, Q pair.1 pair.2) : ∃ result, unifyEach f pairs u = some result := by
  induction pairs generalizing u with
  | nil => exact ⟨_, rfl⟩
  | cons pair rest ih =>
    obtain ⟨left, right⟩ := pair
    rw [List.forall_mem_cons] at hEqual hPairs
    obtain ⟨⟨conflict, v⟩, hFirst⟩ := hf left right u h hSolves hEqual.1 hPairs.1
    have hFormed := h.steps (hSteps _ _ _ _ _ h hFirst)
    have hSolves' := (hKeeps _ _ _ _ _ σ h hFirst hSolves hEqual.1).1
    obtain ⟨result, hRest⟩ := ih hFormed hSolves' hEqual.2 hPairs.2
    exact ⟨(conflict || result.1, result.2), by simp [unifyEach, hFirst, hRest]⟩

/-- Types with one tree have one tag and as many children. -/
theorem unifyParts_ends {f : Unifier} {Q : Ty → Ty → Prop} (hSteps : f.StepsBy allowed)
    (hKeeps : f.KeepsSolutions) (hf : f.EndsOn σ Q) {tag tag' : Tag} {children children' : List Ty}
    {emit emit' : Option String} (h : u.WellFormed) (hSolves : Solves σ u)
    (hEqual : (Ty.con tag children emit).value σ = (Ty.con tag' children' emit').value σ)
    (hPairs : ∀ pair ∈ children.zip children', Q pair.1 pair.2) :
    ∃ result, unifyParts f tag children tag' children' u = some result := by
  obtain ⟨hTag, hLength, hChildren⟩ := Ty.value_con_inj hEqual
  rw [unifyParts, if_pos ⟨hTag, hLength⟩]
  exact unifyEach_ends hSteps hKeeps hf _ h hSolves hChildren hPairs

-- ---------------------------------------------------------------------------
-- One level
-- ---------------------------------------------------------------------------

/-- At most one of the two types is a point. -/
def NotBothPoints (left right : Ty) : Prop :=
  (∀ p, left ≠ .point p) ∨ ∀ p, right ≠ .point p

/-- What a type is known to be has its tree. -/
theorem resolve_value (h : u.WellFormed) (hSolves : Solves σ u) (t : Ty) :
    (u.resolve t).1.value σ = t.value σ := by
  cases t with
  | con => rfl
  | point p =>
    rcases resolve_point_cases h p with ⟨-, hFirst⟩ | ⟨_, _, _, hFirst, hKnown⟩
    · rw [hFirst]
      exact (hSolves.representative p).symm
    · rw [hFirst]
      exact (hSolves.eval_known hKnown).symm

/-- Types that are not both points are compared by their children, whose trees are
lower. -/
theorem unifyStep_ends_of_notBothPoints {f : Unifier} {n : Nat} (hSteps : f.StepsBy allowed)
    (hKeeps : f.KeepsSolutions) (hf : f.EndsOn σ fun t _ => (t.value σ).height ≤ n) :
    Unifier.EndsOn (unifyStep f) σ fun left right =>
      NotBothPoints left right ∧ (left.value σ).height ≤ n + 1 := by
  rintro left right u h hSolves hEqual ⟨hSides, hHeight⟩
  have hTouch : Solves σ (u.touch left right) := (agrees_touch h left right).models_iff.mpr hSolves
  have hLeft : (u.resolve left).1.value σ = left.value σ := resolve_value h hSolves left
  have hRight : ((u.resolve left).2.resolve right).1.value σ = right.value σ :=
    resolve_value (h.resolve left) ((agrees_resolve h.forest left).models_iff.mpr hSolves) right
  unfold unifyStep
  split
  · exact ⟨_, rfl⟩
  · split
    · rcases hSides with hSide | hSide
      · exact absurd rfl (hSide _)
      · exact absurd rfl (hSide _)
    · show ∃ result, unifyKnown f left right (u.resolve left).1
        ((u.resolve left).2.resolve right).1 (u.touch left right) = some result
      generalize (u.resolve left).1 = known at hLeft ⊢
      generalize ((u.resolve left).2.resolve right).1 = known' at hRight ⊢
      unfold unifyKnown
      split
      · exact ⟨_, rfl⟩
      · exact ⟨_, rfl⟩
      · -- both are known: what is left are the children
        rename_i tag children emit tag' children' emit'
        obtain ⟨⟨conflict, v⟩, hParts⟩ := unifyParts_ends hSteps hKeeps hf (h.touch left right)
          hTouch (hLeft.trans (hEqual.trans hRight.symm)) (by
            intro pair hPair
            have hLess := Ty.height_child_lt σ tag emit (List.of_mem_zip hPair).1
            rw [hLeft] at hLess
            omega)
        rw [hParts]
        cases conflict with
        | false => exact ⟨_, rfl⟩
        | true => exact ⟨_, rfl⟩

/-- Two points are merged, and the types of the absorbed class, which are not
points, are compared with the new class. -/
theorem unifyPoints_ends {f : Unifier} {n : Nat} (hSteps : f.StepsBy allowed)
    (hKeeps : f.KeepsSolutions)
    (hf : f.EndsOn σ fun left right => NotBothPoints left right ∧ (left.value σ).height ≤ n)
    {a b : Point} (h : u.WellFormed) (hSolves : Solves σ u) (hEqual : σ a = σ b)
    (hHeight : (σ a).height ≤ n) : ∃ result, unifyPoints f a b u = some result := by
  have hFormed := (h.find a).find b
  have hAgrees := (agrees_find h.forest a).trans (agrees_find (h.find a).forest b)
  have hSolves' : Solves σ ((u.find a).2.find b).2 := hAgrees.models_iff.mpr hSolves
  unfold unifyPoints
  simp only [find_fst, find_typesAt, find_representative h.forest]
  split
  · exact ⟨_, rfl⟩
  · -- after the merge the types of the absorbed class are compared with a point
    rename_i hNe
    have hNe' : ((u.find a).2.find b).2.representative a ≠
        ((u.find a).2.find b).2.representative b := by
      rw [hAgrees.representative, hAgrees.representative]
      exact hNe
    refine unifyEach_ends hSteps hKeeps hf _ (hFormed.merge hNe')
      (hSolves'.merge hFormed hNe' hEqual) ?_ ?_
    · intro pair hPair
      obtain ⟨t, ht, rfl⟩ := List.mem_map.mp hPair
      exact hEqual.trans (hSolves.eval_eq ht)
    · intro pair hPair
      obtain ⟨t, ht, rfl⟩ := List.mem_map.mp hPair
      refine ⟨.inr ?_, hHeight⟩
      rintro p rfl
      exact h.point_not_mem_typesAt _ p ht

-- ---------------------------------------------------------------------------
-- All levels
-- ---------------------------------------------------------------------------

/-- What ends at some depth ends at larger ones. -/
theorem Unifier.EndsOn.mono {f g : Unifier} {Q : Ty → Ty → Prop} (hf : f.EndsOn σ Q)
    (hExtends : f.Extends g) : g.EndsOn σ Q := by
  intro left right u h hSolves hEqual hQ
  obtain ⟨result, hRun⟩ := hf left right u h hSolves hEqual hQ
  exact ⟨result, hExtends _ _ _ _ hRun⟩

/-- **Unification ends where there is a solution**, at a depth of at most twice the
height of the tree that the solution gives the two types. -/
theorem unifyWithin_ends (σ : Assignment) (n : Nat) :
    (unifyWithin (2 * n)).EndsOn σ fun t _ => (t.value σ).height ≤ n := by
  induction n with
  | zero =>
    intro left right u _ _ _ hHeight
    have hPos := (left.value σ).height_pos
    omega
  | succ n ih =>
    have hSteps := unifyWithin_steps (2 * n)
    have hKeeps := unifyWithin_keepsSolutions (2 * n)
    -- one level takes care of types that are not both points, and one more of a merge before
    have hOnce : (unifyWithin (2 * n + 1)).EndsOn σ fun left right =>
        NotBothPoints left right ∧ (left.value σ).height ≤ n + 1 :=
      unifyStep_ends_of_notBothPoints hSteps hKeeps ih
    have hTwice := hOnce.mono (unifyWithin_mono (Nat.le_succ (2 * n + 1)))
    intro left right u h hSolves hEqual hHeight
    by_cases hSides : NotBothPoints left right
    · exact hTwice left right u h hSolves hEqual ⟨hSides, hHeight⟩
    · simp only [NotBothPoints, not_or, not_forall, not_not] at hSides
      obtain ⟨⟨a, rfl⟩, b, rfl⟩ := hSides
      show ∃ result, unifyStep (unifyWithin (2 * n + 1)) (.point a) (.point b) u = some result
      unfold unifyStep
      split
      · exact ⟨_, rfl⟩
      · exact unifyPoints_ends (unifyWithin_steps _) (unifyWithin_keepsSolutions _) hOnce h hSolves
          hEqual hHeight

-- ---------------------------------------------------------------------------
-- Calls of unification
-- ---------------------------------------------------------------------------

/-- Nothing is said, so anything solves it. -/
theorem solves_empty (σ : Assignment) : Solves σ {} where
  representative p := rfl
  types p t ht := by simp [typesOf, typesAt] at ht

/-- A call keeps the solutions that give its two types one tree. -/
theorem Solves.unify {u' : Unification} (hSolves : Solves σ u) (hu : u.Reachable) {fuel : Nat}
    {left right : Ty} {notes : List Note} (hRun : u.unify fuel left right = some (notes, u'))
    (hEqual : left.value σ = right.value σ) : Solves σ u' := by
  obtain ⟨conflict, v, hWithin, -, rfl⟩ := unify_eq_some_iff.mp hRun
  obtain ⟨hAfter, -⟩ :=
    unifyWithin_keepsSolutions fuel _ _ _ _ _ σ hu.wellFormed hWithin hSolves hEqual
  exact ⟨hAfter.representative, hAfter.types⟩

/--
**Unification ends on every solvable input.** If an assignment of finite trees solves a
reachable state and gives two types one tree, then unifying them ends: with every bound
on the depth from twice the height of that tree on, and always with the same result.
-/
theorem unify_ends_of_solution (hu : u.Reachable) {left right : Ty} (hSolves : Solves σ u)
    (hEqual : left.value σ = right.value σ) :
    ∃ notes u', ∀ fuel, 2 * (left.value σ).height ≤ fuel →
      u.unify fuel left right = some (notes, u') := by
  obtain ⟨⟨conflict, v⟩, hEnds⟩ := unifyWithin_ends σ (left.value σ).height left right u
    hu.wellFormed hSolves hEqual le_rfl
  refine ⟨v.journal.reverse, { v with journal := [] }, fun fuel hFuel => ?_⟩
  have hWithin := unifyWithin_mono hFuel _ _ _ _ hEnds
  exact unify_eq_some_iff.mpr ⟨conflict, v, hWithin, rfl, rfl⟩

/-- Point 0 is a pair of point 1 with itself, and so is point 1 of point 2. A pair that
shares points 1 and 2 with these classes is unified with point 0. -/
theorem unify_ends_of_solution_shared :
    ∃ (u : Unification) (σ : Assignment), u.Reachable ∧ Solves σ u ∧
      (u.typesOf ⟨0⟩).map Ty.points = [[⟨1⟩, ⟨1⟩]] ∧ (u.typesOf ⟨1⟩).map Ty.points = [[⟨2⟩, ⟨2⟩]] ∧
      ∃ notes u', ∀ fuel, 6 ≤ fuel →
        u.unify fuel (.point ⟨0⟩)
          (.con .tuple [.con .tuple [.point ⟨3⟩, .point ⟨2⟩] none, .point ⟨1⟩] none) =
            some (notes, u') := by
  let pairOf (t t' : Ty) : Ty := .con .tuple [t, t'] none
  let leaf : Tree := .node .block []
  let pair : Tree := .node .tuple [leaf, leaf]
  let σ : Assignment := fun p =>
    if p = ⟨0⟩ then .node .tuple [pair, pair] else if p = ⟨1⟩ then pair else leaf
  have hCheck : (({} : Unification).unify 3 (pairOf (.point ⟨0⟩) (.point ⟨1⟩))
      (pairOf (pairOf (.point ⟨1⟩) (.point ⟨1⟩)) (pairOf (.point ⟨2⟩) (.point ⟨2⟩)))).any
      (fun x => decide ((x.2.typesOf ⟨0⟩).map Ty.points = [[⟨1⟩, ⟨1⟩]] ∧
        (x.2.typesOf ⟨1⟩).map Ty.points = [[⟨2⟩, ⟨2⟩]])) = true := by decide +kernel
  obtain ⟨⟨_, u⟩, hRun, hTypes⟩ := (Option.any_eq_true _ _).mp hCheck
  rw [decide_eq_true_eq] at hTypes
  have hReachable : u.Reachable := .unify .empty hRun
  have hSolves : Solves σ u := (solves_empty σ).unify .empty hRun rfl
  have hEqual : (Ty.point ⟨0⟩).value σ =
      (pairOf (pairOf (.point ⟨3⟩) (.point ⟨2⟩)) (.point ⟨1⟩)).value σ := rfl
  exact ⟨u, σ, hReachable, hSolves, hTypes.1, hTypes.2,
    unify_ends_of_solution hReachable hSolves hEqual⟩

-- ---------------------------------------------------------------------------
-- Unification without end
-- ---------------------------------------------------------------------------

/-- A class that is known to be a list of lists of itself cannot be made a list of itself:
what is left of the equation after one level is the same equation with its sides
exchanged. -/
theorem unifyWithin_endless {tag : Tag} {p : Point} (fuel : Nat) (hForest : u.classes.IsForest)
    (hHead : (u.typesOf p).head? = some (.con tag [.con tag [.point p] none] none)) :
    unifyWithin fuel (.point p) (.con tag [.point p] none) u = none ∧
      unifyWithin fuel (.con tag [.point p] none) (.point p) u = none := by
  induction fuel generalizing u with
  | zero => exact ⟨rfl, rfl⟩
  | succ fuel ih =>
    -- looking the point up leaves its type what it is
    have hHead' : ((u.find p).2.typesOf p).head? =
        some (.con tag [.con tag [.point p] none] none) := by
      rw [typesOf, find_representative hForest, find_typesAt]
      exact hHead
    obtain ⟨hPoint, hList⟩ := ih (UnionFind.isForest_find hForest p) hHead'
    rw [typesOf] at hHead
    constructor
    · simp [unifyWithin, unifyStep, Ty.same, resolve, hHead, unifyKnown, unifyParts, unifyEach,
        hList]
    · simp [unifyWithin, unifyStep, Ty.same, resolve, hHead, unifyKnown, unifyParts, unifyEach,
        hPoint]

/-- Without a solution there may be no end: points 0 and 1 are one class, whose only type
is a list of lists of point 1. -/
theorem unify_endless :
    ∃ u : Unification, u.Reachable ∧
      ∀ fuel, u.unify fuel (.point ⟨1⟩) (.con .block [.point ⟨1⟩] none) = none := by
  have hRun : ({} : Unification).unify 3 (.con .tuple [.point ⟨0⟩, .point ⟨0⟩] none)
      (.con .tuple [.con .block [.con .block [.point ⟨1⟩] none] none, .point ⟨1⟩] none) =
      some ([], _) := rfl
  have hReachable := Reachable.unify .empty hRun
  refine ⟨_, hReachable, fun fuel => ?_⟩
  rw [Unification.unify, (unifyWithin_endless fuel hReachable.wellFormed.forest rfl).1]
  rfl

end Unification

end TraitInference
