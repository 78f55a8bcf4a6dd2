import TraitInference.Proofs.PointMap
import TraitInference.UnionFind
import Mathlib.Data.List.Perm.Subperm

/-!
# TraitInference — the forest of parents

Disjoint sets are kept as a table of parents. What makes such a table a
**forest** is that every climb through it ends (`IsForest`); the number of
recorded points then bounds every climb, and `representative`, which climbs no
further than that, gives the root.

Main results, all for an arbitrary forest:

* `representative_eq` — a climb that ends at `r` makes `r` the representative.
* `representative_find` — recording a point changes no representative.
* `representative_union` — merging `a` with `b` gives both sets the
  representative `a`, a root or not, and leaves all other sets alone. The path
  above `a` is cut at `a` and hung below it.
-/

namespace TraitInference.UnionFind

-- ---------------------------------------------------------------------------
-- Climbs
-- ---------------------------------------------------------------------------

/-- From `p` one climbs to the root `r` through `n` parents. -/
inductive Climbs (parents : PointMap Point) : Nat → Point → Point → Prop
  | root {p : Point} (hRoot : ∀ q, parents[p]? = some q → q = p) : Climbs parents 0 p p
  | up {n : Nat} {p q r : Point} (hParent : parents[p]? = some q) (hNe : q ≠ p)
      (hRest : Climbs parents n q r) : Climbs parents (n + 1) p r

variable {parents : PointMap Point}

/-- There is one way to climb from a point. -/
theorem Climbs.unique {n n' : Nat} {p r r' : Point} (h : Climbs parents n p r)
    (h' : Climbs parents n' p r') : n = n' ∧ r = r' := by
  induction h generalizing n' with
  | root hRoot =>
    cases h' with
    | root _ => exact ⟨rfl, rfl⟩
    | up hParent hNe _ => exact absurd (hRoot _ hParent) hNe
  | up hParent hNe _ ih =>
    cases h' with
    | root hRoot => exact absurd (hRoot _ hParent) hNe
    | up hParent' _ hRest' =>
      obtain rfl : _ = _ := Option.some.inj (hParent.symm.trans hParent')
      obtain ⟨hLength, hEnd⟩ := ih hRest'
      exact ⟨by rw [hLength], hEnd⟩

/-- A climb ends at a root. -/
theorem Climbs.root_of_end {n : Nat} {p r : Point} (h : Climbs parents n p r) :
    ∀ q, parents[r]? = some q → q = r := by
  induction h with
  | root hRoot => exact hRoot
  | up _ _ _ ih => exact ih

/-- The points on a climb below its root: all recorded, no two the same. -/
theorem Climbs.exists_path {n : Nat} {p r : Point} (h : Climbs parents n p r) :
    ∃ path : List Point, path.length = n ∧ path.Nodup ∧
      ∀ q ∈ path, q ∈ parents ∧ ∃ m, m ≤ n ∧ Climbs parents m q r := by
  induction h with
  | root _ => exact ⟨[], rfl, List.nodup_nil, by simp⟩
  | @up n p q r hParent hNe hRest ih =>
    obtain ⟨path, hLength, hNodup, hPath⟩ := ih
    have hWhole : Climbs parents (n + 1) p r := .up hParent hNe hRest
    refine ⟨p :: path, by simp [hLength], List.nodup_cons.mpr ⟨?_, hNodup⟩, ?_⟩
    · -- a second visit to `p` would have a shorter way to the root
      intro hAgain
      obtain ⟨-, m, hLe, hClimb⟩ := hPath p hAgain
      have hSame := (hClimb.unique hWhole).1
      omega
    · intro x hx
      rcases List.mem_cons.mp hx with rfl | hx
      · exact ⟨Std.ExtTreeMap.mem_iff_isSome_getElem?.mpr (by simp [hParent]),
          n + 1, Nat.le_refl _, hWhole⟩
      · obtain ⟨hMem, m, hLe, hClimb⟩ := hPath x hx
        exact ⟨hMem, m, by omega, hClimb⟩

/-- No climb is longer than the number of recorded points. -/
theorem Climbs.le_size {n : Nat} {p r : Point} (h : Climbs parents n p r) :
    n ≤ parents.size := by
  obtain ⟨path, rfl, hNodup, hPath⟩ := h.exists_path
  have hSubset : path ⊆ parents.keys := by
    intro q hq
    exact Std.ExtTreeMap.mem_keys.mpr (hPath q hq).1
  rw [← Std.ExtTreeMap.length_keys]
  exact (List.subperm_of_subset hNodup hSubset).length_le

/-- A climb that has enough fuel gets to its end. -/
theorem climb_eq {n fuel : Nat} {p r : Point} (h : Climbs parents n p r) (hFuel : n ≤ fuel) :
    climb parents fuel p = r := by
  induction h generalizing fuel with
  | @root p hRoot =>
    cases fuel with
    | zero => rfl
    | succ fuel =>
      rw [climb]
      split
      · rfl
      · rw [if_pos (hRoot _ ‹_›)]
  | up hParent hNe _ ih =>
    obtain ⟨more, rfl⟩ : ∃ more, fuel = more + 1 := ⟨fuel - 1, by omega⟩
    rw [climb, hParent]
    simp only [if_neg hNe]
    exact ih (by omega)

/-- **The representative is the root that one climbs to.** -/
theorem representative_eq {u : UnionFind} {n : Nat} {p r : Point}
    (h : Climbs u.parents n p r) : u.representative p = r :=
  climb_eq h h.le_size

-- ---------------------------------------------------------------------------
-- Forests
-- ---------------------------------------------------------------------------

/-- Every climb ends, and the parents of recorded points are recorded. -/
structure IsForest (u : UnionFind) : Prop where
  ends   : ∀ p, ∃ n r, Climbs u.parents n p r
  closed : ∀ p q : Point, u.parents[p]? = some q → u.contains q = true

variable {u : UnionFind}

/-- No points make a forest. -/
theorem isForest_empty : IsForest {} where
  ends p := ⟨0, p, .root (by simp)⟩
  closed p q h := by simp at h

/-- In a forest one climbs to the representative. -/
theorem IsForest.climbs (h : u.IsForest) (p : Point) :
    ∃ n, Climbs u.parents n p (u.representative p) := by
  obtain ⟨n, r, hClimb⟩ := h.ends p
  exact ⟨n, representative_eq hClimb ▸ hClimb⟩

/-- A root represents itself. -/
theorem representative_of_root {p : Point} (hRoot : ∀ q, u.parents[p]? = some q → q = p) :
    u.representative p = p :=
  representative_eq (.root hRoot)

theorem contains_eq_isSome (u : UnionFind) (p : Point) :
    u.contains p = u.parents[p]?.isSome :=
  Std.ExtTreeMap.contains_eq_isSome_getElem?

theorem mem_points {p : Point} : p ∈ u.points ↔ u.contains p = true := by
  rw [points, Std.ExtTreeMap.mem_keys, contains, Std.ExtTreeMap.contains_iff_mem]

/-- So does a point that is not recorded. -/
theorem representative_of_not_contains {p : Point} (h : u.contains p = false) :
    u.representative p = p := by
  apply representative_of_root
  intro q hq
  simp [contains_eq_isSome, hq] at h

/-- A representative represents itself. -/
@[simp]
theorem representative_representative (h : u.IsForest) (p : Point) :
    u.representative (u.representative p) = u.representative p := by
  obtain ⟨n, hClimb⟩ := h.climbs p
  exact representative_of_root hClimb.root_of_end

/-- A point and its parent are in one set. -/
theorem representative_parent (h : u.IsForest) {p q : Point} (hParent : u.parents[p]? = some q) :
    u.representative q = u.representative p := by
  by_cases hSelf : q = p
  · rw [hSelf]
  · obtain ⟨n, hClimb⟩ := h.climbs q
    exact (representative_eq (.up hParent hSelf hClimb)).symm

/-- Climbing does not leave the recorded points. -/
theorem contains_of_climbs (h : u.IsForest) {n : Nat} {p r : Point}
    (hClimb : Climbs u.parents n p r) (hp : u.contains p = true) : u.contains r = true := by
  induction hClimb with
  | root _ => exact hp
  | up hParent _ _ ih => exact ih (h.closed _ _ hParent)

/-- The representative of a recorded point is recorded. -/
theorem contains_representative (h : u.IsForest) {p : Point} (hp : u.contains p = true) :
    u.contains (u.representative p) = true := by
  obtain ⟨n, hClimb⟩ := h.climbs p
  exact contains_of_climbs h hClimb hp

-- ---------------------------------------------------------------------------
-- Recording a point
-- ---------------------------------------------------------------------------

/-- Recording a point gives back its representative. -/
theorem find_fst (u : UnionFind) (p : Point) : (u.find p).1 = u.representative p := by
  unfold find
  split
  · rfl
  · rename_i hFresh
    rw [representative_of_not_contains (by simpa using hFresh)]

/-- The parents after `p` was recorded: an unrecorded point becomes its own. -/
theorem getElem?_find (u : UnionFind) (p q : Point) :
    (u.find p).2.parents[q]? =
      if q = p ∧ u.contains p = false then some p else u.parents[q]? := by
  unfold find
  by_cases hp : u.contains p = true
  · simp [hp]
  · simp only [Bool.not_eq_true] at hp
    simp [hp, PointMap.getElem?_insert]

/-- Recording a point leaves every climb as it was. -/
theorem climbs_find {p : Point} {n : Nat} {q r : Point} (h : Climbs u.parents n q r) :
    Climbs (u.find p).2.parents n q r := by
  induction h with
  | root hRoot =>
    refine .root fun q' hq' => ?_
    rw [getElem?_find] at hq'
    split at hq'
    · simp_all
    · exact hRoot q' hq'
  | @up n q q' r hParent hNe _ ih =>
    refine .up ?_ hNe ih
    rw [getElem?_find, if_neg ?_, hParent]
    rintro ⟨rfl, hFresh⟩
    simp [contains_eq_isSome, hParent] at hFresh

/-- The points that are recorded afterwards. -/
theorem contains_find (u : UnionFind) (p q : Point) :
    (u.find p).2.contains q = (decide (q = p) || u.contains q) := by
  simp only [contains_eq_isSome, getElem?_find]
  by_cases hq : q = p
  · subst hq
    cases h : u.parents[q]? <;> simp
  · simp [hq]

theorem isForest_find (h : u.IsForest) (p : Point) : (u.find p).2.IsForest where
  ends q := by
    obtain ⟨n, r, hClimb⟩ := h.ends q
    exact ⟨n, r, climbs_find hClimb⟩
  closed q r hParent := by
    rw [contains_find]
    rw [getElem?_find] at hParent
    split at hParent
    · simp_all
    · simp [h.closed q r hParent]

/-- **Recording a point changes no representative.** -/
theorem representative_find (h : u.IsForest) (p q : Point) :
    (u.find p).2.representative q = u.representative q := by
  obtain ⟨n, hClimb⟩ := h.climbs q
  exact representative_eq (climbs_find hClimb)

-- ---------------------------------------------------------------------------
-- Merging two sets
-- ---------------------------------------------------------------------------

/-- The table after `a` was made the representative of two sets whose roots
were `rootA` and `rootB`. -/
def reroot (u : UnionFind) (a rootA rootB : Point) : UnionFind :=
  ⟨((u.parents.insert rootA a).insert rootB a).insert a a⟩

/-- Three points get the parent `a`, all others keep theirs. -/
theorem getElem?_reroot (u : UnionFind) (a rootA rootB p : Point) :
    (u.reroot a rootA rootB).parents[p]? =
      if p = a ∨ p = rootA ∨ p = rootB then some a else u.parents[p]? := by
  simp only [reroot, PointMap.getElem?_insert]
  by_cases hA : p = a
  · simp [hA]
  · by_cases hRootB : p = rootB <;> by_cases hRootA : p = rootA <;> simp [*]

/-- A climb from `p` to `r` becomes one to `a` if `r` was one of the two roots,
and stays as it is otherwise. -/
theorem exists_climbs_reroot {a rootA rootB : Point} {k : Nat}
    (hA : Climbs u.parents k a rootA) (hB : ∀ q, u.parents[rootB]? = some q → q = rootB)
    {n : Nat} {p r : Point} (h : Climbs u.parents n p r) :
    ∃ m, Climbs (u.reroot a rootA rootB).parents m p
      (if r = rootA ∨ r = rootB then a else r) := by
  have hTop : Climbs (u.reroot a rootA rootB).parents 0 a a := by
    refine .root fun q hq => ?_
    rw [getElem?_reroot, if_pos (.inl rfl)] at hq
    exact (Option.some.inj hq).symm
  induction h with
  | @root p hRoot =>
    by_cases hMerged : p = rootA ∨ p = rootB
    · rw [if_pos hMerged]
      by_cases hTopmost : p = a
      · exact ⟨0, hTopmost ▸ hTop⟩
      · refine ⟨1, .up ?_ (fun h => hTopmost h.symm) hTop⟩
        rw [getElem?_reroot, if_pos (.inr hMerged)]
    · rw [if_neg hMerged]
      refine ⟨0, .root fun q hq => ?_⟩
      rw [getElem?_reroot] at hq
      split at hq
      · -- a root other than `rootA` is not `a`, which climbs to `rootA`
        rename_i hCases
        rcases hCases with rfl | hCases
        · have hSelf := ((Climbs.root hRoot).unique hA).2
          exact absurd (.inl hSelf) hMerged
        · exact absurd hCases hMerged
      · exact hRoot q hq
  | @up n p q r hParent hNe hRest ih =>
    by_cases hTopmost : p = a
    · -- the climb from `a` on is cut off: its root was `rootA`
      subst hTopmost
      have hEnd := ((Climbs.up hParent hNe hRest).unique hA).2
      rw [if_pos (.inl hEnd)]
      exact ⟨0, hTop⟩
    · obtain ⟨m, hClimb⟩ := ih
      refine ⟨m + 1, .up ?_ hNe hClimb⟩
      rw [getElem?_reroot, if_neg ?_, hParent]
      rintro (h | rfl | rfl)
      · exact hTopmost h
      · exact hNe (hA.root_of_end _ hParent)
      · exact hNe (hB _ hParent)

/-- Merging is recording both points and making `a` the root. -/
theorem union_eq (u : UnionFind) (a b : Point) :
    u.union a b = ((u.representative a, (u.find a).2.representative b),
      ((u.find a).2.find b).2.reroot a (u.representative a) ((u.find a).2.representative b)) := by
  rw [← find_fst, ← find_fst]
  rfl

/-- Merging gives back the representatives that the two sets had. -/
theorem union_fst (h : u.IsForest) (a b : Point) :
    (u.union a b).1 = (u.representative a, u.representative b) := by
  rw [union_eq, representative_find h]

/-- Where one climbs to after a merge. -/
theorem exists_climbs_union (h : u.IsForest) (a b p : Point) :
    ∃ n, Climbs (u.union a b).2.parents n p
      (if u.representative p = u.representative a ∨ u.representative p = u.representative b
        then a else u.representative p) := by
  have hFind : (u.find a).2.IsForest := isForest_find h a
  obtain ⟨k, hA⟩ := h.climbs a
  obtain ⟨m, hB⟩ := h.climbs b
  obtain ⟨n, hP⟩ := h.climbs p
  rw [union_eq, representative_find h]
  exact exists_climbs_reroot (climbs_find (climbs_find hA))
    (climbs_find (climbs_find hB)).root_of_end (climbs_find (climbs_find hP))

/-- **Merging.** Every point of the two sets is now represented by `a`, and no
other point changes its representative. -/
theorem representative_union (h : u.IsForest) (a b p : Point) :
    (u.union a b).2.representative p =
      if u.representative p = u.representative a ∨ u.representative p = u.representative b
        then a else u.representative p := by
  obtain ⟨n, hClimb⟩ := exists_climbs_union h a b p
  exact representative_eq hClimb

/-- Merging records its two points and no others. -/
theorem contains_union (h : u.IsForest) (a b p : Point) :
    (u.union a b).2.contains p = (decide (p = a) || decide (p = b) || u.contains p) := by
  have hOld : ∀ q, ((u.find a).2.find b).2.contains q =
      (decide (q = b) || (decide (q = a) || u.contains q)) := by
    intro q
    rw [contains_find, contains_find]
  -- the roots of the two sets are recorded before they get a new parent
  have hRoots : ∀ q, q = u.representative a ∨ q = u.representative b →
      ((u.find a).2.find b).2.contains q = true := by
    have hForest := isForest_find (isForest_find h a) b
    have hRep : ∀ q, ((u.find a).2.find b).2.representative q = u.representative q := by
      intro q
      rw [representative_find (isForest_find h a), representative_find h]
    rintro q (rfl | rfl)
    · rw [← hRep]
      exact contains_representative hForest (by rw [hOld]; simp)
    · rw [← hRep]
      exact contains_representative hForest (by rw [hOld]; simp)
  rw [union_eq, representative_find h, contains_eq_isSome, getElem?_reroot]
  split
  · rename_i hCases
    rcases hCases with rfl | hCases
    · simp
    · have hMem := hRoots p hCases
      rw [hOld] at hMem
      simp only [Bool.or_eq_true, decide_eq_true_eq] at hMem
      rcases hMem with rfl | rfl | hMem
      · simp
      · simp
      · simp [hMem]
  · rw [← contains_eq_isSome, hOld]
    cases decide (p = a) <;> cases decide (p = b) <;> simp

/-- A merge leaves a forest. -/
theorem isForest_union (h : u.IsForest) (a b : Point) : (u.union a b).2.IsForest where
  ends p := by
    obtain ⟨n, hClimb⟩ := exists_climbs_union h a b p
    exact ⟨n, _, hClimb⟩
  closed p q hParent := by
    rw [contains_union h]
    rw [union_eq, getElem?_reroot] at hParent
    split at hParent
    · obtain rfl := Option.some.inj hParent
      simp
    · have hOld := (isForest_find (isForest_find h a) b).closed p q hParent
      rw [contains_find, contains_find] at hOld
      revert hOld
      cases decide (q = a) <;> cases decide (q = b) <;> simp

end TraitInference.UnionFind
