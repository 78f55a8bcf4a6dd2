import Mathlib.Data.List.Induction
import Mathlib.Logic.Function.Basic
import TraitInference.Proofs.Grouping
import TraitInference.Proofs.NormalForm

/-!
# TraitInference — unfolding classes without end

A class may contain itself, so it need not have a value among the finite trees. Among
infinite ones it always has: unfold the first type of each class, for ever. The values
found in this way solve the state as soon as the types of each class have one normal
form, that is, as soon as no group is in conflict
(`Unification.models_unfolded_of_no_conflict`).

* `Unfolded` — trees of any depth, given by what stands at the end of each path. Like
  finite trees, they differ when their tags or their children do.
* `Unification.unfolded` — the tree of a point.
-/

namespace TraitInference

-- ---------------------------------------------------------------------------
-- Trees of any depth
-- ---------------------------------------------------------------------------

/-- A tree over tags: at the end of a path there is a tag with a number of children, or
nothing. -/
abbrev Unfolded := List Nat → Option (Tag × Nat)

/-- A tag applied to children. -/
def Unfolded.node (tag : Tag) (children : List Unfolded) : Unfolded
  | [] => some (tag, children.length)
  | i :: path => children[i]?.bind fun child => child path

/-- The empty path tells the tag, the others tell the children. -/
theorem Unfolded.node_injective : Function.Injective2 Unfolded.node := by
  intro tag tag' children children' h
  have hTop := congrFun h []
  simp only [node, Option.some.injEq, Prod.mk.injEq] at hTop
  refine ⟨hTop.1, List.ext_getElem hTop.2 fun i hi hi' => funext fun path => ?_⟩
  have hBelow := congrFun h (i :: path)
  simpa only [node, List.getElem?_eq_getElem hi, List.getElem?_eq_getElem hi',
    Option.bind_some] using hBelow

namespace Unification

variable {u : Unification}

/-- The tag and the children that a type is known to have. -/
def parts (u : Unification) : Ty → Option (Tag × List Ty)
  | .con tag children _ => some (tag, children)
  | .point p =>
    match (u.typesOf p).head? with
    | some (.con tag children _) => some (tag, children)
    | _ => none

/-- What stands at the end of a path into a type, when every point is unfolded to the
first type of its class. -/
def unfoldAt (u : Unification) : List Nat → Ty → Option (Tag × Nat)
  | [], t => (u.parts t).map fun parts => (parts.1, parts.2.length)
  | i :: path, t => (u.parts t).bind fun parts => parts.2[i]?.bind (u.unfoldAt path)

/-- The tree that a point unfolds to. -/
def unfolded (u : Unification) (p : Point) : Unfolded :=
  fun path => u.unfoldAt path (.point p)

/-- What stands below a type depends on its parts only. -/
theorem unfoldAt_congr {t t' : Ty} (h : u.parts t = u.parts t') (path : List Nat) :
    u.unfoldAt path t = u.unfoldAt path t' := by
  cases path <;> simp only [unfoldAt, h]

/-- The value of a type is its own unfolding. -/
theorem eval_unfolded (u : Unification) (t : Ty) (path : List Nat) :
    t.eval Unfolded.node u.unfolded path = u.unfoldAt path t := by
  -- the children of a value are the values of the children
  have hAll : ∀ ts : List Ty, Ty.evalAll Unfolded.node u.unfolded ts =
      ts.map (Ty.eval Unfolded.node u.unfolded) := by
    intro ts
    induction ts with
    | nil => rfl
    | cons t ts ih => rw [Ty.evalAll, ih, List.map_cons]
  induction path generalizing t with
  | nil =>
    cases t with
    | point p => rfl
    | con tag children emit => simp [Ty.eval, hAll, Unfolded.node, unfoldAt, parts]
  | cons i path ih =>
    cases t with
    | point p => rfl
    | con tag children emit =>
      rw [Ty.eval, hAll, Unfolded.node, List.getElem?_map]
      cases hChild : children[i]? with
      | none => simp [unfoldAt, parts, hChild]
      | some child => simpa [unfoldAt, parts, hChild] using ih child

-- ---------------------------------------------------------------------------
-- The unfolded classes solve the state
-- ---------------------------------------------------------------------------

/-- Unfolded classes make true what a state says about first types, cycles or not. -/
theorem modelsFirst_unfolded (h : u.WellFormed) :
    ModelsFirst Unfolded.node u.unfolded u where
  representative p := by
    funext path
    refine unfoldAt_congr ?_ path
    simp only [parts, typesOf, representative_representative h.forest]
  first p t hHead := by
    obtain ⟨tag, children, emit, rfl⟩ := h.exists_con (List.mem_of_head? hHead)
    funext path
    rw [eval_unfolded]
    refine unfoldAt_congr ?_ path
    simp only [parts, hHead]

end Unification

-- ---------------------------------------------------------------------------
-- Groups without a conflict
-- ---------------------------------------------------------------------------

namespace Ty

/-- One type more is kept unless one like it is there. -/
theorem distinct_append (ts : List Ty) (t : Ty) : distinct (ts ++ [t]) =
    if (distinct ts).any (·.same t) then distinct ts else distinct ts ++ [t] := by
  simp [distinct]

theorem length_distinct_le (ts : List Ty) : (distinct ts).length ≤ ts.length := by
  induction ts using List.reverseRecOn with
  | nil => exact Nat.le_refl 0
  | append_singleton ts t ih =>
    rw [distinct_append]
    split <;> simp only [List.length_append, List.length_singleton] <;> omega

theorem mem_of_mem_distinct {ts : List Ty} {t : Ty} (h : t ∈ distinct ts) : t ∈ ts := by
  induction ts using List.reverseRecOn with
  | nil => exact h
  | append_singleton ts last ih =>
    rw [distinct_append] at h
    split at h
    · exact List.mem_append_left _ (ih h)
    · rcases List.mem_append.mp h with hOld | hLast
      · exact List.mem_append_left _ (ih hOld)
      · exact List.mem_append_right _ hLast

/-- Each type has one like it among those that are kept. -/
theorem exists_mem_distinct {ts : List Ty} {t : Ty} (ht : t ∈ ts) :
    ∃ t' ∈ distinct ts, t'.same t = true := by
  induction ts using List.reverseRecOn with
  | nil => cases ht
  | append_singleton ts last ih =>
    rw [distinct_append]
    rcases List.mem_append.mp ht with hOld | hLast
    · obtain ⟨t', ht', hSame⟩ := ih hOld
      refine ⟨t', ?_, hSame⟩
      split
      · exact ht'
      · exact List.mem_append_left _ ht'
    · obtain rfl := List.mem_singleton.mp hLast
      split
      · rename_i hAny
        exact List.any_eq_true.mp hAny
      · exact ⟨t, List.mem_append_right _ hLast, same_refl t⟩

/-- Types that are all kept as one are the same. -/
theorem same_of_length_distinct_le {ts : List Ty} (h : (distinct ts).length ≤ 1) {t t' : Ty}
    (ht : t ∈ ts) (ht' : t' ∈ ts) : t.same t' = true := by
  obtain ⟨v, hv, hSame⟩ := exists_mem_distinct ht
  obtain ⟨v', hv', hSame'⟩ := exists_mem_distinct ht'
  obtain ⟨kept, hKept⟩ := List.length_eq_one_iff.mp (le_antisymm h (List.length_pos_of_mem hv))
  rw [hKept, List.mem_singleton] at hv hv'
  subst hv hv'
  exact same_trans (same_symm hSame) hSame'

end Ty

namespace Unification

variable {u : Unification} {a : Arena} {f : Finished}

/-- Unless a group is in conflict, the types of each class agree. -/
theorem agreeing_of_no_conflict (h : u.WellFormed) (hFinish : u.finish a = .ok f)
    (hNone : ∀ g ∈ f.groups, g.isConflicting = false) : u.Agreeing := by
  intro r t ht t' ht'
  obtain ⟨ts, hTypes, -⟩ := mem_typesAt.mp ht
  -- a class with types has a point, so it has a group
  have hClass : u.classOf r ≠ [] :=
    List.ne_nil_of_mem (mem_classOf.mpr ⟨h.recorded r ts hTypes, h.root r ts hTypes⟩)
  obtain ⟨g, hg, hGroup⟩ := exists_group_of_typed hFinish hClass (List.ne_nil_of_mem ht)
  have hLength : g.types.length ≤ 1 := by simpa [Group.isConflicting] using hNone g hg
  rw [hGroup] at hLength
  exact Ty.same_of_length_distinct_le hLength (List.mem_map_of_mem ht) (List.mem_map_of_mem ht')

/-- **A state without a group in conflict has a solution** in trees of any depth. -/
theorem models_unfolded_of_no_conflict (h : u.WellFormed) (hFinish : u.finish a = .ok f)
    (hNone : ∀ g ∈ f.groups, g.isConflicting = false) :
    Models Unfolded.node u.unfolded u :=
  (modelsFirst_unfolded h).models (agreeing_of_no_conflict h hFinish hNone)

/-- A group is in conflict only if its class has several types. -/
theorem not_isConflicting_of_single (hSingle : u.Single) (hFinish : u.finish a = .ok f)
    {g : Group} (hg : g ∈ f.groups) : g.isConflicting = false := by
  have hLength : g.types.length ≤ 1 := by
    rcases exists_class_of_group hFinish hg with hNil | ⟨r, hTypes⟩
    · rw [hNil]
      exact Nat.zero_le 1
    · rw [hTypes]
      calc _ ≤ ((u.typesAt r).map u.apply).length := Ty.length_distinct_le _
        _ = (u.typesAt r).length := List.length_map _
        _ ≤ 1 := hSingle r
  simpa [Group.isConflicting] using hLength

end Unification

end TraitInference
