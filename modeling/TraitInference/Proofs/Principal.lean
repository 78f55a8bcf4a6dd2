import Mathlib.Algebra.Group.End
import Mathlib.Logic.Equiv.Fintype
import TraitInference.Proofs.NormalForm
import TraitInference.Proofs.Termination

/-!
# TraitInference — solutions determine normal forms

Two states may keep quite different classes, representatives and types and yet
have the same solutions. Then they have the same normal forms, up to the choice of
the points that stand for unknown types.

* `Ty.same_of_forall_value_eq` — types that have one tree under every assignment
  are the same: the trees can be chosen so that each tells the point it stands for.
* `eval_normal_eq` — hence types that give only solutions are instances of the normal
  forms.
* `normal_eq_of_solves_iff` — settled states with the same solutions have the same
  normal forms, up to one permutation of the points.
-/

namespace TraitInference

theorem Point.index_injective : Function.Injective Point.index := by
  rintro ⟨i⟩ ⟨j⟩ hEq
  exact congrArg Point.mk hEq

-- ---------------------------------------------------------------------------
-- Trees tell types apart
-- ---------------------------------------------------------------------------

/-- A tree for each point, with more children than `n` and as many more as the
point's number. -/
def Assignment.marking (n : Nat) : Assignment :=
  fun p => .node .block (List.replicate (n + p.index) (.node .block []))

namespace Ty

theorem length_le_sizeOf (ts : List Ty) : ts.length ≤ sizeOf ts := by
  induction ts with
  | nil => exact Nat.zero_le _
  | cons t ts ih =>
    rw [List.length_cons, List.cons.sizeOf_spec]
    omega

/-- No constructed type that is small enough has the tree of a point. -/
theorem value_con_ne_marking {n : Nat} {tag : Tag} {children : List Ty} {emit : Option String}
    (hSize : sizeOf (con tag children emit) ≤ n) (p : Point) :
    (con tag children emit).value (.marking n) ≠ Assignment.marking n p := by
  intro hEq
  simp only [value, eval, Assignment.marking, Tree.node.injEq] at hEq
  -- the tree of a point has more children than the type is large
  have hLength := congrArg List.length hEq.2
  rw [evalAll_eq, List.length_map, List.length_replicate] at hLength
  have hSmall := length_le_sizeOf children
  rw [con.sizeOf_spec] at hSize
  omega

mutual

/-- Under an assignment that marks points, types with one tree are the same, by comparing them
from the top. -/
theorem same_of_marking {n : Nat} : ∀ t t' : Ty, sizeOf t ≤ n → sizeOf t' ≤ n →
    t.value (.marking n) = t'.value (.marking n) → t.same t' = true
  | .point p, .point q, _, _, hEq => by
    have hTree : Assignment.marking n p = Assignment.marking n q := hEq
    simp only [Assignment.marking, Tree.node.injEq, true_and] at hTree
    have hLength := congrArg List.length hTree
    rw [List.length_replicate, List.length_replicate, Nat.add_left_cancel_iff] at hLength
    simp [same, Point.index_injective hLength]
  | .point p, .con .., _, hSize, hEq => absurd hEq.symm (value_con_ne_marking hSize p)
  | .con .., .point q, hSize, _, hEq => absurd hEq (value_con_ne_marking hSize q)
  | .con tag children emit, .con tag' children' emit', hSize, hSize', hEq => by
    rw [con.sizeOf_spec] at hSize hSize'
    simp only [value, eval, Tree.node.injEq] at hEq
    simp [same, hEq.1, sameAll_of_marking children children' (by omega) (by omega) hEq.2]

theorem sameAll_of_marking {n : Nat} : ∀ ts ts' : List Ty, sizeOf ts ≤ n → sizeOf ts' ≤ n →
    evalAll Tree.node (Assignment.marking n) ts = evalAll Tree.node (Assignment.marking n) ts' →
    sameAll ts ts' = true
  | [], [], _, _, _ => rfl
  | [], _ :: _, _, _, hEq => by simp [evalAll] at hEq
  | _ :: _, [], _, _, hEq => by simp [evalAll] at hEq
  | t :: ts, t' :: ts', hSize, hSize', hEq => by
    rw [List.cons.sizeOf_spec] at hSize hSize'
    simp only [evalAll, List.cons.injEq] at hEq
    simp [sameAll, same_of_marking t t' (by omega) (by omega) hEq.1,
      sameAll_of_marking ts ts' (by omega) (by omega) hEq.2]

end

/-- **Types that have one tree under every assignment are the same.** -/
theorem same_of_forall_value_eq {t t' : Ty} (h : ∀ σ, t.value σ = t'.value σ) :
    t.same t' = true :=
  same_of_marking t t' (Nat.le_add_right ..) (Nat.le_add_left ..)
    (h (.marking (sizeOf t + sizeOf t')))

-- ---------------------------------------------------------------------------
-- Types as values
-- ---------------------------------------------------------------------------

variable {A : Type} {node : Tag → List A → A} {σ : Point → A} {f g : Point → Ty}

mutual

/-- To evaluate in types and then in values is to evaluate in the values of those types. -/
theorem eval_eval_plain : ∀ t : Ty,
    (t.eval plain f).eval node σ = t.eval node fun p => (f p).eval node σ
  | .point p => rfl
  | .con tag children _ => by rw [eval, plain, eval, eval, evalAll_evalAll_plain children]

theorem evalAll_evalAll_plain : ∀ ts : List Ty,
    evalAll node σ (evalAll plain f ts) = evalAll node (fun p => (f p).eval node σ) ts
  | [] => rfl
  | t :: ts => by rw [evalAll, evalAll, evalAll, eval_eval_plain t, evalAll_evalAll_plain ts]

end

mutual

/-- A type whose points are replaced in two ways with the same result had them
replaced by the same. -/
theorem eq_of_eval_plain_eq : ∀ t : Ty, t.eval plain f = t.eval plain g →
    ∀ p ∈ t.points, f p = g p
  | .point q, hEq, p, hp => by
    rw [points, List.mem_singleton] at hp
    exact hp ▸ hEq
  | .con _ children _, hEq, p, hp => by
    simp only [eval, plain, con.injEq, true_and, and_true] at hEq
    exact eq_of_evalAll_plain_eq children hEq p hp

theorem eq_of_evalAll_plain_eq : ∀ ts : List Ty, evalAll plain f ts = evalAll plain g ts →
    ∀ p ∈ pointsOfAll ts, f p = g p
  | [], _, p, hp => by simp [pointsOfAll] at hp
  | t :: ts, hEq, p, hp => by
    simp only [evalAll, List.cons.injEq] at hEq
    rw [pointsOfAll, List.mem_append] at hp
    rcases hp with hp | hp
    · exact eq_of_eval_plain_eq t hEq.1 p hp
    · exact eq_of_evalAll_plain_eq ts hEq.2 p hp

end

/-- A type without templates is its own value. -/
theorem erase_erase (t : Ty) : t.erase.erase = t.erase := by
  rw [erase_eq_eval t.erase, eval_erase, ← erase_eq_eval]

/-- What is put together from types without templates has none. -/
theorem erase_eval_plain (hf : ∀ p, (f p).erase = f p) (t : Ty) :
    (t.eval plain f).erase = t.eval plain f := by
  rw [erase_eq_eval, eval_eval_plain]
  refine eval_congr t fun p _ => ?_
  rw [← erase_eq_eval, hf]

end Ty

-- ---------------------------------------------------------------------------
-- Partial renamings
-- ---------------------------------------------------------------------------

/-- On a finite set an injective part extends to a permutation. -/
theorem exists_perm_of_injective {α : Type} [Finite α] {s : Set α} {f : s → α}
    (hf : Function.Injective f) : ∃ ρ : Equiv.Perm α, ∀ a : s, ρ a = f a := by
  classical
  exact ⟨(Equiv.ofInjective f hf).extendSubtype, fun a =>
    Equiv.extendSubtype_apply_of_mem (Equiv.ofInjective f hf) a.1 a.2⟩

/-- A map that is one-to-one where it matters, and changes nothing from some number
on, is part of a permutation. -/
theorem exists_perm_of_injOn {n : Nat} {s : Set Point} {f : Point → Point} (hInj : s.InjOn f)
    (hHigh : ∀ p, n ≤ p.index → p ∈ s ∧ f p = p) :
    ∃ ρ : Equiv.Perm Point, ∀ p ∈ s, ρ p = f p := by
  have hFinite : Finite { p : Point // p.index < n } :=
    Finite.of_injective (fun p => (⟨p.1.index, p.2⟩ : Fin n)) fun p q hEq =>
      Subtype.ext (Point.index_injective (congrArg Fin.val hEq))
  -- a low point is not sent up: what is up there is taken
  have hLow : ∀ p ∈ s, p.index < n → (f p).index < n := by
    intro p hp hIndex
    by_contra hUp
    obtain ⟨hMem, hFixed⟩ := hHigh (f p) (by omega)
    rw [hInj hMem hp hFixed] at hUp
    exact hUp hIndex
  obtain ⟨ρ, hρ⟩ := exists_perm_of_injective (s := { p : { p : Point // p.index < n } | p.1 ∈ s })
    (f := fun p => ⟨f p.1.1, hLow p.1.1 p.2 p.1.2⟩) fun p q hEq =>
      Subtype.ext (Subtype.ext (hInj p.2 q.2 (congrArg Subtype.val hEq)))
  refine ⟨Equiv.Perm.ofSubtype ρ, fun p hp => ?_⟩
  by_cases hIndex : p.index < n
  · rw [Equiv.Perm.ofSubtype_apply_of_mem ρ hIndex, hρ ⟨⟨p, hIndex⟩, hp⟩]
  · rw [Equiv.Perm.ofSubtype_apply_of_not_mem ρ hIndex, (hHigh p (by omega)).2]

/-- What is measured of finitely many things is bounded. -/
theorem exists_forall_mem_lt {α : Type} (measure : α → Nat) (l : List α) :
    ∃ n, ∀ a ∈ l, measure a < n := by
  induction l with
  | nil => exact ⟨0, by simp⟩
  | cons a l ih =>
    obtain ⟨n, hn⟩ := ih
    refine ⟨max n (measure a + 1), List.forall_mem_cons.mpr ⟨by omega, fun b hb => ?_⟩⟩
    have hLess := hn b hb
    omega

namespace Unification

variable {u u' : Unification} {f : Point → Ty}

-- ---------------------------------------------------------------------------
-- Settled states
-- ---------------------------------------------------------------------------

/-- No class contains itself and none has two types, so that every class has one
normal form. -/
structure Settled (u : Unification) : Prop where
  wellFormed : u.WellFormed
  acyclic    : u.Acyclic
  single     : u.Single

/-- The normal forms of a settled state solve it. -/
theorem Settled.models_normal (h : u.Settled) : Models Ty.plain u.normal u :=
  Unification.models_normal h.wellFormed h.acyclic h.single

/-- A solution in types gives one in values of any kind. -/
theorem Models.eval_plain {A : Type} (h : Models Ty.plain f u) (node : Tag → List A → A)
    (σ : Point → A) : Models node (fun p => (f p).eval node σ) u where
  representative p := congrArg (Ty.eval node σ) (h.representative p)
  types p t ht := by
    rw [h.types p t ht]
    exact Ty.eval_eval_plain t

/-- Normal forms have no templates. -/
theorem erase_normal (u : Unification) (p : Point) : (u.normal p).erase = u.normal p :=
  Ty.erase_erase _

/-- **Types that give only solutions are instances of the normal forms.** -/
theorem eval_normal_eq (hPlain : ∀ p, (f p).erase = f p)
    (h : ∀ σ : Assignment, Solves (fun p => (f p).value σ) u) (p : Point) :
    (u.normal p).eval Ty.plain f = f p := by
  -- the two have one tree whatever the points stand for, so they are the same
  have hSame : ((u.apply (.point p)).eval Ty.plain f).same (f p) = true := by
    refine Ty.same_of_forall_value_eq fun σ => ?_
    rw [Ty.value, Ty.eval_eval_plain]
    exact eval_apply (h σ) (.point p)
  rw [Ty.same_iff, Ty.erase_eval_plain hPlain, hPlain] at hSame
  rw [normal, Ty.eval_erase]
  exact hSame

/-- The normal forms of a state that says more are instances of those of one that
says less. -/
theorem eval_normal_normal (h' : u'.Settled) (hMore : ∀ σ, Solves σ u' → Solves σ u) (p : Point) :
    (u.normal p).eval Ty.plain u'.normal = u'.normal p :=
  eval_normal_eq (erase_normal u') (fun σ => hMore _ (h'.models_normal.eval_plain _ σ)) p

/-- The point stands for an unknown type. -/
def IsFree (u : Unification) (p : Point) : Prop :=
  u.normal p = .point p

/-- All that is left in a normal form are points that stand for unknown types. -/
theorem Settled.isFree (h : u.Settled) {p q : Point} (hq : q ∈ (u.normal p).points) :
    u.IsFree q := by
  refine Ty.eq_of_eval_plain_eq (u.normal p) (g := .point) ?_ q hq
  rw [eval_normal_normal h (fun _ => id), ← Ty.erase_eq_eval, erase_normal]

/-- Points that were never recorded stand for unknown types, and there are no others
from some number on. -/
theorem exists_isFree_of_le (h : u.WellFormed) : ∃ n, ∀ p : Point, n ≤ p.index → u.IsFree p := by
  obtain ⟨n, hn⟩ := exists_forall_mem_lt Point.index u.classes.parents.keys
  refine ⟨n, fun p hp => ?_⟩
  -- finitely many points are recorded
  have hNew : u.classes.contains p = false := by
    rw [← Bool.not_eq_true]
    intro hRecorded
    have hKey : p ∈ u.classes.parents.keys :=
      Std.ExtTreeMap.mem_keys.mpr (Std.ExtTreeMap.contains_iff_mem.mp hRecorded)
    have hLess := hn p hKey
    omega
  have hRoot : u.representative p = p := UnionFind.representative_of_not_contains hNew
  have hOpen : u.typesAt (u.representative p) = [] := by
    rw [hRoot, typesAt]
    cases hTypes : u.types[p]? with
    | none => rfl
    | some ts =>
      rw [h.recorded p ts hTypes] at hNew
      cases hNew
  show (u.expand _ [] p).erase = .point p
  rw [expand_open hOpen, hRoot]
  rfl

-- ---------------------------------------------------------------------------
-- States with the same solutions
-- ---------------------------------------------------------------------------

/-- What stands for an unknown type in one state does so, by another point, in a
state with the same solutions. -/
theorem exists_normal_eq_point (h : u.Settled) (hMore : ∀ σ, Solves σ u → Solves σ u')
    {q : Point} (hq : u.IsFree q) : ∃ q', u'.normal q = .point q' ∧ u.normal q' = .point q := by
  have hBack := eval_normal_normal h hMore q
  rw [hq] at hBack
  cases hForm : u'.normal q with
  | con tag children emit =>
    rw [hForm] at hBack
    cases hBack
  | point q' =>
    rw [hForm] at hBack
    exact ⟨q', rfl, hBack⟩

/-- **Settled states with the same solutions have the same normal forms**, up to one
permutation of the points. -/
theorem normal_eq_of_solves_iff (h : u.Settled) (h' : u'.Settled)
    (hSame : ∀ σ, Solves σ u ↔ Solves σ u') :
    ∃ ρ : Equiv.Perm Point, ∀ p,
      u'.normal p = (u.normal p).eval Ty.plain fun q => .point (ρ q) := by
  have hPoint := fun q (hq : u.IsFree q) => exists_normal_eq_point h (fun σ => (hSame σ).mp) hq
  -- each unknown of the one state is an unknown of the other, and back
  choose! f hNormal hBack using hPoint
  obtain ⟨n, hFree⟩ := exists_isFree_of_le h.wellFormed
  obtain ⟨n', hFree'⟩ := exists_isFree_of_le h'.wellFormed
  have hInj : Set.InjOn f { q | u.IsFree q } := by
    intro q hq r hr hEq
    have hBoth : Ty.point q = .point r := by rw [← hBack q hq, ← hBack r hr, hEq]
    exact Ty.point.inj hBoth
  have hHigh : ∀ p : Point, max n n' ≤ p.index → p ∈ { q | u.IsFree q } ∧ f p = p := by
    intro p hp
    have hp' := hFree p (by omega)
    refine ⟨hp', Ty.point.inj ?_⟩
    rw [← hNormal p hp']
    exact hFree' p (by omega)
  obtain ⟨ρ, hρ⟩ := exists_perm_of_injOn hInj hHigh
  refine ⟨ρ, fun p => ?_⟩
  rw [← eval_normal_normal h' (fun σ => (hSame σ).mpr) p]
  refine Ty.eval_congr (u.normal p) fun q hq => ?_
  have hFreeQ := h.isFree hq
  rw [hρ q hFreeQ, hNormal q hFreeQ]

end Unification

end TraitInference
