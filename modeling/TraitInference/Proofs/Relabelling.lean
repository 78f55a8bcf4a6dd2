import Mathlib.Data.Set.Function
import Mathlib.SetTheory.Cardinal.Arithmetic
import TraitInference.Proofs.Ascriptions
import TraitInference.Proofs.Counterparts

/-!
# TraitInference — ascriptions with their parameters opened

A parameter is a constant while its definition is solved. At a call site it becomes
a point and may turn out to be anything. Opening parameters adds solutions, but the
most general one stays what it was: if parameters and points are replaced by points,
no two of them by the same, the normal forms of the copies are the copies of the
normal forms (`Unification.Expresses.exists_relabel_normal`).

The two states are compared through their solutions in types. A solution of the
ascriptions gives one of the copies in which every opened parameter is that parameter;
and a solution of the copies gives one of the ascriptions as soon as the points that
stand for opened parameters are put back. Each of the two normal forms is therefore an
instance of the other, and what is left to do is to see that the instances only rename.
-/

namespace TraitInference

-- ---------------------------------------------------------------------------
-- Parameters and points as points
-- ---------------------------------------------------------------------------

namespace Ty

variable {A : Type} {node node' : Tag → List A → A} {τ : Point → A}
  {S : Set (Parameter ⊕ Point)} {m f : Parameter ⊕ Point → Point} {g : Point → Ty}

/-- A parameter or a point as a type. -/
def atom : Parameter ⊕ Point → Ty
  | .inl k => .con (.parameter k) [] none
  | .inr p => .point p

/-- Puts points in the place of parameters and points. -/
def relabel (m : Parameter ⊕ Point → Point) : Ty → Ty :=
  image (fun p => m (.inr p)) fun k => .point (m (.inl k))

theorem relabel_atom (m : Parameter ⊕ Point → Point) (x : Parameter ⊕ Point) :
    (atom x).relabel m = .point (m x) := by
  cases x with
  | inl k => rfl
  | inr p => rfl

mutual

/-- The parameters and points of the type are among those in `S`, and its parameters
have no children. -/
def Within (S : Set (Parameter ⊕ Point)) : Ty → Prop
  | .point p => .inr p ∈ S
  | .con (.parameter k) children _ => .inl k ∈ S ∧ children = []
  | .con _ children _ => AllWithin S children

/-- The same of a row of types. -/
def AllWithin (S : Set (Parameter ⊕ Point)) : List Ty → Prop
  | [] => True
  | t :: ts => t.Within S ∧ AllWithin S ts

end

mutual

/-- The points of the type are in `S`. -/
theorem Within.mem : ∀ {t : Ty}, t.Within S → ∀ p ∈ t.points, .inr p ∈ S
  | .point q, h, p, hp => by
    rw [points, List.mem_singleton] at hp
    exact hp ▸ h
  | .con tag children _, h, p, hp => by
    cases tag with
    | parameter k =>
      obtain ⟨-, rfl⟩ := h
      exact absurd hp List.not_mem_nil
    | _ => exact AllWithin.mem h p hp

theorem AllWithin.mem : ∀ {ts : List Ty}, AllWithin S ts → ∀ p ∈ pointsOfAll ts, .inr p ∈ S
  | [], _, p, hp => absurd hp List.not_mem_nil
  | t :: ts, h, p, hp => by
    rw [pointsOfAll, List.mem_append] at hp
    rcases hp with hp | hp
    · exact h.1.mem p hp
    · exact AllWithin.mem h.2 p hp

end

mutual

/-- Where the points that stand for parameters have the value of those parameters, the
copy of a type has the value of the type. -/
theorem eval_relabel (hτ : ∀ k, .inl k ∈ S → τ (m (.inl k)) = node (.parameter k) []) :
    ∀ {t : Ty}, t.Within S → (t.relabel m).eval node τ = t.eval node fun p => τ (m (.inr p))
  | .point p, _ => rfl
  | .con tag children emit, h => by
    cases tag with
    | parameter k =>
      obtain ⟨hk, rfl⟩ := h
      exact hτ k hk
    | _ => exact congrArg (node _) (evalAll_relabel hτ h)

theorem evalAll_relabel (hτ : ∀ k, .inl k ∈ S → τ (m (.inl k)) = node (.parameter k) []) :
    ∀ {ts : List Ty}, AllWithin S ts →
      evalAll node τ (imageAll (fun p => m (.inr p)) (fun k => .point (m (.inl k))) ts) =
        evalAll node (fun p => τ (m (.inr p))) ts
  | [], _ => rfl
  | t :: ts, h => by
    rw [imageAll, evalAll, evalAll, evalAll_relabel hτ h.2]
    exact congrArg (· :: _) (eval_relabel hτ h.1)

end

-- ---------------------------------------------------------------------------
-- Types without parameters
-- ---------------------------------------------------------------------------

mutual

/-- Relabelling leaves no parameter. -/
theorem within_relabel : ∀ t : Ty, (t.relabel m).Within (Set.range .inr)
  | .point p => ⟨_, rfl⟩
  | .con tag children emit => by
    cases tag with
    | parameter k => exact ⟨_, rfl⟩
    | _ => exact allWithin_relabel children

theorem allWithin_relabel : ∀ ts : List Ty, AllWithin (Set.range .inr)
    (imageAll (fun p => m (.inr p)) (fun k => .point (m (.inl k))) ts)
  | [] => trivial
  | t :: ts => ⟨within_relabel t, allWithin_relabel ts⟩

end

mutual

/-- Without parameters it does not matter what becomes of parameters. -/
theorem Within.eval_eq (hAgree : ∀ tag ts, (∀ k, tag ≠ .parameter k) → node tag ts = node' tag ts) :
    ∀ {t : Ty}, t.Within (Set.range .inr) → t.eval node τ = t.eval node' τ
  | .point p, _ => rfl
  | .con tag children emit, h => by
    cases tag with
    | parameter k =>
      obtain ⟨⟨_, hk⟩, -⟩ := h
      cases hk
    | _ =>
      rw [eval, eval, AllWithin.evalAll_eq hAgree h]
      exact hAgree _ _ (by simp)

theorem AllWithin.evalAll_eq
    (hAgree : ∀ tag ts, (∀ k, tag ≠ .parameter k) → node tag ts = node' tag ts) :
    ∀ {ts : List Ty}, AllWithin (Set.range .inr) ts → evalAll node τ ts = evalAll node' τ ts
  | [], _ => rfl
  | t :: ts, h => by rw [evalAll, evalAll, h.1.eval_eq hAgree, AllWithin.evalAll_eq hAgree h.2]

end

mutual

/-- Without parameters of its own, a type may be relabelled after its points were replaced or
before. -/
theorem relabel_eval_plain : ∀ {t : Ty}, t.Within (Set.range .inr) →
    (t.eval plain g).relabel f = t.eval plain fun p => (g p).relabel f
  | .point p, _ => rfl
  | .con tag children emit, h => by
    cases tag with
    | parameter k =>
      obtain ⟨⟨_, hk⟩, -⟩ := h
      cases hk
    | _ => exact congrArg (plain _) (imageAll_evalAll_plain h)

theorem imageAll_evalAll_plain : ∀ {ts : List Ty}, AllWithin (Set.range .inr) ts →
    imageAll (fun p => f (.inr p)) (fun k => .point (f (.inl k))) (evalAll plain g ts) =
      evalAll plain (fun p => (g p).relabel f) ts
  | [], _ => rfl
  | t :: ts, h => by
    rw [evalAll, imageAll, evalAll, imageAll_evalAll_plain h.2]
    exact congrArg (· :: _) (relabel_eval_plain h.1)

end

mutual

/-- Templates are not touched. -/
theorem erase_relabel : ∀ t : Ty, (t.relabel f).erase = t.erase.relabel f
  | .point p => rfl
  | .con tag children emit => by
    cases tag with
    | parameter k => rfl
    | _ => exact congrArg (con _ · none) (eraseAll_imageAll children)

theorem eraseAll_imageAll : ∀ ts : List Ty,
    eraseAll (imageAll (fun p => f (.inr p)) (fun k => .point (f (.inl k))) ts) =
      imageAll (fun p => f (.inr p)) (fun k => .point (f (.inl k))) (eraseAll ts)
  | [] => rfl
  | t :: ts => by
    rw [imageAll, eraseAll, eraseAll, imageAll, eraseAll_imageAll ts]
    exact congrArg (· :: _) (erase_relabel t)

end

end Ty

/-- Trees in which all parameters look alike. -/
def Tree.coarse : Tag → List Tree → Tree
  | .parameter _, _ => .node .block []
  | tag, ts => .node tag ts

theorem Tree.coarse_eq {tag : Tag} (h : ∀ k, tag ≠ .parameter k) (ts : List Tree) :
    Tree.coarse tag ts = .node tag ts := by
  cases tag with
  | parameter k => exact absurd rfl (h k)
  | _ => rfl

namespace Ty

variable {τ : Assignment}

mutual

/-- A type that does not show whether parameters can be told apart has none. -/
theorem within_of_eval_coarse : ∀ t : Ty, t.value τ = t.eval Tree.coarse τ →
    t.Within (Set.range .inr)
  | .point p, _ => ⟨p, rfl⟩
  | .con tag children emit, h => by
    cases tag with
    | parameter k =>
      have hTag := (Tree.node.inj h).1
      cases hTag
    | _ => exact allWithin_of_evalAll_coarse children (Tree.node.inj h).2

theorem allWithin_of_evalAll_coarse : ∀ ts : List Ty,
    evalAll Tree.node τ ts = evalAll Tree.coarse τ ts → AllWithin (Set.range .inr) ts
  | [], _ => trivial
  | t :: ts, h => by
    rw [evalAll, evalAll, List.cons.injEq] at h
    exact ⟨within_of_eval_coarse t h.1, allWithin_of_evalAll_coarse ts h.2⟩

end

end Ty

-- ---------------------------------------------------------------------------
-- Solutions of copies
-- ---------------------------------------------------------------------------

namespace Ascription

variable {S : Set (Parameter ⊕ Point)} {m : Parameter ⊕ Point → Point} {σ σ' τ : Assignment}
  {x : Ascription}

/-- The parameters and points of the ascription are among those in `S`, and its
parameters have no children. -/
structure Within (S : Set (Parameter ⊕ Point)) (x : Ascription) : Prop where
  node : .inr x.node ∈ S
  type : x.type.Within S

/-- The copy of an ascription, in which points stand for parameters and points. -/
def relabel (m : Parameter ⊕ Point → Point) (x : Ascription) : Ascription :=
  { x with node := m (.inr x.node), type := x.type.relabel m, copied := true }

/-- Whether an ascription holds depends on the points in `S` only. -/
theorem Within.holds_congr (h : x.Within S) (hEq : ∀ p, .inr p ∈ S → σ p = σ' p) :
    x.Holds σ ↔ x.Holds σ' := by
  have hValue : x.type.value σ = x.type.value σ' :=
    Ty.eval_congr x.type fun p hp => hEq p (h.type.mem p hp)
  rw [Holds, Holds, hEq _ h.node, hValue]

/-- Whether the copy holds is whether the ascription does, in the values of the copies. -/
theorem Within.holds_relabel (h : x.Within S)
    (hτ : ∀ k, .inl k ∈ S → τ (m (.inl k)) = .node (.parameter k) []) :
    (x.relabel m).Holds τ ↔ x.Holds fun p => τ (m (.inr p)) := by
  rw [Holds, Holds, Ty.value, Ty.value, ← Ty.eval_relabel hτ h.type]
  rfl

/-- A solution of an ascription gives one of its copy. -/
theorem Within.holds_undo (h : x.Within S) {undo : Point → Ty}
    (hUndo : ∀ y ∈ S, undo (m y) = .atom y) (hσ : x.Holds σ) :
    (x.relabel m).Holds fun y => (undo y).value σ := by
  rw [h.holds_relabel fun k hk => by rw [hUndo _ hk]; rfl]
  refine (h.holds_congr fun p hp => ?_).mpr hσ
  rw [hUndo _ hp]
  rfl

end Ascription

/-- What was replaced by different points can be put back. -/
theorem exists_undo {S : Set (Parameter ⊕ Point)} {m : Parameter ⊕ Point → Point}
    (hInj : S.InjOn m) : ∃ undo : Point → Ty, ∀ x ∈ S, undo (m x) = .atom x :=
  ⟨fun y => .atom (Function.invFunOn m S y), fun _ hx =>
    congrArg Ty.atom (hInj.leftInvOn_invFunOn hx)⟩

/-- Parameters can be counted, for they are made of numbers and texts. -/
theorem countable_parameter : Countable Parameter := by
  have hChar : Countable Char :=
    Function.Injective.countable (f := Char.toNat) fun _ _ => Char.toNat_inj.mp
  refine Function.Injective.countable
    (f := fun k : Parameter => (k.id, k.name.toList, k.source.index, k.infer)) ?_
  rintro ⟨id, name, source, infer⟩ ⟨id', name', source', infer'⟩ hEq
  simp only [Prod.mk.injEq, String.toList_inj] at hEq
  obtain ⟨rfl, rfl, hSource, rfl⟩ := hEq
  rw [Point.index_injective hSource]

/-- There are points enough for all parameters and points, also if finitely many of
them have been chosen already. -/
theorem exists_injective_extend {ys : List Point} {key : Point → Parameter ⊕ Point}
    (hInj : Set.InjOn key { y | y ∈ ys }) :
    ∃ f : Parameter ⊕ Point → Point, Function.Injective f ∧ ∀ y ∈ ys, f (key y) = y := by
  have := countable_parameter
  have : Countable Point := Point.index_injective.countable
  have : Infinite Point := Infinite.of_injective Point.mk fun _ _ => congrArg Point.index
  -- both sides are countable and infinite, so a finite part of a bijection extends to one
  obtain ⟨e, he⟩ := Cardinal.extend_function_of_lt (s := { y | y ∈ ys }) ⟨_, hInj.injective⟩
    ((Cardinal.lt_aleph0_iff_finite.mpr ys.finite_toSet).trans_le (Cardinal.aleph0_le_mk Point))
    nonempty_equiv_of_countable
  refine ⟨e.symm, e.symm.injective, fun y hy => ?_⟩
  rw [e.symm_apply_eq]
  exact (he ⟨y, hy⟩).symm

namespace Unification

variable {u u' : Unification} {as : List Ascription} {σ : Assignment}

/-- What is expressed is entailed, for values of any kind. -/
theorem Expresses.entails (h : u.Expresses as) (hSolution : ∀ a ∈ as, a.Holds σ)
    {a : Ascription} (ha : a ∈ as) : u.Entails (.point a.node) a.type := by
  have hSettled := h.settled hSolution
  refine (entails_iff_apply_same hSettled.wellFormed hSettled.acyclic hSettled.single).mpr
    (Ty.same_of_forall_value_eq fun τ => ?_)
  have hHolds := (h.solves _).mp (hSettled.models_normal.eval_plain Tree.node τ) a ha
  calc (u.apply (.point a.node)).value τ = (u.normal a.node).value τ := (Ty.eval_erase _).symm
    _ = a.type.value fun p => (u.normal p).value τ := hHolds
    _ = (a.type.eval Ty.plain u.normal).value τ := (Ty.eval_eval_plain _).symm
    _ = (u.apply a.type).value τ := by rw [eval_normal, Ty.value, Ty.eval_erase]; rfl

/-- **What is said without parameters has normal forms without parameters.** -/
theorem Expresses.within_normal (h : u.Expresses as) (hSolution : ∀ a ∈ as, a.Holds σ)
    (hWithin : ∀ a ∈ as, a.type.Within (Set.range .inr)) (p : Point) :
    (u.normal p).Within (Set.range .inr) := by
  have hModels := (h.settled hSolution).models_normal.eval_plain Tree.coarse σ
  set τ : Assignment := fun q => (u.normal q).eval Tree.coarse σ
  -- in both kinds of trees this is a solution, so the normal forms agree in both
  have hSolves : Solves τ u := (h.solves τ).mpr fun a ha => by
    refine (h.entails hSolution ha _ _ _ hModels).trans ?_
    exact (hWithin a ha).eval_eq fun tag ts hTag => Tree.coarse_eq hTag ts
  refine Ty.within_of_eval_coarse (τ := τ) _ ?_
  rw [normal, Ty.value, Ty.eval_erase, Ty.eval_erase, eval_apply hSolves, eval_apply hModels]
  rfl

-- ---------------------------------------------------------------------------
-- Normal forms of copies
-- ---------------------------------------------------------------------------

/-- The state `u` expresses ascriptions, `u'` copies of them in which points have taken
the place of the parameters and points in `S`; `undo` puts these back. -/
structure Opened (u u' : Unification) (as : List Ascription) (S : Set (Parameter ⊕ Point))
    (m : Parameter ⊕ Point → Point) (undo : Point → Ty) : Prop where
  original : u.Expresses as
  copies   : u'.Expresses (as.map (Ascription.relabel m))
  within   : ∀ a ∈ as, a.Within S
  undo     : ∀ x ∈ S, undo (m x) = .atom x
  solvable : ∃ σ, ∀ a ∈ as, a.Holds σ

/-- What a point of the copies is in the terms of the original. -/
def back (u : Unification) (undo : Point → Ty) (y : Point) : Ty :=
  (undo y).eval Ty.plain u.normal

open scoped Classical in
/-- Puts back the points that are left for parameters. -/
noncomputable def close (u u' : Unification) (S : Set (Parameter ⊕ Point))
    (m : Parameter ⊕ Point → Point) (undo : Point → Ty) (y : Point) : Ty :=
  if ∃ k, .inl k ∈ S ∧ u'.normal (m (.inl k)) = .point y then u.back undo y else .point y

/-- What a point of the original is in the terms of the copies. -/
noncomputable def forth (u u' : Unification) (S : Set (Parameter ⊕ Point))
    (m : Parameter ⊕ Point → Point) (undo : Point → Ty) (p : Point) : Ty :=
  (u'.normal (m (.inr p))).eval Ty.plain (u.close u' S m undo)

theorem erase_back (u : Unification) (undo : Point → Ty) (y : Point) :
    (u.back undo y).erase = u.back undo y :=
  Ty.erase_eval_plain (erase_normal u) _

theorem erase_forth (u u' : Unification) (S : Set (Parameter ⊕ Point))
    (m : Parameter ⊕ Point → Point) (undo : Point → Ty) (p : Point) :
    (u.forth u' S m undo p).erase = u.forth u' S m undo p := by
  refine Ty.erase_eval_plain (fun y => ?_) _
  unfold close
  split
  · exact erase_back u undo y
  · rfl

namespace Opened

variable {S : Set (Parameter ⊕ Point)} {m : Parameter ⊕ Point → Point} {undo : Point → Ty}

/-- Going back undoes the relabelling. -/
theorem back_eq (h : Opened u u' as S m undo) {x : Parameter ⊕ Point} (hx : x ∈ S) :
    u.back undo (m x) = (Ty.atom x).eval Ty.plain u.normal := by
  rw [back, h.undo x hx]

/-- A solution of the ascriptions gives one of the copies. -/
theorem holds_copies (h : Opened u u' as S m undo) (hσ : ∀ a ∈ as, a.Holds σ) :
    ∀ b ∈ as.map (Ascription.relabel m), b.Holds fun y => (undo y).value σ :=
  List.forall_mem_map.mpr fun a ha => (h.within a ha).holds_undo h.undo (hσ a ha)

/-- A solution of the copies gives one of the ascriptions, if it gives the points that
stand for parameters the trees of those. -/
theorem holds_original (h : Opened u u' as S m undo) {τ : Assignment}
    (hτ : ∀ b ∈ as.map (Ascription.relabel m), b.Holds τ)
    (hParameters : ∀ k, .inl k ∈ S → τ (m (.inl k)) = .node (.parameter k) []) :
    ∀ a ∈ as, a.Holds fun p => τ (m (.inr p)) :=
  fun a ha => ((h.within a ha).holds_relabel hParameters).mp (List.forall_mem_map.mp hτ a ha)

theorem settled (h : Opened u u' as S m undo) : u.Settled := by
  obtain ⟨σ, hσ⟩ := h.solvable
  exact h.original.settled hσ

theorem settled_copies (h : Opened u u' as S m undo) : u'.Settled := by
  obtain ⟨σ, hσ⟩ := h.solvable
  exact h.copies.settled (h.holds_copies hσ)

/-- No parameter is left in the normal forms of the copies. -/
theorem within_normal (h : Opened u u' as S m undo) (y : Point) :
    (u'.normal y).Within (Set.range .inr) := by
  obtain ⟨σ, hσ⟩ := h.solvable
  exact h.copies.within_normal (h.holds_copies hσ)
    (List.forall_mem_map.mpr fun a _ => Ty.within_relabel a.type) y

/-- The original is an instance of the copies. -/
theorem eval_back (h : Opened u u' as S m undo) (y : Point) :
    (u'.normal y).eval Ty.plain (u.back undo) = u.back undo y := by
  refine eval_normal_eq (erase_back u undo) (fun σ => (h.copies.solves _).mpr ?_) y
  have hSolves := h.settled.models_normal.eval_plain Tree.node σ
  have hCopies := h.holds_copies ((h.original.solves _).mp hSolves)
  intro b hb
  have hEq : (fun y => (u.back undo y).value σ) =
      fun y => (undo y).value fun p => (u.normal p).value σ :=
    funext fun y => Ty.eval_eval_plain _
  rw [hEq]
  exact hCopies b hb

/-- A point that stands for a parameter is unknown. -/
theorem exists_normal_parameter (h : Opened u u' as S m undo) {k : Parameter} (hk : .inl k ∈ S) :
    ∃ y, u'.normal (m (.inl k)) = .point y ∧ u.back undo y = .atom (.inl k) := by
  have hWithin := h.within_normal (m (.inl k))
  have hBack := h.eval_back (m (.inl k))
  rw [h.back_eq hk] at hBack
  cases hForm : u'.normal (m (.inl k)) with
  | point y =>
    rw [hForm] at hBack
    exact ⟨y, rfl, hBack⟩
  -- going back, only a parameter becomes this parameter, and there is none
  | con tag children emit =>
    rw [hForm] at hBack hWithin
    obtain rfl : tag = .parameter k := (Ty.con.inj hBack).1
    obtain ⟨⟨_, hEq⟩, -⟩ := hWithin
    cases hEq

/-- The copies, with their parameters put back, are an instance of the original. -/
theorem eval_forth (h : Opened u u' as S m undo) (p : Point) :
    (u.normal p).eval Ty.plain (u.forth u' S m undo) = u.forth u' S m undo p := by
  refine eval_normal_eq (erase_forth u u' S m undo) (fun σ => (h.original.solves _).mpr ?_) p
  have hSolves := h.settled_copies.models_normal.eval_plain Tree.node
    fun z => (u.close u' S m undo z).value σ
  -- the points left for parameters were put back, so they have the values of those
  have hParameters : ∀ k, .inl k ∈ S → (u'.normal (m (.inl k))).value
      (fun z => (u.close u' S m undo z).value σ) = .node (.parameter k) [] := by
    intro k hk
    obtain ⟨y, hForm, hBack⟩ := h.exists_normal_parameter hk
    rw [hForm]
    show (u.close u' S m undo y).value σ = _
    rw [close, if_pos ⟨k, hk, hForm⟩, hBack]
    rfl
  have hOriginal := h.holds_original ((h.copies.solves _).mp hSolves) hParameters
  have hEq : (fun q => (u.forth u' S m undo q).value σ) =
      fun q => (u'.normal (m (.inr q))).value fun z => (u.close u' S m undo z).value σ :=
    funext fun q => Ty.eval_eval_plain _
  rw [hEq]
  exact hOriginal

/-- Going back and forth changes nothing but the points left for parameters. -/
theorem eval_back_forth (h : Opened u u' as S m undo) {p y : Point} (hp : .inr p ∈ S)
    (hy : y ∈ (u'.normal (m (.inr p))).points) :
    (u.back undo y).eval Ty.plain (u.forth u' S m undo) = u.close u' S m undo y := by
  refine Ty.eq_of_eval_plain_eq (f := fun y => (u.back undo y).eval Ty.plain (u.forth u' S m undo))
    (u'.normal (m (.inr p))) ?_ y hy
  rw [← Ty.eval_eval_plain, h.eval_back, h.back_eq hp]
  exact h.eval_forth p

/-- A point that is left in a copy stands for one parameter or point. -/
theorem exists_back_eq_atom (h : Opened u u' as S m undo) {p y : Point} (hp : .inr p ∈ S)
    (hy : y ∈ (u'.normal (m (.inr p))).points) : ∃ x, u.back undo y = .atom x := by
  have hClose := h.eval_back_forth hp hy
  unfold close at hClose
  split at hClose
  · rename_i hParameter
    obtain ⟨k, hk, hForm⟩ := hParameter
    obtain ⟨y', hForm', hBack⟩ := h.exists_normal_parameter hk
    obtain rfl := Ty.point.inj (hForm.symm.trans hForm')
    exact ⟨.inl k, hBack⟩
  · cases hBack : u.back undo y with
    | point z => exact ⟨.inr z, rfl⟩
    | con tag children emit =>
      rw [hBack] at hClose
      cases hClose

/-- Different points that are left in a copy stand for different things. -/
theorem injOn_back (h : Opened u u' as S m undo) {p : Point} (hp : .inr p ∈ S) :
    Set.InjOn (u.back undo) { y | y ∈ (u'.normal (m (.inr p))).points } := by
  intro y hy y' hy' hEq
  have hClose : u.close u' S m undo y = u.close u' S m undo y' := by
    rw [← h.eval_back_forth hp hy, ← h.eval_back_forth hp hy', hEq]
  have hParameter : ∀ y k, .inl k ∈ S → u'.normal (m (.inl k)) = .point y →
      u.back undo y = .atom (.inl k) := by
    intro y k hk hForm
    obtain ⟨z, hForm', hBack⟩ := h.exists_normal_parameter hk
    obtain rfl := Ty.point.inj (hForm.symm.trans hForm')
    exact hBack
  unfold close at hClose
  split at hClose <;> split at hClose
  · -- both stand for parameters: for the same one, and that has one counterpart
    rename_i hLeft hRight
    obtain ⟨k, hk, hForm⟩ := hLeft
    obtain ⟨k', hk', hForm'⟩ := hRight
    rw [hParameter y k hk hForm, hParameter y' k' hk' hForm'] at hEq
    obtain rfl : k = k' := by
      simp only [Ty.atom, Ty.con.injEq, Tag.parameter.injEq] at hEq
      exact hEq.1
    exact Ty.point.inj (hForm.symm.trans hForm')
  · -- one stands for a parameter and the other for a point
    rename_i hLeft _
    obtain ⟨k, hk, hForm⟩ := hLeft
    rw [hParameter y k hk hForm] at hClose
    cases hClose
  · rename_i hRight
    obtain ⟨k, hk, hForm⟩ := hRight
    rw [hParameter y' k hk hForm] at hClose
    cases hClose
  · exact Ty.point.inj hClose

/-- **The normal forms of copies are copies of the normal forms.** -/
theorem exists_relabel_normal (h : Opened u u' as S m undo) {p : Point} (hp : .inr p ∈ S) :
    ∃ f : Parameter ⊕ Point → Point, Function.Injective f ∧
      u'.normal (m (.inr p)) = (u.normal p).relabel f := by
  have hAtom : ∀ y, ∃ x, y ∈ (u'.normal (m (.inr p))).points → u.back undo y = .atom x := by
    intro y
    by_cases hy : y ∈ (u'.normal (m (.inr p))).points
    · obtain ⟨x, hx⟩ := h.exists_back_eq_atom hp hy
      exact ⟨x, fun _ => hx⟩
    · exact ⟨.inr y, fun hMem => absurd hMem hy⟩
  -- what each point stands for, read backwards, is the renaming
  choose key hKey using hAtom
  have hInj : Set.InjOn key { y | y ∈ (u'.normal (m (.inr p))).points } := by
    intro y hy y' hy' hEq
    refine h.injOn_back hp hy hy' ?_
    rw [hKey y hy, hKey y' hy', hEq]
  obtain ⟨f, hf, hInverse⟩ := exists_injective_extend hInj
  refine ⟨f, hf, ?_⟩
  calc u'.normal (m (.inr p))
      = (u'.normal (m (.inr p))).eval Ty.plain .point := by
        rw [← Ty.erase_eq_eval, erase_normal]
    _ = (u'.normal (m (.inr p))).eval Ty.plain fun y => (u.back undo y).relabel f := by
        refine Ty.eval_congr _ fun y hy => ?_
        rw [hKey y hy, Ty.relabel_atom, hInverse y hy]
    _ = ((u'.normal (m (.inr p))).eval Ty.plain (u.back undo)).relabel f :=
        (Ty.relabel_eval_plain (h.within_normal _)).symm
    _ = (u.normal p).relabel f := by
        rw [h.eval_back, h.back_eq hp]
        rfl

end Opened

end Unification

end TraitInference
