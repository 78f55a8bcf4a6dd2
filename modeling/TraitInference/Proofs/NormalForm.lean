import TraitInference.Unification.Normal
import TraitInference.Proofs.Meaning

/-!
# TraitInference — normal forms solve the state

Types are values of their own: a tag applied to children gives a type. Read this
way, an acyclic state in which no class has two types has a solution that needs
no further choice, the one that gives every point its normal form
(`models_normal`), and every other solution is an instance of it (`eval_apply`).
So two types have one value in all solutions exactly when their normal forms are
the same (`entails_iff_apply_same`).

The depth to which classes are unfolded and the classes that are left folded do
not matter here: on an acyclic state the depth suffices for all typed classes
behind a point, and none of them is met twice (`expand_eq`).
-/

namespace TraitInference

-- ---------------------------------------------------------------------------
-- Replacing points
-- ---------------------------------------------------------------------------

namespace Ty

variable {A : Type} {node : Tag → List A → A} {σ : Point → A} {f g : Point → Ty}

mutual

/-- Only the points of a type are replaced. -/
theorem bind_congr : ∀ t : Ty, (∀ p ∈ t.points, f p = g p) → t.bind f = t.bind g
  | .point p, h => h p List.mem_cons_self
  | .con tag children emit, h => by rw [bind, bind, bindAll_congr children h]

theorem bindAll_congr : ∀ ts : List Ty, (∀ p ∈ pointsOfAll ts, f p = g p) →
    bindAll f ts = bindAll g ts
  | [], _ => rfl
  | t :: ts, h => by
    rw [bindAll, bindAll, bind_congr t fun p hp => h p (List.mem_append_left _ hp),
      bindAll_congr ts fun p hp => h p (List.mem_append_right _ hp)]

end

mutual

/-- To replace points and then to evaluate is to evaluate with the values of what replaces
them. -/
theorem eval_bind : ∀ t : Ty, (t.bind f).eval node σ = t.eval node fun p => (f p).eval node σ
  | .point p => rfl
  | .con tag children emit => by rw [bind, eval, eval, evalAll_bindAll children]

theorem evalAll_bindAll : ∀ ts : List Ty,
    evalAll node σ (bindAll f ts) = evalAll node (fun p => (f p).eval node σ) ts
  | [] => rfl
  | t :: ts => by rw [bindAll, evalAll, evalAll, eval_bind t, evalAll_bindAll ts]

end

mutual

theorem eval_congr {τ : Point → A} : ∀ t : Ty, (∀ p ∈ t.points, σ p = τ p) →
    t.eval node σ = t.eval node τ
  | .point p, h => h p List.mem_cons_self
  | .con tag children emit, h => by rw [eval, eval, evalAll_congr children h]

theorem evalAll_congr {τ : Point → A} : ∀ ts : List Ty, (∀ p ∈ pointsOfAll ts, σ p = τ p) →
    evalAll node σ ts = evalAll node τ ts
  | [], _ => rfl
  | t :: ts, h => by
    rw [evalAll, evalAll, eval_congr t fun p hp => h p (List.mem_append_left _ hp),
      evalAll_congr ts fun p hp => h p (List.mem_append_right _ hp)]

end

/-- The types as values: a tag applied to children, without a template. -/
def plain (tag : Tag) (children : List Ty) : Ty :=
  .con tag children none

mutual

/-- Dropping templates is evaluation in the types themselves. -/
theorem erase_eq_eval : ∀ t : Ty, t.erase = t.eval plain .point
  | .point p => rfl
  | .con tag children emit => by rw [erase, eval, plain, eraseAll_eq_evalAll children]

theorem eraseAll_eq_evalAll : ∀ ts : List Ty, eraseAll ts = evalAll plain .point ts
  | [] => rfl
  | t :: ts => by rw [eraseAll, evalAll, erase_eq_eval t, eraseAll_eq_evalAll ts]

end

theorem erase_bind (t : Ty) : (t.bind f).erase = t.eval plain fun p => (f p).erase := by
  rw [erase_eq_eval, eval_bind]
  simp only [erase_eq_eval]

end Ty

namespace Unification

variable {u : Unification}

-- ---------------------------------------------------------------------------
-- How deep a point is unfolded
-- ---------------------------------------------------------------------------

/-- The typed classes that lie behind a point, its own included. -/
def below (u : Unification) (p : Point) : List Point :=
  u.types.keys.filter fun r => u.occurs r (.point p)

/-- Behind a point are the typed classes that can be reached from its class. -/
theorem mem_below {p r : Point} :
    r ∈ u.below p ↔ r ∈ u.types.keys ∧ u.Reaches (u.representative p) r := by
  simp [below, occurs_iff, Ty.points]

/-- There are no more of them than there are typed classes at all. -/
theorem length_below_le (u : Unification) (p : Point) : (u.below p).length ≤ u.types.size :=
  calc (u.below p).length ≤ u.types.keys.length := List.length_filter_le ..
    _ = u.types.size := Std.ExtTreeMap.length_keys

theorem below_pos {p : Point} (hTyped : u.typesAt (u.representative p) ≠ []) :
    0 < (u.below p).length :=
  List.length_pos_of_mem (mem_below.mpr ⟨mem_keys_of_typesAt_ne_nil hTyped, .refl⟩)

/-- Inside the types of an acyclic class there is less behind a point. -/
theorem length_below_lt (hAcyclic : u.Acyclic) {p q : Point}
    (hLink : u.Links (u.representative p) (u.representative q)) :
    (u.below q).length < (u.below p).length := by
  have hRoot : u.representative p ∈ u.below p :=
    mem_below.mpr ⟨mem_keys_of_typesAt_ne_nil (typesAt_ne_nil_of_links hLink), .refl⟩
  -- what is behind `q` is behind `p`, but not the class of `p` itself
  have hFilter : u.below q = (u.below p).filter fun r => u.occurs r (.point q) := by
    rw [below, below, List.filter_filter]
    apply List.filter_congr
    intro r _
    have hBehind : u.occurs r (.point q) = true → u.occurs r (.point p) = true := by
      simp only [occurs_iff, Ty.points, List.mem_singleton, exists_eq_left]
      exact fun hReach => hReach.head hLink
    cases hOccurs : u.occurs r (.point q) with
    | false => rfl
    | true => simp [hBehind hOccurs]
  rw [hFilter]
  refine List.length_filter_lt_length_iff_exists.mpr ⟨_, hRoot, fun hOccurs => ?_⟩
  simp only [occurs_iff, Ty.points, List.mem_singleton, exists_eq_left] at hOccurs
  exact hAcyclic _ (.head' hLink hOccurs)

/-- A class without types is its representative, at any depth. -/
theorem expand_open {p : Point} (hOpen : u.typesAt (u.representative p) = []) (fuel : Nat)
    (visiting : List Point) : u.expand fuel visiting p = .point (u.representative p) := by
  cases fuel with
  | zero => rfl
  | succ fuel => simp [expand, hOpen]

/-- A class that was not met before is unfolded into its first type. -/
theorem expand_pinned {p : Point} {t : Ty}
    (hHead : (u.typesAt (u.representative p)).head? = some t) {visiting : List Point}
    (hNew : u.representative p ∉ visiting) (fuel : Nat) :
    u.expand (fuel + 1) visiting p = t.bind (u.expand fuel (u.representative p :: visiting)) := by
  simp [expand, hNew, hHead]

/-- **On an acyclic state neither the depth nor the classes left folded matter**,
as long as the depth suffices and nothing that is left folded lies behind the
point. -/
theorem expand_eq (hAcyclic : u.Acyclic) {fuel fuel' : Nat} {visiting visiting' : List Point}
    {p : Point} (hFuel : (u.below p).length ≤ fuel) (hFuel' : (u.below p).length ≤ fuel')
    (hNew : ∀ r ∈ visiting, ¬ u.Reaches (u.representative p) r)
    (hNew' : ∀ r ∈ visiting', ¬ u.Reaches (u.representative p) r) :
    u.expand fuel visiting p = u.expand fuel' visiting' p := by
  induction fuel generalizing fuel' visiting visiting' p with
  -- no typed class behind the point, its own included
  | zero =>
    have hOpen : u.typesAt (u.representative p) = [] := by
      by_contra hTyped
      have := below_pos hTyped
      omega
    rw [expand_open hOpen, expand_open hOpen]
  | succ fuel ih =>
    cases hHead : (u.typesAt (u.representative p)).head? with
    | none =>
      have hOpen := List.head?_eq_none_iff.mp hHead
      rw [expand_open hOpen, expand_open hOpen]
    | some t =>
      have hMem := List.mem_of_head? hHead
      have hPos := below_pos (List.ne_nil_of_mem hMem)
      obtain ⟨more, rfl⟩ : ∃ more, fuel' = more + 1 := ⟨fuel' - 1, by omega⟩
      rw [expand_pinned hHead fun hIn => hNew _ hIn .refl,
        expand_pinned hHead fun hIn => hNew' _ hIn .refl]
      apply Ty.bind_congr
      intro q hq
      have hLink : u.Links (u.representative p) (u.representative q) :=
        ⟨q, mem_pointsAt.mpr ⟨t, hMem, hq⟩, rfl⟩
      have hLess := length_below_lt hAcyclic hLink
      -- what is new behind `p` is new behind `q`, and `p` itself is no longer there
      have hStill : ∀ folded : List Point,
          (∀ r ∈ folded, ¬ u.Reaches (u.representative p) r) →
          ∀ r ∈ u.representative p :: folded, ¬ u.Reaches (u.representative q) r := by
        intro folded hFolded r hr hReach
        rcases List.mem_cons.mp hr with rfl | hr
        · exact hAcyclic _ (.head' hLink hReach)
        · exact hFolded r hr (hReach.head hLink)
      exact ih (by omega) (by omega) (hStill _ hNew) (hStill _ hNew')

-- ---------------------------------------------------------------------------
-- The most general solution
-- ---------------------------------------------------------------------------

/-- No class has two types. -/
def Single (u : Unification) : Prop :=
  ∀ r, (u.typesAt r).length ≤ 1

/-- The normal form of a point, without templates. -/
def normal (u : Unification) (p : Point) : Ty :=
  (u.apply (.point p)).erase

/-- The value of a type under normal forms is its normal form. -/
theorem eval_normal (u : Unification) (t : Ty) : t.eval Ty.plain u.normal = (u.apply t).erase := by
  rw [apply, Ty.erase_bind]
  rfl

variable {A : Type} {node : Tag → List A → A} {σ : Point → A}

/-- The values make true what a state says about the first type of each class. -/
structure ModelsFirst (node : Tag → List A → A) (σ : Point → A) (u : Unification) : Prop where
  representative : ∀ p, σ p = σ (u.representative p)
  first          : ∀ p t, (u.typesOf p).head? = some t → σ p = t.eval node σ

theorem Models.modelsFirst (h : Models node σ u) : ModelsFirst node σ u :=
  ⟨h.representative, fun _ _ hHead => h.eval_eq (List.mem_of_head? hHead)⟩

/-- However deep a point is unfolded, its value stays the same. -/
theorem ModelsFirst.eval_expand (h : ModelsFirst node σ u) (fuel : Nat) (visiting : List Point)
    (p : Point) : (u.expand fuel visiting p).eval node σ = σ p := by
  have hFolded : (Ty.point (u.representative p)).eval node σ = σ p := (h.representative p).symm
  induction fuel generalizing visiting p with
  | zero => exact hFolded
  | succ fuel ih =>
    unfold expand
    dsimp only
    split
    · exact hFolded
    · split
      · exact hFolded
      · -- the value of the class is that of its first type, and deeper points keep theirs
        rename_i t hHead
        rw [Ty.eval_bind, h.first p t hHead]
        apply Ty.eval_congr
        intro q _
        exact ih _ q (h.representative q).symm

/-- Normal forms look at the first types only. -/
theorem ModelsFirst.eval_apply (h : ModelsFirst node σ u) (t : Ty) :
    (u.apply t).eval node σ = t.eval node σ := by
  rw [apply, Ty.eval_bind]
  apply Ty.eval_congr
  intro p _
  exact h.eval_expand _ _ p

/-- The types of each class have one normal form. -/
def Agreeing (u : Unification) : Prop :=
  ∀ r, ∀ t ∈ u.typesAt r, ∀ t' ∈ u.typesAt r, (u.apply t).same (u.apply t') = true

/-- A class with one type agrees with itself. -/
theorem Single.agreeing (h : u.Single) : u.Agreeing := by
  intro r t ht t' ht'
  obtain ⟨only, hTypes⟩ := List.length_eq_one_iff.mp
    (le_antisymm (h r) (List.length_pos_of_mem ht))
  rw [hTypes, List.mem_singleton] at ht ht'
  rw [ht, ht']
  exact Ty.same_refl _

/-- What makes the first types true makes all types true, if those of each class agree. -/
theorem ModelsFirst.models (h : ModelsFirst node σ u) (hAgreeing : u.Agreeing) :
    Models node σ u := by
  refine ⟨h.representative, fun p t ht => ?_⟩
  obtain ⟨first, hHead⟩ : ∃ first, (u.typesOf p).head? = some first := by
    rw [← Option.isSome_iff_exists, List.isSome_head?]
    simpa using List.ne_nil_of_mem ht
  calc σ (u.representative p)
      = σ p := (h.representative p).symm
    _ = first.eval node σ := h.first p first hHead
    _ = (u.apply first).eval node σ := (h.eval_apply first).symm
    _ = (u.apply t).eval node σ :=
        Ty.eval_eq_of_same (hAgreeing _ first (List.mem_of_head? hHead) t ht)
    _ = t.eval node σ := h.eval_apply t

/-- Normal forms solve what an acyclic state says about first types. -/
theorem modelsFirst_normal (hFormed : u.WellFormed) (hAcyclic : u.Acyclic) :
    ModelsFirst Ty.plain u.normal u where
  representative p := by
    have hRoot := representative_representative hFormed.forest p
    have hExpand : ∀ fuel visiting,
        u.expand fuel visiting p = u.expand fuel visiting (u.representative p) := by
      intro fuel visiting
      cases fuel <;> simp only [expand, hRoot]
    show (u.expand _ _ p).erase = (u.expand _ _ (u.representative p)).erase
    rw [hExpand]
  first p t hHead := by
    have ht : t ∈ u.typesOf p := List.mem_of_head? hHead
    have hPos : 0 < (u.below p).length := below_pos (List.ne_nil_of_mem ht)
    have hMost := u.length_below_le p
    obtain ⟨fuel, hSize⟩ : ∃ fuel, u.types.size = fuel + 1 := ⟨u.types.size - 1, by omega⟩
    calc u.normal p
        = (u.expand (fuel + 1) [] p).erase := by rw [← hSize]; rfl
      _ = (t.bind (u.expand fuel [u.representative p])).erase := by
          rw [expand_pinned hHead List.not_mem_nil]
      _ = t.eval Ty.plain fun q => (u.expand fuel [u.representative p] q).erase := t.erase_bind
      _ = t.eval Ty.plain u.normal := ?_
    -- inside the type the class itself is not met, and one class less is left to unfold
    apply Ty.eval_congr
    intro q hq
    have hLink : u.Links (u.representative p) (u.representative q) :=
      ⟨q, mem_pointsAt.mpr ⟨t, ht, hq⟩, rfl⟩
    have hLess : (u.below q).length < (u.below p).length := length_below_lt hAcyclic hLink
    have hAgain : ∀ r ∈ [u.representative p], ¬ u.Reaches (u.representative q) r := by
      intro r hr hReach
      rw [List.mem_singleton.mp hr] at hReach
      exact hAcyclic _ (.head' hLink hReach)
    have hNone : ∀ r ∈ ([] : List Point), ¬ u.Reaches (u.representative q) r := by simp
    rw [expand_eq hAcyclic (by omega) (u.length_below_le q) hAgain hNone]
    rfl

/-- **Normal forms solve the state.** -/
theorem models_normal (hFormed : u.WellFormed) (hAcyclic : u.Acyclic) (hSingle : u.Single) :
    Models Ty.plain u.normal u :=
  (modelsFirst_normal hFormed hAcyclic).models hSingle.agreeing

/-- **A type and its normal form have one value in every solution.** -/
theorem eval_apply (hModels : Models node σ u) (t : Ty) :
    (u.apply t).eval node σ = t.eval node σ :=
  hModels.modelsFirst.eval_apply t

/-- The two types have one value in every solution of the state. -/
def Entails (u : Unification) (t t' : Ty) : Prop :=
  ∀ (A : Type) (node : Tag → List A → A) (σ : Point → A),
    Models node σ u → t.eval node σ = t'.eval node σ

/-- **Normal forms decide what a state entails.** -/
theorem entails_iff_apply_same (hFormed : u.WellFormed) (hAcyclic : u.Acyclic)
    (hSingle : u.Single) {t t' : Ty} :
    u.Entails t t' ↔ (u.apply t).same (u.apply t') = true := by
  constructor
  · intro hEntails
    have hEq := hEntails Ty Ty.plain u.normal (models_normal hFormed hAcyclic hSingle)
    rw [eval_normal, eval_normal] at hEq
    exact (Ty.same_iff _ _).mpr hEq
  · intro hSame A node σ hModels
    calc t.eval node σ = (u.apply t).eval node σ := (eval_apply hModels t).symm
      _ = (u.apply t').eval node σ := Ty.eval_eq_of_same hSame
      _ = t'.eval node σ := eval_apply hModels t'

end Unification

end TraitInference
