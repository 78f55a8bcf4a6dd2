import TraitInference.Proofs.Persistence
import TraitInference.Proofs.Principal
import TraitInference.Proofs.Unfolding

/-!
# TraitInference — unifying the same types again

After a unification that reported nothing its two types are equal in every solution, so
one should expect that the same unification has nothing left to do. That is nearly so.
If the state is acyclic and no group is in conflict, the second call reports nothing,
records no point and no type and changes no normal form. But it may compare other types
than the first call did, because a class can have got another first type meanwhile, and
so find that two classes with the same type are equal. It then merges them, and the
answer has one group where it had two.

* `Conforms` — the states in which every point has the normal form given for it.
* `Rejoins` — what unifying types with the same normal form does to such a state
  (`unifyWithin_rejoins`): it merges typed classes with the same normal form.
* `unify_again` — hence what the second call does to the groups. If these can be told
  apart by their types, it does nothing at all.
* `unify_again_differs` — a second call that joins two groups, one that finds a conflict
  because there was one before, and one that changes a type because it was recursive.
-/

namespace TraitInference

/-- Types that are all the same are kept as one. -/
theorem Ty.map_erase_distinct {e : Ty} {ts : List Ty} (hSome : ts ≠ [])
    (hSame : ∀ t ∈ ts, t.erase = e) : (distinct ts).map erase = [e] := by
  induction ts using List.reverseRecOn with
  | nil => exact absurd rfl hSome
  | append_singleton ts t ih =>
    have ht : t.erase = e := hSame t (List.mem_append_right _ List.mem_cons_self)
    rw [distinct_append]
    by_cases hNone : ts = []
    · rw [hNone]
      exact congrArg (fun x => [x]) ht
    · have hKept := ih hNone fun t' ht' => hSame t' (List.mem_append_left _ ht')
      rw [if_pos, hKept]
      obtain ⟨kept, hOne⟩ := List.length_eq_one_iff.mp ((List.length_map _).symm.trans
        (congrArg List.length hKept))
      rw [hOne, List.map_singleton, List.singleton_inj] at hKept
      rw [hOne, List.any_cons, Bool.or_eq_true]
      exact .inl ((same_iff _ _).mpr (hKept.trans ht.symm))

theorem Ty.plain_injective : Function.Injective2 plain := by
  intro tag tag' children children' hEq
  simpa [plain] using hEq

namespace Unification

variable {u u' u'' : Unification} {forms : Point → Ty}

-- ---------------------------------------------------------------------------
-- States with given normal forms
-- ---------------------------------------------------------------------------

/-- Every point has the normal form that `forms` gives it: the forms solve the state, and
a class without types stands for itself. -/
structure Conforms (forms : Point → Ty) (u : Unification) : Prop where
  wellFormed : u.WellFormed
  models     : Models Ty.plain forms u
  unknown    : ∀ p, u.typesOf p = [] → forms p = .point (u.representative p)

/-- A class without types is read as its representative. -/
theorem normal_of_open {p : Point} (hOpen : u.typesOf p = []) :
    u.normal p = .point (u.representative p) := by
  show (u.expand _ [] p).erase = .point (u.representative p)
  rw [expand_open hOpen]
  rfl

/-- A state in which every class has one normal form conforms to its normal forms. -/
theorem conforms_normal (hFormed : u.WellFormed) (hAcyclic : u.Acyclic)
    (hAgreeing : u.Agreeing) : Conforms u.normal u :=
  ⟨hFormed, (modelsFirst_normal hFormed hAcyclic).models hAgreeing, fun _ => normal_of_open⟩

/-- Whether a class has types can be seen from its form. -/
theorem Conforms.typed_iff (h : Conforms forms u) {p : Point} :
    u.Typed p ↔ ∀ q, forms p ≠ .point q := by
  constructor
  · intro hTyped q hForm
    obtain ⟨t, ht⟩ := List.exists_mem_of_ne_nil _ hTyped
    obtain ⟨tag, children, emit, rfl⟩ := h.wellFormed.exists_con ht
    rw [h.models.eval_eq ht] at hForm
    cases hForm
  · intro hForm hOpen
    exact hForm _ (h.unknown p hOpen)

/-- Forms are finite, so no class contains itself. -/
theorem Conforms.acyclic (h : Conforms forms u) : u.Acyclic :=
  Solves.acyclic h.wellFormed (h.models.eval_plain Tree.node fun _ => .node .block [])

/-- **The normal forms of a state are the ones it conforms to.** -/
theorem Conforms.normal_eq (h : Conforms forms u) (p : Point) : u.normal p = forms p := by
  have hFirst := modelsFirst_normal h.wellFormed h.acyclic
  -- the points that are left in a normal form stand for unknown types, by either reading
  have hLeft : ∀ q ∈ (u.apply (.point p)).points, forms q = .point q := by
    intro q hq
    have hFree : u.normal q = .point q := by
      refine Ty.eq_of_eval_plain_eq (u.apply (.point p)) (g := .point) ?_ q hq
      rw [hFirst.eval_apply, ← Ty.erase_eq_eval]
      rfl
    have hOpen : u.typesOf q = [] := by
      by_contra hTyped
      obtain ⟨t, hHead⟩ : ∃ t, (u.typesOf q).head? = some t := by
        rw [← Option.isSome_iff_exists, List.isSome_head?]
        simpa using hTyped
      obtain ⟨tag, children, emit, rfl⟩ := h.wellFormed.exists_con (List.mem_of_head? hHead)
      rw [hFirst.first q _ hHead] at hFree
      cases hFree
    rw [h.unknown q hOpen, ← normal_of_open hOpen, hFree]
  calc u.normal p = (u.apply (.point p)).eval Ty.plain .point := Ty.erase_eq_eval _
    _ = (u.apply (.point p)).eval Ty.plain forms :=
        Ty.eval_congr _ fun q hq => (hLeft q hq).symm
    _ = forms p := eval_apply h.models (.point p)

/-- What is found for a point in the end is its form, if that is constructed. -/
theorem Conforms.map_erase_found (h : Conforms forms u) {p : Point} (hTyped : u.Typed p) :
    (u.found p).map Ty.erase = [forms p] := by
  refine Ty.map_erase_distinct (mt List.map_eq_nil_iff.mp hTyped) fun t' ht' => ?_
  obtain ⟨t, ht, rfl⟩ := List.mem_map.mp ht'
  rw [← eval_normal, funext h.normal_eq]
  exact (h.models.eval_eq ht).symm

theorem found_of_open {p : Point} (hOpen : u.typesOf p = []) : u.found p = [] := by
  rw [found, hOpen]
  rfl

/-- Something is found for a point exactly if its class has types. -/
theorem Conforms.found_eq_nil_iff (h : Conforms forms u) {p : Point} :
    u.found p = [] ↔ u.typesOf p = [] := by
  refine ⟨fun hNone => ?_, found_of_open⟩
  by_contra hTyped
  have hForm := h.map_erase_found hTyped
  rw [hNone] at hForm
  cases hForm

/-- States that conform to the same forms find the same types, up to templates. -/
theorem Conforms.found_same (h : Conforms forms u) (h' : Conforms forms u') (p : Point) :
    (u'.found p).map Ty.erase = (u.found p).map Ty.erase := by
  by_cases hTyped : u.Typed p
  · rw [h.map_erase_found hTyped, h'.map_erase_found (h'.typed_iff.mpr (h.typed_iff.mp hTyped))]
  · have hOpen' : ¬ u'.Typed p := fun hTyped' =>
      hTyped (h.typed_iff.mpr (h'.typed_iff.mp hTyped'))
    rw [found_of_open (not_ne_iff.mp hTyped), found_of_open (not_ne_iff.mp hOpen')]

-- ---------------------------------------------------------------------------
-- Points that are recorded already
-- ---------------------------------------------------------------------------

/-- A point that is recorded is not recorded again. -/
theorem find_of_contains {p : Point} (hp : u.classes.contains p = true) : (u.find p).2 = u := by
  have hFind : (u.classes.find p).2 = u.classes := by
    unfold UnionFind.find
    rw [if_pos hp]
  show { u with classes := (u.classes.find p).2 } = u
  rw [hFind]

/-- Touching recorded points changes nothing. -/
theorem touch_of_contains {left right : Ty}
    (h : ∀ p, left = .point p ∨ right = .point p → u.classes.contains p = true) :
    u.touch left right = u := by
  have hResolve : ∀ t, (∀ p, t = .point p → u.classes.contains p = true) → (u.resolve t).2 = u := by
    intro t ht
    cases t with
    | point p => exact find_of_contains (ht p rfl)
    | con => rfl
  unfold touch
  rw [hResolve left fun p hp => h p (.inl hp), hResolve right fun p hp => h p (.inr hp)]

/-- Different points share a class only if they are recorded. -/
theorem WellFormed.contains_of_ne (h : u.WellFormed) {a b : Point} (hNe : a ≠ b)
    (hRoots : u.representative a = u.representative b) : u.classes.contains a = true := by
  by_contra hNew
  have hA : u.representative a = a :=
    UnionFind.representative_of_not_contains (Bool.not_eq_true _ ▸ hNew)
  have hRoot : u.representative b = a := hRoots.symm.trans hA
  by_cases hb : u.classes.contains b = true
  · have hRecorded := UnionFind.contains_representative h.forest hb
    exact hNew (hRoot ▸ hRecorded)
  · have hB : u.representative b = b :=
      UnionFind.representative_of_not_contains (Bool.not_eq_true _ ▸ hb)
    exact hNe (hRoot.symm.trans hB)

-- ---------------------------------------------------------------------------
-- Unifying what is equal already
-- ---------------------------------------------------------------------------

/-- From `u` to `u'` nothing happened but that classes with types of the same form were
merged. If there are no two such classes, nothing happened at all. -/
structure Rejoins (forms : Point → Ty) (u u' : Unification) : Prop where
  conforms  : Conforms forms u'
  joined    : ∀ {p q}, u.representative p = u.representative q →
    u'.representative p = u'.representative q
  recorded  : ∀ p, u'.classes.contains p = u.classes.contains p
  reports   : Reports u [] u'
  unchanged : (∀ p q, forms p = forms q → u.Typed p →
    u.representative p = u.representative q) → u' = u

theorem Rejoins.refl (h : Conforms forms u) : Rejoins forms u u :=
  ⟨h, id, fun _ => rfl, .refl u, fun _ => rfl⟩

theorem Rejoins.trans (h : Rejoins forms u u') (h' : Rejoins forms u' u'') :
    Rejoins forms u u'' where
  conforms := h'.conforms
  joined hJoined := h'.joined (h.joined hJoined)
  recorded p := (h'.recorded p).trans (h.recorded p)
  reports := h.reports.trans h'.reports
  unchanged hApart := by
    obtain rfl := h.unchanged hApart
    exact h'.unchanged hApart

/-- Different classes of the same form have types. -/
theorem Conforms.typed_of_ne (h : Conforms forms u) {a b : Point}
    (hNe : u.representative a ≠ u.representative b) (hEq : forms a = forms b) : u.Typed a := by
  intro hOpen
  have hA := h.unknown a hOpen
  have hOpen' : u.typesOf b = [] := by
    by_contra hTyped
    exact h.typed_iff.mp hTyped _ (hEq.symm.trans hA)
  exact hNe (Ty.point.inj (hA.symm.trans (hEq.trans (h.unknown b hOpen'))))

/-- Merging classes of the same form changes no form. -/
theorem Conforms.merge (h : Conforms forms u) {a b : Point}
    (hNe : u.representative a ≠ u.representative b) (hEq : forms a = forms b) :
    Conforms forms (u.merge a b) where
  wellFormed := h.wellFormed.merge hNe
  models := h.models.merge h.wellFormed hNe hEq
  unknown p hOpen := by
    have hTyped := h.typed_of_ne hNe hEq
    rw [typesOf, merge_representative h.wellFormed.forest] at hOpen
    rw [merge_representative h.wellFormed.forest]
    split at hOpen
    · -- the merged class has kept the types of `a`
      rw [typesAt_merge h.wellFormed hNe, if_pos rfl] at hOpen
      exact absurd hOpen hTyped
    · rename_i hOther
      have hTop : u.representative p ≠ a := by
        rintro rfl
        exact hOther (.inl (representative_representative h.wellFormed.forest p).symm)
      rw [typesAt_merge h.wellFormed hNe, if_neg hTop, if_neg hOther] at hOpen
      rw [if_neg hOther]
      exact h.unknown p hOpen

/-- Nor does it do anything else, for both classes are typed, and so recorded. -/
theorem Conforms.rejoins_merge (h : Conforms forms u) {a b : Point}
    (hNe : u.representative a ≠ u.representative b) (hEq : forms a = forms b) :
    Rejoins forms u (u.merge a b) where
  conforms := h.merge hNe hEq
  joined hJoined := by
    rw [merge_representative h.wellFormed.forest, merge_representative h.wellFormed.forest, hJoined]
  recorded p := by
    have hA := h.wellFormed.contains_of_typed (h.typed_of_ne hNe hEq)
    have hB := h.wellFormed.contains_of_typed (h.typed_of_ne hNe.symm hEq.symm)
    show (u.classes.union a b).2.contains p = u.classes.contains p
    rw [UnionFind.contains_union h.wellFormed.forest]
    by_cases hpA : p = a
    · simp [hpA, hA]
    · by_cases hpB : p = b
      · simp [hpB, hB]
      · simp [hpA, hpB]
  reports := ⟨rfl, rfl, rfl, rfl⟩
  unchanged hApart := absurd (hApart a b hEq (h.typed_of_ne hNe hEq)) hNe

/-- Types of the same form are unified by `f` without a conflict, and without other
changes than merges. -/
def Unifier.Rejoins (f : Unifier) (forms : Point → Ty) : Prop :=
  ∀ left right u conflict u', Conforms forms u →
    left.eval Ty.plain forms = right.eval Ty.plain forms → f left right u = some (conflict, u') →
    conflict = false ∧ Unification.Rejoins forms u u'

/-- One pair after another. -/
theorem unifyEach_rejoins {f : Unifier} (hf : f.Rejoins forms) (pairs : List (Ty × Ty))
    {u u' : Unification} {conflict : Bool} (h : Conforms forms u)
    (hEqual : ∀ pair ∈ pairs, pair.1.eval Ty.plain forms = pair.2.eval Ty.plain forms)
    (hRun : unifyEach f pairs u = some (conflict, u')) :
    conflict = false ∧ Rejoins forms u u' := by
  induction pairs generalizing u conflict with
  | nil =>
    obtain ⟨rfl, rfl⟩ := unifyEach_nil_iff.mp hRun
    exact ⟨rfl, .refl h⟩
  | cons pair rest ih =>
    obtain ⟨left, right⟩ := pair
    obtain ⟨hFirstEqual, hRestEqual⟩ := List.forall_mem_cons.mp hEqual
    obtain ⟨c, v, c', hFirst, hLater, rfl⟩ := unifyEach_cons_iff.mp hRun
    obtain ⟨rfl, hRejoins⟩ := hf _ _ _ _ _ h hFirstEqual hFirst
    obtain ⟨rfl, hRejoins'⟩ := ih hRejoins.conforms hRestEqual hLater
    exact ⟨rfl, hRejoins.trans hRejoins'⟩

/-- Where both sides are known, their parts have the same forms too. -/
theorem unifyParts_rejoins {f : Unifier} (hf : f.Rejoins forms) {left right : Ty} {tag tag' : Tag}
    {children children' : List Ty} {emit emit' : Option String} {conflict : Bool}
    (h : Conforms forms u) (hEqual : left.eval Ty.plain forms = right.eval Ty.plain forms)
    (hLeft : u.Knows left (.con tag children emit))
    (hRight : u.Knows right (.con tag' children' emit'))
    (hRun : unifyParts f tag children tag' children' (u.touch left right) = some (conflict, u')) :
    conflict = false ∧ Rejoins forms u u' := by
  have hTouch : u.touch left right = u := by
    refine touch_of_contains fun p hp => h.wellFormed.contains_of_typed ?_
    rcases hp with rfl | rfl
    · exact hLeft.typed
    · exact hRight.typed
  have hKnown := (h.models.eval_known hLeft).symm.trans
    (hEqual.trans (h.models.eval_known hRight))
  -- forms are types, so equal forms have equal tags and equal children
  obtain ⟨hShape, hChildren⟩ := (Ty.eval_con_eq_iff Ty.plain_injective).mp hKnown
  rw [hTouch, unifyParts, if_pos hShape] at hRun
  exact unifyEach_rejoins hf _ h hChildren hRun

/-- One level of a unification, case by case. -/
theorem Level.rejoins {f : Unifier} (hf : f.Rejoins forms) {left right : Ty} {conflict : Bool}
    (h : Conforms forms u) (hEqual : left.eval Ty.plain forms = right.eval Ty.plain forms)
    (hDiffer : left.same right = false) (hLevel : Level f u left right (conflict, u')) :
    conflict = false ∧ Rejoins forms u u' := by
  cases hLevel with
  | same _ => exact ⟨rfl, .refl h⟩
  | @joined a b hRoots =>
    have hNe : a ≠ b := by
      rintro rfl
      simp at hDiffer
    rw [touch_of_contains]
    · exact ⟨rfl, .refl h⟩
    · rintro p (hp | hp)
      · exact Ty.point.inj hp ▸ h.wellFormed.contains_of_ne hNe hRoots
      · exact Ty.point.inj hp ▸ h.wellFormed.contains_of_ne hNe.symm hRoots.symm
  | @merged a b _ hNe hRest =>
    have hTouch : u.touch (.point a) (.point b) = u := by
      refine touch_of_contains fun p hp => h.wellFormed.contains_of_typed ?_
      rcases hp with hp | hp
      · exact Ty.point.inj hp ▸ h.typed_of_ne hNe hEqual
      · exact Ty.point.inj hp ▸ h.typed_of_ne hNe.symm hEqual.symm
    rw [hTouch] at hRest
    have hMerge := h.rejoins_merge hNe hEqual
    have hPairs : ∀ pair ∈ (u.typesAt (u.representative b)).map fun t => (Ty.point a, t),
        pair.1.eval Ty.plain forms = pair.2.eval Ty.plain forms := by
      intro pair hPair
      obtain ⟨t, ht, rfl⟩ := List.mem_map.mp hPair
      exact hEqual.trans (h.models.eval_eq ht)
    obtain ⟨hQuiet, hRejoins⟩ := unifyEach_rejoins hf _ hMerge.conforms hPairs hRest
    exact ⟨hQuiet, hMerge.trans hRejoins⟩
  | @pinned _ _ t p hSides hCon hOpen =>
    -- an unknown type is not equal to a constructed one
    have hForm : forms p = t.eval Ty.plain forms := by
      rcases hSides with ⟨rfl, rfl⟩ | ⟨rfl, rfl⟩
      · exact hEqual
      · exact hEqual.symm
    rw [h.unknown p hOpen] at hForm
    cases t with
    | point q => exact absurd rfl (hCon q)
    | con => cases hForm
  | compared hLeft hRight hParts => exact unifyParts_rejoins hf h hEqual hLeft hRight hParts
  | clashed hLeft hRight hParts =>
    exact absurd (unifyParts_rejoins hf h hEqual hLeft hRight hParts).1 (by simp)

/-- **Unifying types of the same form only merges classes of the same form.** -/
theorem unifyWithin_rejoins (fuel : Nat) : (unifyWithin fuel).Rejoins forms := by
  induction fuel with
  | zero =>
    intro left right u conflict u' _ _ hRun
    simp [unifyWithin] at hRun
  | succ fuel ih =>
    intro left right u conflict u' h hEqual hRun
    cases hSame : left.same right with
    | true =>
      simp only [unifyWithin, unifyStep, hSame, if_true, Option.some.injEq, Prod.mk.injEq] at hRun
      obtain ⟨rfl, rfl⟩ := hRun
      exact ⟨rfl, .refl h⟩
    | false => exact (unifyStep_level h.wellFormed hRun).rejoins ih h hEqual hSame

end Unification

-- ---------------------------------------------------------------------------
-- Groups
-- ---------------------------------------------------------------------------

/-- The groups of `f'` are those of `f`, except that groups with the same types may be
joined: every group is part of one with its types, and no point is new. -/
structure Finished.JoinsAlike (f f' : Finished) : Prop where
  kept : ∀ g ∈ f.groups, ∃ g' ∈ f'.groups, (∀ p ∈ g.nodes, p ∈ g'.nodes) ∧
    g'.types.map Ty.erase = g.types.map Ty.erase ∧ (g.types = [] → g' = g)
  old  : ∀ g' ∈ f'.groups, ∀ p ∈ g'.nodes, ∃ g ∈ f.groups, p ∈ g.nodes

/-- No two groups have the same types, unless they have none. -/
def Finished.ToldApart (f : Finished) : Prop :=
  ∀ g ∈ f.groups, ∀ g' ∈ f.groups, g.types ≠ [] →
    g.types.map Ty.erase = g'.types.map Ty.erase → g = g'

namespace Unification

variable {u u' : Unification} {forms : Point → Ty} {a : Arena} {f f' : Finished}

/-- A group is the group of any of its points. -/
theorem eq_of_mem_groups (h : u.finish a = .ok f) {g g' : Group} (hg : g ∈ f.groups)
    (hg' : g' ∈ f.groups) {p : Point} (hp : p ∈ g.nodes) (hp' : p ∈ g'.nodes) : g = g' :=
  (((groups_spec h).1 g).mp hg).eq_of_mem (((groups_spec h).1 g').mp hg') hp hp'

theorem exists_mem_nodes (h : u.finish a = .ok f) {g : Group} (hg : g ∈ f.groups) :
    ∃ p, p ∈ g.nodes :=
  List.exists_mem_of_ne_nil _ (((groups_spec h).1 g).mp hg).nodes_ne_nil

/-- **Merging classes of the same form joins groups with the same types.** -/
theorem Rejoins.joinsAlike (h : Conforms forms u) (hRejoins : Rejoins forms u u')
    (hFinish : u.finish a = .ok f) (hFinish' : u'.finish a = .ok f') : f.JoinsAlike f' where
  kept g hg := by
    obtain ⟨p, hp⟩ := exists_mem_nodes hFinish hg
    have hRecorded := contains_of_mem_group hFinish hg hp
    obtain ⟨same, hSame, hpSame, hTypes, hAlone, hClass⟩ := exists_group hFinish hRecorded
    obtain rfl := eq_of_mem_groups hFinish hg hSame hp hpSame
    obtain ⟨g', hg', hp', hTypes', hAlone', hClass'⟩ :=
      exists_group hFinish' ((hRejoins.recorded p).trans hRecorded)
    have hFound := h.found_same hRejoins.conforms p
    have hOpen : u'.typesOf p = [] ↔ u.typesOf p = [] := by
      rw [← h.found_eq_nil_iff, ← hRejoins.conforms.found_eq_nil_iff, ← List.map_eq_nil_iff,
        hFound, List.map_eq_nil_iff]
    -- a point without types is a group alone before and after, any other comes with its class
    refine ⟨g', hg', fun q hq => ?_, by rw [hTypes, hTypes', hFound], fun hNone => ?_⟩
    · by_cases hTyped : u.typesOf p = []
      · rw [hAlone hTyped, List.mem_singleton] at hq
        exact hq ▸ hp'
      · obtain ⟨hContains, hRoots⟩ := (hClass hTyped q).mp hq
        exact (hClass' (mt hOpen.mp hTyped) q).mpr
          ⟨(hRejoins.recorded q).trans hContains, hRejoins.joined hRoots⟩
    · have hUntyped := h.found_eq_nil_iff.mp (hTypes ▸ hNone)
      have hTypes'' : g'.types = [] := hTypes'.trans (found_of_open (hOpen.mpr hUntyped))
      exact congrArg₂ Group.mk ((hAlone' (hOpen.mpr hUntyped)).trans (hAlone hUntyped).symm)
        (hTypes''.trans hNone.symm)
  old g' hg' p hp := by
    have hRecorded := contains_of_mem_group hFinish' hg' hp
    rw [hRejoins.recorded] at hRecorded
    obtain ⟨g, hg, hp, -⟩ := exists_group hFinish hRecorded
    exact ⟨g, hg, hp⟩

/-- Groups that can be told apart by their types come from classes of different forms. -/
theorem Conforms.representative_eq_of_toldApart (h : Conforms forms u)
    (hFinish : u.finish a = .ok f) (hApart : f.ToldApart) {p q : Point} (hForm : forms p = forms q)
    (hTyped : u.Typed p) : u.representative p = u.representative q := by
  have hTyped' : u.Typed q := h.typed_iff.mpr (hForm ▸ h.typed_iff.mp hTyped)
  obtain ⟨g, hg, hp, hTypes, -, -⟩ :=
    exists_group hFinish (h.wellFormed.contains_of_typed hTyped)
  obtain ⟨g', hg', -, hTypes', -, hClass⟩ :=
    exists_group hFinish (h.wellFormed.contains_of_typed hTyped')
  have hSome : g.types ≠ [] := fun hNone => hTyped (h.found_eq_nil_iff.mp (hTypes ▸ hNone))
  have hSame : g.types.map Ty.erase = g'.types.map Ty.erase := by
    rw [hTypes, hTypes', h.map_erase_found hTyped, h.map_erase_found hTyped', hForm]
  obtain rfl := hApart g hg g' hg' hSome hSame
  exact ((hClass hTyped' p).mp hp).2

-- ---------------------------------------------------------------------------
-- The second call
-- ---------------------------------------------------------------------------

/-- What was unified without a report is equal in every solution. -/
theorem Reachable.entails_of_silent (hu : u.Reachable) {fuel : Nat} {left right : Ty}
    (hRun : u.unify fuel left right = some ([], u')) : u'.Entails left right := by
  intro A node σ hModels
  obtain ⟨conflict, v, hWithin, hNotes, rfl⟩ := unify_eq_some_iff.mp hRun
  have hSilent : v.journal = u.journal := by
    rw [hu.journal_eq_nil]
    exact List.reverse_eq_nil_iff.mp hNotes.symm
  exact (unifyWithin_reflectsModels fuel _ _ _ _ _ hu.wellFormed hWithin hSilent A node σ
    ⟨hModels.representative, hModels.types⟩).2

/-- A second unification of types of the same form ends. -/
theorem Conforms.unify_ends (h : Conforms forms u) {left right : Ty}
    (hEntails : u.Entails left right) : ∃ fuel result, u.unify fuel left right = some result := by
  -- with some tree for what is unknown the forms become a solution, and that bounds the call
  have hSolves : Solves _ u := h.models.eval_plain Tree.node fun _ => .node .block []
  obtain ⟨⟨conflict, v⟩, hRun⟩ := unifyWithin_ends _ _ left right u h.wellFormed hSolves
    (hEntails _ _ _ hSolves) (Nat.le_refl _)
  exact ⟨_, _, unify_eq_some_iff.mpr ⟨conflict, v, hRun, rfl, rfl⟩⟩

/--
**What a second call of the same unification does.** A call from a reachable state has
reported nothing, and all points that are recorded after it are allocated, so that there
are groups. If the state is acyclic and no group is in conflict, then the same call ends
once more, and however it ends:

* it reports nothing, raises no flag and changes no normal form;
* its groups are those of the first call, except that groups with the same types may be
  joined;
* if no two groups have the same types, the state is the same as before, and so are the
  groups.
-/
theorem unify_again {u u' : Unification} (hu : u.Reachable) {fuel : Nat} {left right : Ty}
    (hFirst : u.unify fuel left right = some ([], u')) {a : Arena}
    (hHeld : ∀ p, u'.classes.contains p = true → a.Holds p) :
    ∃ f, u'.finish a = .ok f ∧
      (u'.Acyclic → (∀ g ∈ f.groups, g.isConflicting = false) →
        (∃ fuel' result, u'.unify fuel' left right = some result) ∧
        ∀ fuel' notes u'', u'.unify fuel' left right = some (notes, u'') →
          notes = [] ∧ u''.hasError = u'.hasError ∧ u''.hasDropped = u'.hasDropped ∧
          (∀ t, (u''.apply t).same (u'.apply t) = true) ∧
          ∃ f', u''.finish a = .ok f' ∧ f.JoinsAlike f' ∧ (f.ToldApart → u'' = u' ∧ f' = f)) := by
  obtain ⟨f, hFinish⟩ := exists_finish hHeld
  refine ⟨f, hFinish, fun hAcyclic hNone => ?_⟩
  have hReachable := hu.unify hFirst
  have hFormed := hReachable.wellFormed
  -- the forms are the normal forms after the first call
  have h := conforms_normal hFormed hAcyclic (agreeing_of_no_conflict hFormed hFinish hNone)
  have hEntails := hu.entails_of_silent hFirst
  refine ⟨h.unify_ends hEntails, fun fuel' notes u'' hSecond => ?_⟩
  obtain ⟨conflict, v, hWithin, rfl, rfl⟩ := unify_eq_some_iff.mp hSecond
  obtain ⟨-, hRejoins⟩ := unifyWithin_rejoins fuel' _ _ _ _ _ h (hEntails _ _ _ h.models) hWithin
  have hJournal : v.journal = [] := hRejoins.reports.journal.trans hReachable.journal_eq_nil
  have hSame : { v with journal := [] } = v := by rw [← hJournal]
  rw [hSame, hJournal]
  refine ⟨rfl, hRejoins.reports.hasError, hRejoins.reports.hasDropped, fun t => ?_, ?_⟩
  · rw [Ty.same_iff, ← eval_normal, ← eval_normal, funext hRejoins.conforms.normal_eq]
  · obtain ⟨f', hFinish'⟩ := exists_finish (u := v) fun p hp =>
      hHeld p ((hRejoins.recorded p).symm.trans hp)
    refine ⟨f', hFinish', hRejoins.joinsAlike h hFinish hFinish', fun hApart => ?_⟩
    obtain rfl := hRejoins.unchanged fun p q => h.representative_eq_of_toldApart hFinish hApart
    exact ⟨rfl, Except.ok.inj (hFinish'.symm.trans hFinish)⟩

-- ---------------------------------------------------------------------------
-- Some calls and their repetition
-- ---------------------------------------------------------------------------

/-- A list of something. -/
def listOf (t : Ty) : Ty :=
  .con (.named ⟨6⟩) [t] none

/-- A type without parts. -/
def base (declaration : Nat) : Ty :=
  .con (.named ⟨declaration⟩) [] none

/-- Two types, to be unified with two others in one call. -/
def both (t t' : Ty) : Ty :=
  .con .tuple [t, t'] none

/-- Room for the points of the equations below. -/
def room : Arena :=
  ⟨#[default, default, default, default, default, default]⟩

/-- The states after a call and after its repetition, their groups, and what the
repetition reports. -/
structure Repetition where
  once   : Unification
  again  : Unification
  first  : Finished
  second : Finished
  notes  : List Note

/-- The call itself reports nothing. -/
def Repetition.Of (r : Repetition) (u : Unification) (left right : Ty) : Prop :=
  u.unify 6 left right = some ([], r.once) ∧ r.once.finish room = .ok r.first ∧
    r.once.unify 6 left right = some (r.notes, r.again) ∧ r.again.finish room = .ok r.second

/-- A fork of the state after some equations. -/
def after (equations : List (Ty × Ty)) : Option Unification :=
  (equations.foldlM (fun (u : Unification) e => (u.unify 6 e.1 e.2).map Prod.snd) {}).map fork

/-- A call after some equations, and its repetition. -/
def repetition (equations : List (Ty × Ty)) (left right : Ty) : Option Repetition := do
  let u ← after equations
  let (notes, once) ← u.unify 6 left right
  let first ← (once.finish room).toOption
  let (notes', again) ← once.unify 6 left right
  let second ← (again.finish room).toOption
  if notes = [] then some ⟨once, again, first, second, notes'⟩ else none

/-- Some equations lead to a reachable state. -/
theorem reachable_after {equations : List (Ty × Ty)} (h : after equations = some u) :
    u.Reachable := by
  have hAll : ∀ (equations : List (Ty × Ty)) (v v' : Unification), v.Reachable →
      equations.foldlM (fun (u : Unification) e => (u.unify 6 e.1 e.2).map Prod.snd) v = some v' →
      v'.Reachable := by
    intro equations
    induction equations with
    | nil =>
      intro v v' hv hFold
      exact Option.some.inj hFold ▸ hv
    | cons e equations ih =>
      intro v v' hv hFold
      simp only [List.foldlM_cons, Option.bind_eq_bind, Option.bind_eq_some_iff,
        Option.map_eq_some_iff] at hFold
      obtain ⟨_, ⟨⟨notes, next⟩, hRun, rfl⟩, hRest⟩ := hFold
      exact ih _ _ (hv.unify hRun) hRest
  obtain ⟨v, hFold, rfl⟩ := Option.map_eq_some_iff.mp h
  exact (hAll equations _ v .empty hFold).fork

/-- A repetition that passes a check exists. -/
theorem exists_of_repetition {equations : List (Ty × Ty)} {left right : Ty}
    {check : Repetition → Bool} (h : (repetition equations left right).any check = true) :
    ∃ (u : Unification) (r : Repetition), u.Reachable ∧ r.Of u left right ∧ check r = true := by
  have hOk : ∀ (answer : Except Fault Finished) (f : Finished), answer.toOption = some f →
      answer = .ok f := by
    intro answer f hSome
    cases answer with
    | error e => cases hSome
    | ok f' => exact congrArg Except.ok (Option.some.inj hSome)
  obtain ⟨r, hr, hCheck⟩ := (Option.any_eq_true _ _).mp h
  simp only [repetition, Option.bind_eq_bind, Option.bind_eq_some_iff] at hr
  obtain ⟨u, hAfter, ⟨notes, once⟩, hOnce, first, hFirst, ⟨notes', again⟩, hAgain, second,
    hSecond, hResult⟩ := hr
  split at hResult
  · rename_i hQuiet
    subst hQuiet
    obtain rfl := Option.some.inj hResult
    exact ⟨u, ⟨once, again, first, second, notes'⟩, reachable_after hAfter,
      ⟨hOnce, hOk _ _ hFirst, hAgain, hOk _ _ hSecond⟩, hCheck⟩
  · cases hResult

/-- Point 0 is made a list of point 2, and points 0 and 1 are made equal. The second time
all of it is done already. -/
theorem unify_again_lists :
    ∃ (u : Unification) (r : Repetition), u.Reachable ∧
      r.Of u (both (.point ⟨0⟩) (.point ⟨1⟩)) (both (listOf (.point ⟨2⟩)) (.point ⟨0⟩)) ∧
      r.first.groups.map Group.nodes = [[⟨0⟩, ⟨1⟩]] ∧ r.notes = [] ∧ r.again = r.once ∧
      r.second = r.first := by
  have hCheck : (repetition [] (both (.point ⟨0⟩) (.point ⟨1⟩))
      (both (listOf (.point ⟨2⟩)) (.point ⟨0⟩))).any (fun r => !r.once.hasCycle &&
        r.once.classes.points.all (fun p => decide (room.Holds p)) &&
        r.first.groups.all (fun g => !g.isConflicting) &&
        decide (r.first.groups.map Group.nodes = [[⟨0⟩, ⟨1⟩]])) = true := by decide +kernel
  obtain ⟨u, r, hu, ⟨hOnce, hFirst, hAgain, hSecond⟩, hr⟩ := exists_of_repetition hCheck
  simp only [Bool.and_eq_true, Bool.not_eq_true', List.all_eq_true, decide_eq_true_eq] at hr
  obtain ⟨⟨⟨hCycle, hRoom⟩, hNone⟩, hGroups⟩ := hr
  have hHeld : ∀ p, r.once.classes.contains p = true → room.Holds p := fun p hp =>
    hRoom p (UnionFind.mem_points.mpr hp)
  obtain ⟨f, hFinish, hSettled⟩ := unify_again hu hOnce hHeld
  obtain rfl := Except.ok.inj (hFinish.symm.trans hFirst)
  obtain ⟨-, hSecondCall⟩ := hSettled (hasCycle_eq_false_iff.mp hCycle) hNone
  obtain ⟨hNotes, -, -, -, f', hFinish', -, hSame⟩ := hSecondCall 6 _ _ hAgain
  obtain rfl := Except.ok.inj (hFinish'.symm.trans hSecond)
  have hApart : r.first.ToldApart := by
    obtain ⟨g, hOnly⟩ := List.length_eq_one_iff.mp
      ((List.length_map _).symm.trans (congrArg List.length hGroups))
    intro g' hg' g'' hg'' _ _
    rw [hOnly, List.mem_singleton] at hg' hg''
    rw [hg', hg'']
  obtain ⟨hAgain', hSecond'⟩ := hSame hApart
  exact ⟨u, r, hu, ⟨hOnce, hFirst, hAgain, hSecond⟩, hGroups, hNotes, hAgain', hSecond'⟩

/-- **Second calls that are not like the first.** One joins two groups with the same type,
in a state without cycles and conflicts. One finds a conflict, because a class had two
types before. One changes the type of a group, because that was recursive before. -/
theorem unify_again_differs :
    (∃ (u : Unification) (r : Repetition), u.Reachable ∧
      r.Of u (both (.point ⟨0⟩) (.point ⟨1⟩)) (both (listOf (.point ⟨2⟩)) (.point ⟨0⟩)) ∧
      r.once.hasCycle = false ∧ (∀ g ∈ r.first.groups, g.isConflicting = false) ∧
      r.first.groups.map Group.nodes = [[⟨0⟩, ⟨1⟩], [⟨2⟩], [⟨3⟩]] ∧
      r.second.groups.map Group.nodes = [[⟨0⟩, ⟨1⟩], [⟨2⟩, ⟨3⟩]]) ∧
    (∃ (u : Unification) (r : Repetition), u.Reachable ∧
      r.Of u (both (listOf (.point ⟨2⟩)) (.point ⟨1⟩)) (both (.point ⟨0⟩) (.point ⟨0⟩)) ∧
      r.once.hasCycle = false ∧ r.once.hasError = false ∧ r.again.hasError = true ∧
      r.notes = [.conflict (.named ⟨7⟩) (.named ⟨8⟩)]) ∧
    (∃ (u : Unification) (r : Repetition), u.Reachable ∧
      r.Of u (both (.point ⟨0⟩) (.point ⟨1⟩)) (both (listOf (.point ⟨2⟩)) (.point ⟨0⟩)) ∧
      r.once.hasCycle = true ∧ (∀ g ∈ r.first.groups, g.isConflicting = false) ∧
      r.first.groups.map (fun g => g.types.flatMap Ty.points) = [[⟨2⟩], [⟨2⟩], [⟨2⟩]] ∧
      r.second.groups.map (fun g => g.types.flatMap Ty.points) = [[⟨3⟩], [⟨3⟩]]) := by
  have hJoined : (repetition [(.point ⟨0⟩, listOf (base 7)), (.point ⟨1⟩, listOf (.point ⟨3⟩))]
      (both (.point ⟨0⟩) (.point ⟨1⟩)) (both (listOf (.point ⟨2⟩)) (.point ⟨0⟩))).any (fun r =>
        !r.once.hasCycle && r.first.groups.all (fun g => !g.isConflicting) &&
        decide (r.first.groups.map Group.nodes = [[⟨0⟩, ⟨1⟩], [⟨2⟩], [⟨3⟩]]) &&
        decide (r.second.groups.map Group.nodes = [[⟨0⟩, ⟨1⟩], [⟨2⟩, ⟨3⟩]])) = true := by
    decide +kernel
  have hClash : (repetition [(.point ⟨0⟩, listOf (base 7)), (.point ⟨1⟩, listOf (.point ⟨3⟩)),
        (.point ⟨3⟩, base 7), (.point ⟨3⟩, base 8)]
      (both (listOf (.point ⟨2⟩)) (.point ⟨1⟩)) (both (.point ⟨0⟩) (.point ⟨0⟩))).any (fun r =>
        !r.once.hasCycle && !r.once.hasError && r.again.hasError &&
        decide (r.notes = [.conflict (.named ⟨7⟩) (.named ⟨8⟩)])) = true := by
    decide +kernel
  have hChanged : (repetition [(.point ⟨2⟩, listOf (.point ⟨5⟩)), (.point ⟨2⟩, .point ⟨5⟩),
        (.point ⟨3⟩, listOf (.point ⟨2⟩)), (.point ⟨0⟩, listOf (listOf (.point ⟨2⟩))),
        (.point ⟨1⟩, listOf (.point ⟨3⟩))]
      (both (.point ⟨0⟩) (.point ⟨1⟩)) (both (listOf (.point ⟨2⟩)) (.point ⟨0⟩))).any (fun r =>
        r.once.hasCycle && r.first.groups.all (fun g => !g.isConflicting) &&
        decide (r.first.groups.map (fun g => g.types.flatMap Ty.points) = [[⟨2⟩], [⟨2⟩], [⟨2⟩]]) &&
        decide (r.second.groups.map (fun g => g.types.flatMap Ty.points) = [[⟨3⟩], [⟨3⟩]])) =
        true := by
    decide +kernel
  refine ⟨?_, ?_, ?_⟩
  · obtain ⟨u, r, hu, hOf, hr⟩ := exists_of_repetition hJoined
    simp only [Bool.and_eq_true, Bool.not_eq_true', List.all_eq_true, decide_eq_true_eq] at hr
    exact ⟨u, r, hu, hOf, hr.1.1.1, hr.1.1.2, hr.1.2, hr.2⟩
  · obtain ⟨u, r, hu, hOf, hr⟩ := exists_of_repetition hClash
    simp only [Bool.and_eq_true, Bool.not_eq_true', decide_eq_true_eq] at hr
    exact ⟨u, r, hu, hOf, hr.1.1.1, hr.1.1.2, hr.1.2, hr.2⟩
  · obtain ⟨u, r, hu, hOf, hr⟩ := exists_of_repetition hChanged
    simp only [Bool.and_eq_true, Bool.not_eq_true', List.all_eq_true, decide_eq_true_eq] at hr
    exact ⟨u, r, hu, hOf, hr.1.1.1, hr.1.1.2, hr.1.2, hr.2⟩

end Unification

end TraitInference
