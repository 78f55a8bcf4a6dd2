import Mathlib.Data.List.Pairwise
import Mathlib.Data.List.Sort
import TraitInference.Proofs.Resolution
import TraitInference.Proofs.Grouping

/-!
# TraitInference — groups are the canonical presentation of the classes

The groups of a state say which points are one class and what types it has. That alone
leaves open in which order points, groups and types stand. `Presents` fixes it by the
source text, and so well that there is one answer only.

* `Arena.inSourceOrder_eq_ok_iff` — source order is the one arrangement of the items in
  which each stands strictly before the next. Points of equal spans, such as a template
  and its copies, are told apart by their numbers.
* `Presents.unique` — at most one answer presents a state.
* `finishVia_eq` — the order in which points and classes are met does not matter.
* `finish_canonical` — **the answer is the canonical presentation**, whatever the order in
  which tables are gone through.
-/

namespace TraitInference

-- ---------------------------------------------------------------------------
-- Source order
-- ---------------------------------------------------------------------------

/-- Positions are compared by where they start, where they stop and who was first. -/
theorem Position.compare_eq_lt {x y : Position} : compare x y = .lt ↔
    x.start < y.start ∨ x.start = y.start ∧
      (x.stop < y.stop ∨ x.stop = y.stop ∧ x.index < y.index) := by
  show cmp x y = .lt ↔ _
  simp only [cmp, compareLex, compareOn, Ordering.then_eq_lt, Nat.compare_eq_lt,
    Nat.compare_eq_eq]

namespace Arena

variable {α : Type} {a : Arena} {key : α → Point} {xs ys : List α} {p q : Point}

/-- The text of `p` starts before that of `q`; or it ends before, where both start in one
place; or it is the same and `p` was allocated first. -/
def Before (a : Arena) (p q : Point) : Prop :=
  ∃ s s', a.site p = .ok s ∧ a.site q = .ok s' ∧
    (s.span.start < s'.span.start ∨ s.span.start = s'.span.start ∧
      (s.span.stop < s'.span.stop ∨ s.span.stop = s'.span.stop ∧ p.index < q.index))

/-- Not both of two points stand before the other. -/
theorem Before.asymm (h : a.Before p q) : ¬ a.Before q p := by
  rintro ⟨s, s', hq, hp, hLess⟩
  obtain ⟨t, t', hp', hq', hLess'⟩ := h
  obtain rfl := Except.ok.inj (hp.symm.trans hp')
  obtain rfl := Except.ok.inj (hq.symm.trans hq')
  omega

theorem before_of_position {x y : Position} (hp : a.position p = .ok x)
    (hq : a.position q = .ok y) (hLess : compare x y = .lt) : a.Before p q := by
  unfold position at hp hq
  cases hSite : a.site p with
  | error e =>
    rw [hSite] at hp
    cases hp
  | ok s =>
    cases hSite' : a.site q with
    | error e =>
      rw [hSite'] at hq
      cases hq
    | ok s' =>
      rw [hSite] at hp
      rw [hSite'] at hq
      obtain rfl := Except.ok.inj hp
      obtain rfl := Except.ok.inj hq
      exact ⟨s, s', hSite, hSite', Position.compare_eq_lt.mp hLess⟩

/-- There is one way to arrange items from before to after. -/
theorem eq_of_pairwise_before (key : α → Point)
    (hx : xs.Pairwise fun x y => a.Before (key x) (key y))
    (hy : ys.Pairwise fun x y => a.Before (key x) (key y)) (hMem : ∀ x, x ∈ xs ↔ x ∈ ys) :
    xs = ys := by
  have hAntisymm : Std.Antisymm fun x y => a.Before (key x) (key y) :=
    ⟨fun x y h h' => absurd h' h.asymm⟩
  have hIrrefl : Std.Irrefl fun x y => a.Before (key x) (key y) := ⟨fun x h => h.asymm h⟩
  exact hx.eq_of_mem_iff hy hMem

/-- What is put in source order stands in it. -/
theorem pairwise_inSourceOrder (h : a.inSourceOrder key xs = .ok ys) :
    ys.Pairwise fun x y => a.Before (key x) (key y) := by
  unfold inSourceOrder at h
  split at h
  · obtain rfl := Except.ok.inj h
    exact .nil
  · obtain rfl := Except.ok.inj h
    exact List.pairwise_singleton _ _
  · -- two items or more are listed with their positions as keys, and keys are ordered
    cases hPlaced : xs.mapM (fun x => do return (← a.position (key x), x)) with
    | error e =>
      rw [hPlaced] at h
      cases h
    | ok placed =>
      rw [hPlaced] at h
      obtain rfl := Except.ok.inj h
      have hPosition : ∀ z ∈ (Std.ExtTreeMap.ofList placed compare).toList,
          a.position (key z.2) = .ok z.1 := fun z hz => (placed_spec hPlaced).2 z
        (Entries.mem_of_getElem?_ofList (Std.ExtTreeMap.mem_toList_iff_getElem?_eq_some.mp hz))
      rw [Entries.values_eq, List.pairwise_map]
      exact Std.ExtTreeMap.ordered_keys_toList.imp_of_mem fun hz hz' hLess =>
        before_of_position (hPosition _ hz) (hPosition _ hz') hLess

/-- **Source order is the only order from before to after**, for items that belong to
different allocated points. -/
theorem inSourceOrder_eq_ok_iff (hHeld : ∀ x ∈ xs, a.Holds (key x))
    (hKey : ∀ x ∈ xs, ∀ y ∈ xs, key x = key y → x = y) :
    a.inSourceOrder key xs = .ok ys ↔
      (∀ y, y ∈ ys ↔ y ∈ xs) ∧ ys.Pairwise fun x y => a.Before (key x) (key y) := by
  constructor
  · intro h
    exact ⟨(inSourceOrder_spec h hKey).1, pairwise_inSourceOrder h⟩
  · rintro ⟨hMem, hOrder⟩
    obtain ⟨zs, hz⟩ := a.exists_inSourceOrder hHeld
    have hSame : ∀ x, x ∈ ys ↔ x ∈ zs := fun x =>
      (hMem x).trans ((inSourceOrder_spec hz hKey).1 x).symm
    rw [hz, eq_of_pairwise_before key hOrder (pairwise_inSourceOrder hz) hSame]

end Arena

-- ---------------------------------------------------------------------------
-- Types without repetition
-- ---------------------------------------------------------------------------

theorem Ty.same_comm (t t' : Ty) : t.same t' = t'.same t :=
  Bool.eq_iff_iff.mpr ⟨same_symm, same_symm⟩

/-- Of types that are the same the first is kept. -/
theorem Ty.distinct_eq_eraseDupsBy (ts : List Ty) : distinct ts = ts.eraseDupsBy same := by
  -- the two loops collect in opposite orders
  have hKept : ∀ kept : List Ty,
      ts.foldl (fun kept t => if kept.any (·.same t) then kept else kept ++ [t]) kept =
        List.eraseDupsBy.loop same ts kept.reverse := by
    induction ts with
    | nil =>
      intro kept
      rw [List.eraseDupsBy.loop, List.reverse_reverse]
      rfl
    | cons t ts ih =>
      intro kept
      have hAny : kept.reverse.any (t.same ·) = kept.any (·.same t) := by
        rw [List.any_reverse]
        simp only [same_comm]
      rw [List.foldl_cons, ih, List.eraseDupsBy.loop, hAny]
      cases kept.any (·.same t) with
      | true => rfl
      | false => simp
  exact hKept []

namespace Unification

variable {u : Unification} {a : Arena} {f f' : Finished} {g g' : Group} {p q : Point}

-- ---------------------------------------------------------------------------
-- Presentations
-- ---------------------------------------------------------------------------

/-- An answer presents the classes of a state. -/
structure Presents (u : Unification) (a : Arena) (f : Finished) : Prop where
  /-- No point stands in the groups twice. -/
  once     : (f.groups.flatMap Group.nodes).Nodup
  /-- The points in the groups are those that are recorded. -/
  recorded : ∀ p, p ∈ f.groups.flatMap Group.nodes ↔ u.classes.contains p = true
  /-- Two points are in one group if they are one class and this has types. -/
  together : ∀ p q, p ≠ q → ((∃ g ∈ f.groups, p ∈ g.nodes ∧ q ∈ g.nodes) ↔
    u.representative p = u.representative q ∧ u.typesOf p ≠ [])
  nonempty : ∀ g ∈ f.groups, g.nodes ≠ []
  /-- The points of a group stand in source order. -/
  nodes    : ∀ g ∈ f.groups, g.nodes.Pairwise a.Before
  /-- The groups stand in the source order of their first points. -/
  groups   : f.groups.Pairwise fun g g' =>
    ∀ p ∈ g.nodes.head?, ∀ q ∈ g'.nodes.head?, a.Before p q
  /-- A group has the types of its class in normal form, of those that are the same the
  first. -/
  typed    : ∀ g ∈ f.groups, ∀ p ∈ g.nodes, u.typesOf p ≠ [] →
    g.types = ((u.typesOf p).map u.apply).eraseDupsBy Ty.same
  /-- A point of a class without types is alone. -/
  untyped  : ∀ g ∈ f.groups, ∀ p ∈ g.nodes, u.typesOf p = [] → g = ⟨[p], []⟩
  /-- What was kept for the end is where it was, with every type in normal form. -/
  deferred : ∀ (i : Nat) (x : Parameter),
    f.deferred[i]?.map (·[x]?) = u.deferred[i]?.map fun s => s[x]?.map u.apply

/-- A group is known by any of its points. -/
theorem Presents.eq_of_mem (h : u.Presents a f) (hg : g ∈ f.groups) (hg' : g' ∈ f.groups)
    (hp : p ∈ g.nodes) (hp' : p ∈ g'.nodes) : g = g' := by
  by_contra hNe
  have hApart := (List.nodup_flatMap.mp h.once).2
  have hSymm : Std.Symm (Function.onFun List.Disjoint Group.nodes) :=
    ⟨fun _ _ h _ hp hp' => h hp' hp⟩
  exact hApart.forall hg hg' hNe hp hp'

/-- Every recorded point has a group. -/
theorem Presents.exists_group (h : u.Presents a f) (hp : u.classes.contains p = true) :
    ∃ g ∈ f.groups, p ∈ g.nodes :=
  List.mem_flatMap.mp ((h.recorded p).mpr hp)

/-- The points of a group with types are those of its class. -/
theorem Presents.mem_nodes_iff (h : u.Presents a f) (hg : g ∈ f.groups) (hp : p ∈ g.nodes)
    (hTyped : u.typesOf p ≠ []) :
    q ∈ g.nodes ↔ q = p ∨ u.representative p = u.representative q := by
  by_cases hEq : q = p
  · exact ⟨fun _ => .inl hEq, fun _ => hEq ▸ hp⟩
  · have hTogether := h.together p q (Ne.symm hEq)
    constructor
    · intro hq
      exact .inr (hTogether.mp ⟨g, hg, hp, hq⟩).1
    · rintro (hSame | hSame)
      · exact absurd hSame hEq
      · obtain ⟨g', hg', hp', hq'⟩ := hTogether.mpr ⟨hSame, hTyped⟩
        rwa [h.eq_of_mem hg hg' hp hp']

/-- The groups of one point in two presentations are the same. -/
theorem Presents.group_eq (h : u.Presents a f) (h' : u.Presents a f') (hg : g ∈ f.groups)
    (hg' : g' ∈ f'.groups) (hp : p ∈ g.nodes) (hp' : p ∈ g'.nodes) : g = g' := by
  by_cases hOpen : u.typesOf p = []
  · rw [h.untyped g hg p hp hOpen, h'.untyped g' hg' p hp' hOpen]
  · have hNodes : g.nodes = g'.nodes := Arena.eq_of_pairwise_before id (h.nodes g hg)
      (h'.nodes g' hg') fun q =>
        (h.mem_nodes_iff hg hp hOpen).trans (h'.mem_nodes_iff hg' hp' hOpen).symm
    have hTypes : g.types = g'.types := by
      rw [h.typed g hg p hp hOpen, h'.typed g' hg' p hp' hOpen]
    cases g
    cases g'
    cases hNodes
    cases hTypes
    rfl

/-- So two presentations have the same groups. -/
theorem Presents.mem_groups (h : u.Presents a f) (h' : u.Presents a f') (hg : g ∈ f.groups) :
    g ∈ f'.groups := by
  obtain ⟨p, hp⟩ := List.exists_mem_of_ne_nil _ (h.nonempty g hg)
  have hRecorded := (h.recorded p).mp (List.mem_flatMap.mpr ⟨g, hg, hp⟩)
  obtain ⟨g', hg', hp'⟩ := h'.exists_group hRecorded
  rwa [h.group_eq h' hg hg' hp hp']

theorem headD_mem_head? (h : g.nodes ≠ []) : g.nodes.headD default ∈ g.nodes.head? := by
  cases hNodes : g.nodes with
  | nil => exact absurd hNodes h
  | cons p ps => rfl

/-- The groups stand in the order of their first points. -/
theorem Presents.pairwise_first (h : u.Presents a f) :
    f.groups.Pairwise fun g g' => a.Before (g.nodes.headD default) (g'.nodes.headD default) :=
  h.groups.imp_of_mem fun hg hg' hFirst => hFirst _ (headD_mem_head? (h.nonempty _ hg)) _
    (headD_mem_head? (h.nonempty _ hg'))

/-- **There is one presentation of a state.** -/
theorem Presents.unique (h : u.Presents a f) (h' : u.Presents a f') : f = f' := by
  have hGroups : f.groups = f'.groups :=
    Arena.eq_of_pairwise_before _ h.pairwise_first h'.pairwise_first fun g =>
      ⟨h.mem_groups h', h'.mem_groups h⟩
  -- entry by entry and parameter by parameter
  have hDeferred : f.deferred = f'.deferred := by
    refine List.ext_getElem? fun i => ?_
    have hEach : ∀ x : Parameter, f'.deferred[i]?.map (·[x]?) = f.deferred[i]?.map (·[x]?) :=
      fun x => (h'.deferred i x).trans (h.deferred i x).symm
    cases hs : f.deferred[i]? with
    | none =>
      simp only [hs, Option.map_none, Option.map_eq_none_iff] at hEach
      exact (hEach default).symm
    | some s =>
      simp only [hs, Option.map_some, Option.map_eq_some_iff] at hEach
      obtain ⟨s', hs', -⟩ := hEach default
      rw [hs']
      refine congrArg some (Std.ExtTreeMap.ext_getElem? fun x => ?_)
      obtain ⟨s'', hs'', hx⟩ := hEach x
      obtain rfl := Option.some.inj (hs'.symm.trans hs'')
      exact hx.symm
  cases f
  cases f'
  cases hGroups
  cases hDeferred
  rfl

-- ---------------------------------------------------------------------------
-- The groups of a state present it
-- ---------------------------------------------------------------------------

/-- The points of a group stand in source order, be it only one. -/
theorem IsGroup.pairwise_before (h : u.IsGroup a g) : g.nodes.Pairwise a.Before := by
  obtain ⟨r, ns, -, hNodes, hg⟩ := h
  rcases mem_groupsOf.mp hg with ⟨-, q, -, rfl⟩ | ⟨-, rfl⟩
  · exact List.pairwise_singleton _ _
  · exact Arena.pairwise_inSourceOrder hNodes

theorem getElem?_finish_deferred (h : u.finish a = .ok f) (i : Nat) (x : Parameter) :
    f.deferred[i]?.map (·[x]?) = u.deferred[i]?.map fun s => s[x]?.map u.apply := by
  rw [finish_deferred h, List.getElem?_map, Option.map_map]
  refine Option.map_congr fun s _ => ?_
  exact Std.ExtTreeMap.getElem?_map

/-- The points of all groups are those that are recorded. -/
theorem mem_flatMap_nodes_iff (h : u.finish a = .ok f) :
    p ∈ f.groups.flatMap Group.nodes ↔ u.classes.contains p = true := by
  rw [List.mem_flatMap]
  constructor
  · rintro ⟨g, hg, hp⟩
    exact contains_of_mem_group h hg hp
  · intro hp
    obtain ⟨g, hg, hp, -⟩ := exists_group h hp
    exact ⟨g, hg, hp⟩

/-- And none of them stands there twice. -/
theorem nodup_flatMap_nodes (h : u.finish a = .ok f) :
    (f.groups.flatMap Group.nodes).Nodup := by
  obtain ⟨hMem, hNodup⟩ := groups_spec h
  refine List.nodup_flatMap.mpr ⟨fun g hg => ((hMem g).mp hg).nodup, ?_⟩
  refine hNodup.imp_of_mem fun {g g'} hg hg' hNe p hp hp' => hNe ?_
  exact ((hMem g).mp hg).eq_of_mem ((hMem g').mp hg') hp hp'

/-- What `exists_group` says of a group of the point holds of any, for there is only one. -/
theorem group_of_mem (h : u.finish a = .ok f) (hg : g ∈ f.groups) (hp : p ∈ g.nodes) :
    g.types = u.found p ∧ (u.typesOf p = [] → g.nodes = [p]) ∧
      (u.typesOf p ≠ [] → ∀ q, q ∈ g.nodes ↔
        u.classes.contains q = true ∧ u.representative q = u.representative p) := by
  obtain ⟨hMem, -⟩ := groups_spec h
  obtain ⟨g', hg', hp', hFacts⟩ := exists_group h (contains_of_mem_group h hg hp)
  rwa [((hMem g).mp hg).eq_of_mem ((hMem g').mp hg') hp hp']

/-- Two points share a group exactly if they share a class that has types. -/
theorem exists_group_iff (hFormed : u.WellFormed) (h : u.finish a = .ok f) (hNe : p ≠ q) :
    (∃ g ∈ f.groups, p ∈ g.nodes ∧ q ∈ g.nodes) ↔
      u.representative p = u.representative q ∧ u.typesOf p ≠ [] := by
  constructor
  · rintro ⟨g, hg, hp, hq⟩
    obtain ⟨-, hAlone, hClass⟩ := group_of_mem h hg hp
    have hTyped : u.typesOf p ≠ [] := by
      intro hOpen
      rw [hAlone hOpen, List.mem_singleton] at hq
      exact hNe hq.symm
    exact ⟨((hClass hTyped q).mp hq).2.symm, hTyped⟩
  · rintro ⟨hSame, hTyped⟩
    have hTyped' : u.typesOf q ≠ [] := by rwa [typesOf, ← hSame]
    obtain ⟨g, hg, hp, -, -, hClass⟩ := exists_group h (hFormed.contains_of_typed hTyped)
    exact ⟨g, hg, hp, (hClass hTyped q).mpr ⟨hFormed.contains_of_typed hTyped', hSame.symm⟩⟩

/-- **What is read off a state presents it.** -/
theorem presents_finish (hFormed : u.WellFormed) (h : u.finish a = .ok f) : u.Presents a f where
  once := nodup_flatMap_nodes h
  recorded _ := mem_flatMap_nodes_iff h
  together _ _ := exists_group_iff hFormed h
  nonempty g hg := (((groups_spec h).1 g).mp hg).nodes_ne_nil
  nodes g hg := (((groups_spec h).1 g).mp hg).pairwise_before
  groups := by
    obtain ⟨_, _, _, hOrder⟩ := finish_spec h
    refine (Arena.pairwise_inSourceOrder hOrder).imp ?_
    intro g g' hBefore p hp q hq
    rw [List.headD_eq_head?_getD, List.headD_eq_head?_getD, hp, hq] at hBefore
    exact hBefore
  typed g hg p hp _ := by
    rw [(group_of_mem h hg hp).1, found, Ty.distinct_eq_eraseDupsBy]
  untyped g hg p hp hOpen := by
    obtain ⟨hTypes, hAlone, -⟩ := group_of_mem h hg hp
    obtain ⟨nodes, types⟩ := g
    obtain rfl : nodes = [p] := hAlone hOpen
    rw [found, hOpen] at hTypes
    obtain rfl : types = [] := hTypes
    rfl
  deferred := getElem?_finish_deferred h

-- ---------------------------------------------------------------------------
-- The order in which tables are gone through
-- ---------------------------------------------------------------------------

/-- Finishing, with the recorded points met in the order `ps` and the classes in the order
of their representatives in `rs`. -/
def finishVia (u : Unification) (a : Arena) (ps rs : List Point) : Except Fault Finished := do
  let groups ← rs.mapM fun r => do
    return u.groupsOf r (← a.inSourceOrder id (ps.filter (u.representative · = r)))
  let groups ← a.arrange groups.flatten
  return { groups, deferred := u.deferred.map u.applyAll }

variable {ps rs : List Point}

/-- The points of a class are sorted, so it does not matter how they were met. -/
theorem inSourceOrder_of_perm_points (hHeld : ∀ p, u.classes.contains p = true → a.Holds p)
    (hps : ps.Perm u.classes.points) (r : Point) :
    a.inSourceOrder id (ps.filter (u.representative · = r)) =
      a.inSourceOrder id (u.classOf r) := by
  have hMem : ∀ p, p ∈ ps.filter (u.representative · = r) ↔ p ∈ u.classOf r := fun p =>
    (hps.filter _).mem_iff
  have hClass : ∀ p ∈ u.classOf r, a.Holds p := fun p hp => hHeld p (mem_classOf.mp hp).1
  obtain ⟨ns, hNodes⟩ : ∃ ns, a.inSourceOrder id (u.classOf r) = .ok ns :=
    a.exists_inSourceOrder hClass
  rw [hNodes]
  refine (Arena.inSourceOrder_eq_ok_iff (fun p hp => hClass p ((hMem p).mp hp))
    fun _ _ _ _ => id).mpr ⟨fun p => ?_, Arena.pairwise_inSourceOrder hNodes⟩
  rw [(mem_of_inSourceOrder_classOf hNodes).1, hMem]

/-- In whatever order the classes are met, the groups of all of them are met. -/
theorem mem_flatten_iff_isGroup {each : List (List Group)} (hrs : rs.Perm u.members.keys)
    (hEach : rs.mapM (fun r => (a.inSourceOrder id (u.classOf r)).map (u.groupsOf r)) =
      .ok each) : g ∈ each.flatten ↔ u.IsGroup a g := by
  have hOne : ∀ r gs, (a.inSourceOrder id (u.classOf r)).map (u.groupsOf r) = .ok gs ↔
      ∃ ns, a.inSourceOrder id (u.classOf r) = .ok ns ∧ u.groupsOf r ns = gs := by
    intro r gs
    cases a.inSourceOrder id (u.classOf r) with
    | error e => simp [Except.map]
    | ok ns => simp [Except.map]
  -- the classes that are listed are those with points
  have hRoots : ∀ r, r ∈ rs ↔ u.classOf r ≠ [] := by
    intro r
    rw [hrs.mem_iff, Std.ExtTreeMap.mem_keys, ← Std.ExtTreeMap.isSome_getElem?_iff_mem,
      getElem?_members]
    split
    · rename_i hNone
      simp [hNone]
    · rename_i hSome
      simp [hSome]
  obtain ⟨hSound, hComplete⟩ := mem_of_mapM_eq_ok hEach
  rw [List.mem_flatten]
  constructor
  · rintro ⟨gs, hgs, hg⟩
    obtain ⟨r, hr, hRead⟩ := hSound gs hgs
    obtain ⟨ns, hNodes, rfl⟩ := (hOne r gs).mp hRead
    exact ⟨r, ns, (hRoots r).mp hr, hNodes, hg⟩
  · rintro ⟨r, ns, hClass, hNodes, hg⟩
    obtain ⟨gs, hgs, hRead⟩ := hComplete r ((hRoots r).mpr hClass)
    obtain ⟨ns', hNodes', rfl⟩ := (hOne r gs).mp hRead
    obtain rfl := Except.ok.inj (hNodes.symm.trans hNodes')
    exact ⟨_, hgs, hg⟩

/-- **In whatever order points and classes are met, the answer is the same.** -/
theorem finishVia_eq (hHeld : ∀ p, u.classes.contains p = true → a.Holds p)
    (h : u.finish a = .ok f) (hps : ps.Perm u.classes.points) (hrs : rs.Perm u.members.keys) :
    u.finishVia a ps rs = .ok f := by
  have hClass : ∀ r ∈ rs, ∃ gs,
      (a.inSourceOrder id (u.classOf r)).map (u.groupsOf r) = .ok gs := by
    intro r _
    obtain ⟨ns, hNodes⟩ : ∃ ns, a.inSourceOrder id (u.classOf r) = .ok ns :=
      a.exists_inSourceOrder fun p hp => hHeld p (mem_classOf.mp hp).1
    exact ⟨u.groupsOf r ns, by rw [hNodes]; rfl⟩
  obtain ⟨each, hEach⟩ := exists_mapM_eq_ok hClass
  have hFlat : ∀ g, g ∈ each.flatten ↔ u.IsGroup a g := fun g => mem_flatten_iff_isGroup hrs hEach
  obtain ⟨_, _, _, hOrder⟩ := finish_spec h
  -- the groups are sorted as well
  have hGroups : a.arrange each.flatten = .ok f.groups := by
    rw [Arena.arrange_eq fun g hg => ((hFlat g).mp hg).nodes_ne_nil]
    refine (Arena.inSourceOrder_eq_ok_iff (fun g hg => ?_) fun g hg g' hg' => ?_).mpr
      ⟨fun g => ((groups_spec h).1 g).trans (hFlat g).symm, Arena.pairwise_inSourceOrder hOrder⟩
    · have hGroup := (hFlat g).mp hg
      exact hHeld _ (hGroup.contains_of_mem (headD_mem hGroup.nodes_ne_nil))
    · exact ((hFlat g).mp hg).eq_of_headD_eq ((hFlat g').mp hg')
  calc u.finishVia a ps rs
      = (rs.mapM fun r => (a.inSourceOrder id (ps.filter (u.representative · = r))).map
          (u.groupsOf r)).bind fun each =>
            (a.arrange each.flatten).map fun groups =>
              { groups, deferred := u.deferred.map u.applyAll } := rfl
    _ = (a.arrange each.flatten).map fun groups =>
          { groups, deferred := u.deferred.map u.applyAll } := by
        simp only [inSourceOrder_of_perm_points hHeld hps]
        rw [hEach]
        rfl
    _ = .ok f := by
        rw [hGroups, ← finish_deferred h]
        rfl

/--
**Finishing gives the canonical presentation.** For every reachable state whose recorded
points are all allocated there is an answer, it presents the state, nothing else does, and
it does not depend on the order in which points and classes are met.
-/
theorem finish_canonical (hu : u.Reachable)
    (hHeld : ∀ p, u.classes.contains p = true → a.Holds p) :
    ∃ f, u.finish a = .ok f ∧ (∀ f', u.Presents a f' ↔ f' = f) ∧
      ∀ ps rs : List Point, ps.Perm u.classes.points → rs.Perm u.members.keys →
        u.finishVia a ps rs = .ok f := by
  obtain ⟨f, hFinish⟩ := exists_finish hHeld
  have hPresents : u.Presents a f := presents_finish hu.wellFormed hFinish
  refine ⟨f, hFinish, fun f' => ⟨fun h => h.unique hPresents, ?_⟩, fun ps rs =>
    finishVia_eq hHeld hFinish⟩
  rintro rfl
  exact hPresents

/-- Point 2 is a copy of point 1 and has its span. Points 0 and 2 are numbers, points 1 and 3
are one class without types. -/
theorem finish_canonical_copies :
    ∃ (u : Unification) (a : Arena) (f : Finished), u.Reachable ∧
      (∀ p, u.classes.contains p = true → a.Holds p) ∧ u.finish a = .ok f ∧
      a.sites.toList.map Site.span = [⟨5, 9⟩, ⟨0, 3⟩, ⟨0, 3⟩, ⟨5, 6⟩] ∧
      u.representative ⟨0⟩ = u.representative ⟨2⟩ ∧ u.representative ⟨1⟩ = u.representative ⟨3⟩ ∧
      f.groups.map Group.nodes = [[⟨1⟩], [⟨2⟩, ⟨0⟩], [⟨3⟩]] ∧ u.Presents a f ∧
      u.finishVia a [⟨3⟩, ⟨1⟩, ⟨2⟩, ⟨0⟩] [⟨3⟩, ⟨0⟩] = .ok f := by
  let number : Ty := .con (.named ⟨5⟩) [] none
  let site (span : Span) : Site := { span, source := "x" }
  let a : Arena := ⟨#[site ⟨5, 9⟩, site ⟨0, 3⟩,
    { site ⟨0, 3⟩ with copiedFrom := some ⟨1⟩, copiedBy := some ⟨0⟩ }, site ⟨5, 6⟩]⟩
  have hCheck : (({} : Unification).unify 3
      (.con .tuple [.point ⟨0⟩, .point ⟨0⟩, .point ⟨3⟩] none)
      (.con .tuple [number, .point ⟨2⟩, .point ⟨1⟩] none)).any (fun x =>
        decide (x.2.classes.points = [⟨0⟩, ⟨1⟩, ⟨2⟩, ⟨3⟩] ∧
          x.2.members.keys = [⟨0⟩, ⟨3⟩] ∧ x.2.representative ⟨0⟩ = x.2.representative ⟨2⟩ ∧
          x.2.representative ⟨1⟩ = x.2.representative ⟨3⟩) &&
        (x.2.finish a).toOption.any fun f =>
          decide (f.groups.map Group.nodes = [[⟨1⟩], [⟨2⟩, ⟨0⟩], [⟨3⟩]])) = true := by
    decide +kernel
  obtain ⟨⟨_, u⟩, hRun, hFacts⟩ := (Option.any_eq_true _ _).mp hCheck
  rw [Bool.and_eq_true, decide_eq_true_eq] at hFacts
  obtain ⟨⟨hPoints, hKeys, hNumbers, hOpen⟩, hNodes⟩ := hFacts
  have hReachable : u.Reachable := .unify .empty hRun
  have hHeld : ∀ p, u.classes.contains p = true → a.Holds p := by
    intro p hp
    rw [← UnionFind.mem_points, hPoints] at hp
    revert p
    decide
  obtain ⟨f, hFinish, hPresents, hVia⟩ := finish_canonical hReachable hHeld
  rw [hFinish] at hNodes
  exact ⟨u, a, f, hReachable, hHeld, hFinish, rfl, hNumbers, hOpen, of_decide_eq_true hNodes,
    (hPresents f).mpr rfl, hVia _ _ (hPoints ▸ by decide) (hKeys ▸ by decide)⟩

end Unification

end TraitInference
