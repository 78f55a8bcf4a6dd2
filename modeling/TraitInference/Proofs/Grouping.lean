import Mathlib.Data.List.Nodup
import TraitInference.Proofs.Copying
import TraitInference.Proofs.WellFormed
import TraitInference.Unification.Group

/-!
# TraitInference — what the groups are

The groups that are read off a state are its classes: one group for all recorded
points of a class that has types, and one for each recorded point of a class that has
none (`Unification.groups_spec`). Putting things into source order neither loses nor
repeats any (`Arena.inSourceOrder_spec`), so a point is in at most one group
(`Finished.filter_groups`).
-/

namespace TraitInference

-- ---------------------------------------------------------------------------
-- Source order
-- ---------------------------------------------------------------------------

/-- The results of a list of programs that all succeed. -/
theorem mem_of_mapM_eq_ok {ε α β : Type} {f : α → Except ε β} {xs : List α} {ys : List β}
    (h : xs.mapM f = .ok ys) :
    (∀ y ∈ ys, ∃ x ∈ xs, f x = .ok y) ∧ ∀ x ∈ xs, ∃ y ∈ ys, f x = .ok y := by
  induction xs generalizing ys with
  | nil =>
    obtain rfl := Except.ok.inj h
    simp
  | cons x xs ih =>
    rw [List.mapM_cons] at h
    cases hFirst : f x with
    | error e =>
      rw [hFirst] at h
      cases h
    | ok y =>
      cases hRest : xs.mapM f with
      | error e =>
        rw [hFirst, hRest] at h
        cases h
      | ok rest =>
        rw [hFirst, hRest] at h
        obtain rfl := Except.ok.inj h
        obtain ⟨hSound, hComplete⟩ := ih hRest
        refine ⟨List.forall_mem_cons.mpr ⟨⟨x, List.mem_cons_self, hFirst⟩, fun z hz => ?_⟩,
          List.forall_mem_cons.mpr ⟨⟨y, List.mem_cons_self, hFirst⟩, fun z hz => ?_⟩⟩
        · obtain ⟨x', hx', hz⟩ := hSound z hz
          exact ⟨x', List.mem_cons_of_mem x hx', hz⟩
        · obtain ⟨y', hy', hz⟩ := hComplete z hz
          exact ⟨y', List.mem_cons_of_mem y hy', hz⟩

/-- Programs that all succeed succeed as a list. -/
theorem exists_mapM_eq_ok {ε α β : Type} {f : α → Except ε β} {xs : List α}
    (h : ∀ x ∈ xs, ∃ y, f x = .ok y) : ∃ ys, xs.mapM f = .ok ys := by
  induction xs with
  | nil => exact ⟨[], rfl⟩
  | cons x xs ih =>
    obtain ⟨⟨y, hFirst⟩, hRest⟩ := List.forall_mem_cons.mp h
    obtain ⟨ys, hRest⟩ := ih hRest
    refine ⟨y :: ys, ?_⟩
    rw [List.mapM_cons, hFirst, hRest]
    rfl

/-- Results may be mapped one by one or all at the end. -/
theorem mapM_map_ok {ε α β γ : Type} {f : α → Except ε β} {f' : α → Except ε γ} {g : β → γ}
    (h : ∀ x, f' x = (f x).map g) (xs : List α) : xs.mapM f' = (xs.mapM f).map (List.map g) := by
  induction xs with
  | nil => rfl
  | cons x xs ih =>
    rw [List.mapM_cons, List.mapM_cons, h x, ih]
    cases f x with
    | error e => rfl
    | ok y => cases xs.mapM f with
      | error e => rfl
      | ok ys => rfl

theorem mapM_eq_ok_map {ε α β : Type} {f : α → Except ε β} {g : α → β} {xs : List α}
    (h : ∀ x ∈ xs, f x = .ok (g x)) : xs.mapM f = .ok (xs.map g) := by
  induction xs with
  | nil => rfl
  | cons x xs ih =>
    obtain ⟨hFirst, hRest⟩ := List.forall_mem_cons.mp h
    rw [List.mapM_cons, hFirst, ih hRest]
    rfl

/-- One program after another, if neither fails. -/
theorem exists_bind_eq_ok {ε α β : Type} {x : Except ε α} {k : α → Except ε β}
    (hx : ∃ v, x = .ok v) (hk : ∀ v, x = .ok v → ∃ r, k v = .ok r) : ∃ r, x >>= k = .ok r := by
  obtain ⟨v, rfl⟩ := hx
  exact hk v rfl

/-- Whatever is found in a table was put there. -/
theorem Entries.mem_of_getElem?_ofList {κ α : Type} [Ord κ] [Std.TransOrd κ]
    [Std.LawfulEqOrd κ] {l : List (κ × α)} {k : κ} {v : α}
    (h : (Std.ExtTreeMap.ofList l compare)[k]? = some v) : (k, v) ∈ l := by
  have hMany : ∀ (l : List (κ × α)) (m : Std.ExtTreeMap κ α), (m.insertMany l)[k]? = some v →
      m[k]? = some v ∨ (k, v) ∈ l := by
    intro l
    induction l with
    | nil =>
      intro m hFound
      rw [Std.ExtTreeMap.insertMany_nil] at hFound
      exact .inl hFound
    | cons x l ih =>
      obtain ⟨k', v'⟩ := x
      intro m hFound
      rw [Std.ExtTreeMap.insertMany_cons] at hFound
      rcases ih _ hFound with hFirst | hRest
      · rw [Std.ExtTreeMap.getElem?_insert] at hFirst
        split at hFirst
        · rename_i hKey
          rw [Std.LawfulEqOrd.compare_eq_iff_eq] at hKey
          rw [← hKey, Option.some.inj hFirst]
          exact .inr List.mem_cons_self
        · exact .inl hFirst
      · exact .inr (List.mem_cons_of_mem _ hRest)
  rw [Std.ExtTreeMap.ofList_eq_insertMany_empty] at h
  rcases hMany l ∅ h with hEmpty | hMem
  · simp at hEmpty
  · exact hMem

/-- The values of a table, in the order of their keys. -/
theorem Entries.values_eq {κ α : Type} [Ord κ] [Std.TransOrd κ] (m : Std.ExtTreeMap κ α) :
    m.values = m.toList.map Prod.snd := by
  obtain ⟨⟨m⟩⟩ := m
  induction m using Quotient.ind with
  | _ m =>
    show m.inner.values = (Std.DTreeMap.Internal.Impl.Const.toList m.inner).map Prod.snd
    rw [Std.DTreeMap.Internal.Impl.values_eq_map_snd,
      Std.DTreeMap.Internal.Impl.Const.toList_eq_toListModel_map, List.map_map]
    rfl

theorem Group.first_eq {g : Group} (h : g.nodes ≠ []) : g.first = .ok (g.nodes.headD default) := by
  obtain ⟨p, ps, hNodes⟩ := List.exists_cons_of_ne_nil h
  rw [first, fetch, hNodes]
  rfl

namespace Arena

variable {α : Type} {a : Arena} {key : α → Point} {xs ys : List α}

/-- No two points are at one position. -/
theorem position_inj {p q : Point} {pos : Position} (hp : a.position p = .ok pos)
    (hq : a.position q = .ok pos) : p = q := by
  have hIndex : ∀ r : Point, a.position r = .ok pos → pos.index = r.index := by
    intro r hr
    unfold position at hr
    cases hSite : a.site r with
    | error e =>
      rw [hSite] at hr
      cases hr
    | ok s =>
      rw [hSite] at hr
      obtain rfl := Except.ok.inj hr
      rfl
  have hEq := (hIndex p hp).symm.trans (hIndex q hq)
  cases p
  cases q
  exact congrArg Point.mk hEq

/-- What is placed is what was given, each at its position. -/
theorem placed_spec {placed : List (Position × α)}
    (h : xs.mapM (fun x => do return (← a.position (key x), x)) = .ok placed) :
    (∀ x, x ∈ placed.map Prod.snd ↔ x ∈ xs) ∧ ∀ z ∈ placed, a.position (key z.2) = .ok z.1 := by
  have hOne : ∀ (x : α) (z : Position × α),
      (do return (← a.position (key x), x) : Except Fault (Position × α)) = .ok z →
      z.2 = x ∧ a.position (key x) = .ok z.1 := by
    intro x z hz
    cases hPosition : a.position (key x) with
    | error e =>
      rw [hPosition] at hz
      cases hz
    | ok pos =>
      rw [hPosition] at hz
      obtain rfl := Except.ok.inj hz
      exact ⟨rfl, rfl⟩
  obtain ⟨hSound, hComplete⟩ := mem_of_mapM_eq_ok h
  refine ⟨fun x => ⟨fun hx => ?_, fun hx => ?_⟩, fun z hz => ?_⟩
  · obtain ⟨z, hz, rfl⟩ := List.mem_map.mp hx
    obtain ⟨x, hx, hPlaced⟩ := hSound z hz
    exact (hOne x z hPlaced).1 ▸ hx
  · obtain ⟨z, hz, hPlaced⟩ := hComplete x hx
    exact List.mem_map.mpr ⟨z, hz, (hOne x z hPlaced).1⟩
  · obtain ⟨x, -, hPlaced⟩ := hSound z hz
    obtain ⟨rfl, hPosition⟩ := hOne x z hPlaced
    exact hPosition

/-- What is placed by position, one item a position, is all there once. -/
theorem values_ofList_spec {placed : List (Position × α)}
    (hPlaced : ∀ z ∈ placed, a.position (key z.2) = .ok z.1)
    (hKey : ∀ z ∈ placed, ∀ z' ∈ placed, key z.2 = key z'.2 → z.2 = z'.2) :
    (∀ y, y ∈ (Std.ExtTreeMap.ofList placed compare).values ↔ y ∈ placed.map Prod.snd) ∧
      ((Std.ExtTreeMap.ofList placed compare).values.map key).Nodup := by
  have hSound : ∀ z ∈ (Std.ExtTreeMap.ofList placed compare).toList, z ∈ placed := by
    rintro ⟨pos, y⟩ hz
    exact Entries.mem_of_getElem?_ofList (Std.ExtTreeMap.mem_toList_iff_getElem?_eq_some.mp hz)
  rw [Entries.values_eq]
  refine ⟨fun y => ⟨fun hy => ?_, fun hy => ?_⟩, ?_⟩
  · obtain ⟨z, hz, rfl⟩ := List.mem_map.mp hy
    exact List.mem_map_of_mem (hSound z hz)
  · obtain ⟨z, hz, rfl⟩ := List.mem_map.mp hy
    have hSome : z.1 ∈ Std.ExtTreeMap.ofList placed compare := by
      rw [Std.ExtTreeMap.mem_ofList]
      exact List.contains_iff_mem.mpr (List.mem_map_of_mem hz)
    obtain ⟨y, hFound⟩ :=
      Option.isSome_iff_exists.mp (Std.ExtTreeMap.isSome_getElem?_iff_mem.mpr hSome)
    -- something stands at this position, and it is the same item
    have hMem : (z.1, y) ∈ placed := Entries.mem_of_getElem?_ofList hFound
    have hSame := hKey z hz _ hMem (position_inj (hPlaced z hz) (hPlaced _ hMem))
    rw [hSame]
    exact List.mem_map_of_mem (Std.ExtTreeMap.mem_toList_iff_getElem?_eq_some.mpr hFound)
  · -- the table has one item a position, and each position belongs to one point
    rw [List.map_map, List.Nodup, List.pairwise_map]
    refine Std.ExtTreeMap.distinct_keys_toList.imp_of_mem fun {z z'} hz hz' hNe hEq => hNe ?_
    have hPosition := hPlaced z (hSound z hz)
    rw [show key z.2 = key z'.2 from hEq, hPlaced z' (hSound z' hz')] at hPosition
    rw [Std.LawfulEqOrd.compare_eq_iff_eq]
    exact (Except.ok.inj hPosition).symm

/-- **Nothing is lost or repeated by putting it into source order**, if no two items belong to
one point. -/
theorem inSourceOrder_spec (h : a.inSourceOrder key xs = .ok ys)
    (hKey : ∀ x ∈ xs, ∀ y ∈ xs, key x = key y → x = y) :
    (∀ y, y ∈ ys ↔ y ∈ xs) ∧ (ys.map key).Nodup := by
  unfold inSourceOrder at h
  split at h
  · obtain rfl := Except.ok.inj h
    exact ⟨fun _ => .rfl, List.nodup_nil⟩
  · obtain rfl := Except.ok.inj h
    exact ⟨fun _ => .rfl, by simp⟩
  · cases hPlaced : xs.mapM (fun x => do return (← a.position (key x), x)) with
    | error e =>
      rw [hPlaced] at h
      cases h
    | ok placed =>
      rw [hPlaced] at h
      obtain rfl := Except.ok.inj h
      obtain ⟨hMem, hPositions⟩ := placed_spec hPlaced
      obtain ⟨hValues, hNodup⟩ := values_ofList_spec hPositions fun z hz z' hz' hEq =>
        hKey _ ((hMem _).mp (List.mem_map_of_mem hz)) _ ((hMem _).mp (List.mem_map_of_mem hz')) hEq
      exact ⟨fun y => (hValues y).trans (hMem y), hNodup⟩

/-- What belongs to allocated points can be put into source order. -/
theorem exists_inSourceOrder (h : ∀ x ∈ xs, a.Holds (key x)) :
    ∃ ys, a.inSourceOrder key xs = .ok ys := by
  unfold inSourceOrder
  split
  · exact ⟨[], rfl⟩
  · exact ⟨_, rfl⟩
  · obtain ⟨placed, hPlaced⟩ :=
        exists_mapM_eq_ok (f := fun x => do return (← a.position (key x), x)) fun x hx => by
      obtain ⟨s, hSite⟩ := exists_site (h x hx)
      exact ⟨_, by rw [position, hSite]; rfl⟩
    rw [hPlaced]
    exact ⟨_, rfl⟩

theorem inSourceOrder_several (a : Arena) (key : α → Point) (x y : α) (rest : List α) :
    a.inSourceOrder key (x :: y :: rest) =
      ((x :: y :: rest).mapM fun z => (a.position (key z)).map (·, z)).map fun placed =>
        (Std.ExtTreeMap.ofList placed compare).values :=
  rfl

/-- What is put into source order may be mapped before or afterwards. -/
theorem inSourceOrder_map (a : Arena) {β : Type} {f : α → β} (key : α → Point) (key' : β → Point)
    (hKey : ∀ x, key' (f x) = key x) (xs : List α) :
    a.inSourceOrder key' (xs.map f) = (a.inSourceOrder key xs).map (List.map f) := by
  match xs with
  | [] => rfl
  | [x] => rfl
  | x :: y :: rest =>
    have hPlaced : ((x :: y :: rest).map f).mapM (fun z => (a.position (key' z)).map (·, z)) =
        ((x :: y :: rest).mapM fun z => (a.position (key z)).map (·, z)).map
          (List.map fun (pos, z) => (pos, f z)) := by
      rw [List.mapM_map]
      refine mapM_map_ok (fun z => ?_) (x :: y :: rest)
      rw [Function.comp_apply, hKey z]
      cases a.position (key z) with
      | error e => rfl
      | ok pos => rfl
    rw [inSourceOrder_several, List.map_cons, List.map_cons, inSourceOrder_several,
      ← List.map_cons, ← List.map_cons, hPlaced]
    cases (x :: y :: rest).mapM fun z => (a.position (key z)).map (·, z) with
    | error e => rfl
    | ok placed =>
      refine congrArg Except.ok ?_
      dsimp only
      rw [← Entries.map_ofList f placed, Entries.values_eq, Entries.values_eq,
        Std.ExtTreeMap.toList_map, List.map_map, List.map_map]
      rfl

/-- Groups that have points are put into the order of their first points. -/
theorem arrange_eq {groups : List Group} (h : ∀ g ∈ groups, g.nodes ≠ []) :
    a.arrange groups = a.inSourceOrder (·.nodes.headD default) groups := by
  have hFirst : ∀ g ∈ groups, (do return (← g.first, g) : Except Fault (Point × Group)) =
      .ok (g.nodes.headD default, g) := by
    intro g hg
    rw [Group.first_eq (h g hg)]
    rfl
  calc a.arrange groups
      = (a.inSourceOrder Prod.fst (groups.map fun g => (g.nodes.headD default, g))).map
          (List.map Prod.snd) := by
        unfold arrange
        rw [mapM_eq_ok_map hFirst]
        rfl
    _ = ((a.inSourceOrder (·.nodes.headD default) groups).map
          (List.map fun g => (g.nodes.headD default, g))).map (List.map Prod.snd) := by
        rw [a.inSourceOrder_map (·.nodes.headD default) Prod.fst fun _ => rfl]
    _ = a.inSourceOrder (·.nodes.headD default) groups := by
        cases a.inSourceOrder (·.nodes.headD default) groups with
        | error e => rfl
        | ok ordered => simp [Except.map, Function.comp_def]

end Arena

-- ---------------------------------------------------------------------------
-- Classes and groups
-- ---------------------------------------------------------------------------

namespace Unification

variable {u : Unification} {a : Arena} {f : Finished} {g g' : Group} {p r : Point}
  {ns : List Point}

/-- The recorded points of one class, in order. -/
def classOf (u : Unification) (r : Point) : List Point :=
  u.classes.points.filter (u.representative · = r)

theorem mem_classOf : p ∈ u.classOf r ↔ u.classes.contains p = true ∧ u.representative p = r := by
  rw [classOf, List.mem_filter, UnionFind.mem_points, decide_eq_true_iff]

/-- Recorded points are gathered by their classes; a class without any is not listed. -/
theorem getElem?_members (u : Unification) (r : Point) :
    u.members[r]? = if u.classOf r = [] then none else some (u.classOf r) := by
  unfold members classOf
  induction u.classes.points with
  | nil => simp
  | cons p ps ih =>
    rw [List.foldr_cons, Std.ExtTreeMap.getElem?_alter]
    by_cases hRoot : u.representative p = r
    · subst hRoot
      rw [if_pos Std.ReflCmp.compare_self, List.filter_cons_of_pos (by simp), ih]
      split
      · rename_i hNone
        rw [hNone]
        rfl
      · rfl
    · rw [if_neg (fun hEq => hRoot (Std.LawfulEqOrd.compare_eq_iff_eq.mp hEq)), ih,
        List.filter_cons_of_neg (by simpa using hRoot)]

/-- The groups of one class: one for each of its points, or one for all. -/
theorem mem_groupsOf : g ∈ u.groupsOf r ns ↔
    (u.typesAt r = [] ∧ ∃ p ∈ ns, g = ⟨[p], []⟩) ∨
      (u.typesAt r ≠ [] ∧ g = ⟨ns, Ty.distinct ((u.typesAt r).map u.apply)⟩) := by
  unfold groupsOf
  split
  · rename_i hTypes
    simp [hTypes, eq_comm]
  · rename_i hTypes
    have hTyped : u.typesAt r ≠ [] := hTypes
    simp [hTyped]

/-- What is read off one class. -/
def IsGroup (u : Unification) (a : Arena) (g : Group) : Prop :=
  ∃ r ns, u.classOf r ≠ [] ∧ a.inSourceOrder id (u.classOf r) = .ok ns ∧ g ∈ u.groupsOf r ns

theorem mem_members {x : Point × List Point} :
    x ∈ u.members.toList ↔ u.classOf x.1 ≠ [] ∧ x.2 = u.classOf x.1 := by
  rw [Std.ExtTreeMap.mem_toList_iff_getElem?_eq_some, getElem?_members]
  split
  · rename_i hNone
    simp [hNone]
  · rename_i hSome
    simp [hSome, eq_comm]

theorem finish_eq (u : Unification) (a : Arena) :
    u.finish a =
      (u.members.toList.mapM fun x => (a.inSourceOrder id x.2).map (u.groupsOf x.1)).bind
        fun each => (a.arrange each.flatten).map fun groups =>
          { groups, deferred := u.deferred.map u.applyAll } :=
  rfl

/-- What was put aside is given in its normal form. -/
theorem finish_deferred (h : u.finish a = .ok f) : f.deferred = u.deferred.map u.applyAll := by
  simp only [finish, bind, Except.bind, pure, Except.pure] at h
  split at h
  · cases h
  · split at h
    · cases h
    · obtain rfl := Except.ok.inj h
      rfl

-- ---------------------------------------------------------------------------
-- Every recorded point is in one group
-- ---------------------------------------------------------------------------

/-- A class in source order. -/
theorem mem_of_inSourceOrder_classOf (h : a.inSourceOrder id (u.classOf r) = .ok ns) :
    (p ∈ ns ↔ p ∈ u.classOf r) ∧ ns.Nodup := by
  obtain ⟨hMem, hNodup⟩ := Arena.inSourceOrder_spec h fun _ _ _ _ => id
  rw [List.map_id] at hNodup
  exact ⟨hMem p, hNodup⟩

/-- The points of a group are recorded and in the class from which it was read off. -/
theorem mem_classOf_of_mem_groupsOf (hNodes : a.inSourceOrder id (u.classOf r) = .ok ns)
    (hg : g ∈ u.groupsOf r ns) (hp : p ∈ g.nodes) : p ∈ u.classOf r := by
  rcases mem_groupsOf.mp hg with ⟨-, q, hq, rfl⟩ | ⟨-, rfl⟩
  · rw [List.mem_singleton.mp hp]
    exact (mem_of_inSourceOrder_classOf hNodes).1.mp hq
  · exact (mem_of_inSourceOrder_classOf hNodes).1.mp hp

theorem IsGroup.nodup (h : u.IsGroup a g) : g.nodes.Nodup := by
  obtain ⟨r, ns, -, hNodes, hg⟩ := h
  rcases mem_groupsOf.mp hg with ⟨-, q, -, rfl⟩ | ⟨-, rfl⟩
  · exact List.nodup_cons.mpr ⟨List.not_mem_nil, List.nodup_nil⟩
  · exact (mem_of_inSourceOrder_classOf (p := r) hNodes).2

/-- No group is empty, and so each has a first point. -/
theorem IsGroup.nodes_ne_nil (h : u.IsGroup a g) : g.nodes ≠ [] := by
  obtain ⟨r, ns, hClass, hNodes, hg⟩ := h
  rcases mem_groupsOf.mp hg with ⟨-, q, -, rfl⟩ | ⟨-, rfl⟩
  · exact List.cons_ne_nil q []
  · obtain ⟨p, hp⟩ := List.exists_mem_of_ne_nil _ hClass
    exact List.ne_nil_of_mem ((mem_of_inSourceOrder_classOf hNodes).1.mpr hp)

/-- Finishing puts what is read off the classes into source order. -/
theorem finish_spec (h : u.finish a = .ok f) : ∃ each : List (List Group),
    (∀ gs ∈ each, ∃ r ns, u.classOf r ≠ [] ∧ a.inSourceOrder id (u.classOf r) = .ok ns ∧
      gs = u.groupsOf r ns) ∧
    (∀ r, u.classOf r ≠ [] → ∃ ns, a.inSourceOrder id (u.classOf r) = .ok ns ∧
      u.groupsOf r ns ∈ each) ∧
    a.inSourceOrder (·.nodes.headD default) each.flatten = .ok f.groups := by
  unfold finish at h
  simp only [bind, Except.bind] at h
  split at h
  · cases h
  · rename_i each hEach
    split at h
    · cases h
    · rename_i groups hGroups
      obtain rfl := Except.ok.inj h
      obtain ⟨hSound, hComplete⟩ := mem_of_mapM_eq_ok hEach
      have hRead : ∀ gs ∈ each, ∃ r ns, u.classOf r ≠ [] ∧
          a.inSourceOrder id (u.classOf r) = .ok ns ∧ gs = u.groupsOf r ns := by
        intro gs hgs
        obtain ⟨⟨r, nodes⟩, hx, hOne⟩ := hSound gs hgs
        obtain ⟨hClass, hEq⟩ := mem_members.mp hx
        dsimp only at hOne hClass hEq
        subst hEq
        split at hOne
        · cases hOne
        · rename_i ns hNodes
          exact ⟨r, ns, hClass, hNodes, (Except.ok.inj hOne).symm⟩
      refine ⟨each, hRead, fun r hClass => ?_, ?_⟩
      · obtain ⟨gs, hgs, hOne⟩ := hComplete (r, u.classOf r) (mem_members.mpr ⟨hClass, rfl⟩)
        dsimp only at hOne
        split at hOne
        · cases hOne
        · rename_i ns hNodes
          exact ⟨ns, hNodes, Except.ok.inj hOne ▸ hgs⟩
      · -- no class is empty, so every group has a point by which it can be placed
        rw [← hGroups]
        refine (Arena.arrange_eq fun g hg => ?_).symm
        obtain ⟨gs, hgs, hg⟩ := List.mem_flatten.mp hg
        obtain ⟨r, ns, hClass, hNodes, rfl⟩ := hRead gs hgs
        exact IsGroup.nodes_ne_nil (a := a) ⟨r, ns, hClass, hNodes, hg⟩

/-- The points of a group are recorded. -/
theorem IsGroup.contains_of_mem (h : u.IsGroup a g) (hp : p ∈ g.nodes) :
    u.classes.contains p = true := by
  obtain ⟨r, ns, -, hNodes, hg⟩ := h
  exact (mem_classOf.mp (mem_classOf_of_mem_groupsOf hNodes hg hp)).1

/-- No point is in two groups. -/
theorem IsGroup.eq_of_mem (h : u.IsGroup a g) (h' : u.IsGroup a g') (hp : p ∈ g.nodes)
    (hp' : p ∈ g'.nodes) : g = g' := by
  obtain ⟨r, ns, -, hNodes, hg⟩ := h
  obtain ⟨r', ns', -, hNodes', hg'⟩ := h'
  obtain rfl : u.representative p = r :=
    (mem_classOf.mp (mem_classOf_of_mem_groupsOf hNodes hg hp)).2
  obtain rfl : u.representative p = r' :=
    (mem_classOf.mp (mem_classOf_of_mem_groupsOf hNodes' hg' hp')).2
  obtain rfl := Except.ok.inj (hNodes.symm.trans hNodes')
  rcases mem_groupsOf.mp hg with ⟨hOpen, q, -, rfl⟩ | ⟨hTyped, rfl⟩
  · rcases mem_groupsOf.mp hg' with ⟨-, q', -, rfl⟩ | ⟨hTyped, -⟩
    · rw [← List.mem_singleton.mp hp, ← List.mem_singleton.mp hp']
    · exact absurd hOpen hTyped
  · rcases mem_groupsOf.mp hg' with ⟨hOpen, -⟩ | ⟨-, rfl⟩
    · exact absurd hOpen hTyped
    · rfl

theorem headD_mem {g : Group} (h : g.nodes ≠ []) : g.nodes.headD default ∈ g.nodes := by
  cases hNodes : g.nodes with
  | nil => exact absurd hNodes h
  | cons p ps => exact List.mem_cons_self

/-- Groups are told apart by their first points. -/
theorem IsGroup.eq_of_headD_eq (h : u.IsGroup a g) (h' : u.IsGroup a g')
    (hEq : g.nodes.headD default = g'.nodes.headD default) : g = g' :=
  h.eq_of_mem h' (headD_mem h.nodes_ne_nil) (hEq ▸ headD_mem h'.nodes_ne_nil)

/-- **The groups are what is read off the classes**, each of them once. -/
theorem groups_spec (h : u.finish a = .ok f) :
    (∀ g, g ∈ f.groups ↔ u.IsGroup a g) ∧ f.groups.Nodup := by
  obtain ⟨each, hSound, hComplete, hOrder⟩ := finish_spec h
  -- up to their order, the groups are those of all classes
  have hFlat : ∀ g, g ∈ each.flatten ↔ u.IsGroup a g := by
    intro g
    rw [List.mem_flatten]
    constructor
    · rintro ⟨gs, hgs, hg⟩
      obtain ⟨r, ns, hClass, hNodes, rfl⟩ := hSound gs hgs
      exact ⟨r, ns, hClass, hNodes, hg⟩
    · rintro ⟨r, ns, hClass, hNodes, hg⟩
      obtain ⟨ns', hNodes', hMem⟩ := hComplete r hClass
      obtain rfl := Except.ok.inj (hNodes.symm.trans hNodes')
      exact ⟨_, hMem, hg⟩
  have hKey : ∀ g ∈ each.flatten, ∀ g' ∈ each.flatten,
      g.nodes.headD default = g'.nodes.headD default → g = g' := fun g hg g' hg' =>
    ((hFlat g).mp hg).eq_of_headD_eq ((hFlat g').mp hg')
  obtain ⟨hMem, hNodup⟩ := Arena.inSourceOrder_spec hOrder hKey
  exact ⟨fun g => (hMem g).trans (hFlat g), List.Nodup.of_map _ hNodup⟩

/-- **Groups can be formed** as soon as all recorded points are allocated. -/
theorem exists_finish (h : ∀ p, u.classes.contains p = true → a.Holds p) :
    ∃ f, u.finish a = .ok f := by
  have hClass : ∀ r, ∃ ns, a.inSourceOrder id (u.classOf r) = .ok ns := fun r =>
    a.exists_inSourceOrder fun p hp => h p (mem_classOf.mp hp).1
  have hOne : ∀ x ∈ u.members.toList, ∃ gs,
      (a.inSourceOrder id x.2).map (u.groupsOf x.1) = .ok gs := by
    intro x hx
    obtain ⟨ns, hOrder⟩ := hClass x.1
    exact ⟨u.groupsOf x.1 ns, by rw [(mem_members.mp hx).2, hOrder]; rfl⟩
  obtain ⟨each, hEach⟩ := exists_mapM_eq_ok hOne
  have hGroup : ∀ g ∈ each.flatten, u.IsGroup a g := by
    intro g hg
    obtain ⟨gs, hgs, hg⟩ := List.mem_flatten.mp hg
    obtain ⟨x, hx, hRead⟩ := (mem_of_mapM_eq_ok hEach).1 gs hgs
    obtain ⟨ns, hOrder⟩ := hClass x.1
    obtain ⟨hNonempty, hNodes⟩ := mem_members.mp hx
    rw [hNodes, hOrder] at hRead
    obtain rfl : u.groupsOf x.1 ns = gs := Except.ok.inj hRead
    exact ⟨x.1, ns, hNonempty, hOrder, hg⟩
  have hNodes : ∀ g ∈ each.flatten, g.nodes ≠ [] := fun g hg => (hGroup g hg).nodes_ne_nil
  -- groups are placed by their first points, which are recorded
  have hHeads : ∀ g ∈ each.flatten, a.Holds (g.nodes.headD default) := fun g hg =>
    h _ ((hGroup g hg).contains_of_mem (headD_mem (hNodes g hg)))
  obtain ⟨groups, hGroups⟩ := a.exists_inSourceOrder hHeads
  rw [← Arena.arrange_eq hNodes] at hGroups
  rw [finish_eq, hEach]
  exact ⟨_, congrArg (Except.map _) hGroups⟩

/-- Every recorded class that has types is one group. -/
theorem exists_group_of_typed (h : u.finish a = .ok f) (hClass : u.classOf r ≠ [])
    (hTyped : u.typesAt r ≠ []) :
    ∃ g ∈ f.groups, g.types = Ty.distinct ((u.typesAt r).map u.apply) := by
  obtain ⟨_, _, hComplete, _⟩ := finish_spec h
  obtain ⟨ns, hNodes, -⟩ := hComplete r hClass
  exact ⟨⟨ns, _⟩, ((groups_spec h).1 _).mpr
    ⟨r, ns, hClass, hNodes, mem_groupsOf.mpr (.inr ⟨hTyped, rfl⟩)⟩, rfl⟩

/-- What a state says about a point in the end. -/
def found (u : Unification) (p : Point) : List Ty :=
  Ty.distinct ((u.typesOf p).map u.apply)

/-- The group of a recorded point: all of its class if that has types, and otherwise the
point alone. -/
theorem exists_group (h : u.finish a = .ok f) (hp : u.classes.contains p = true) :
    ∃ g ∈ f.groups, p ∈ g.nodes ∧ g.types = u.found p ∧
      (u.typesOf p = [] → g.nodes = [p]) ∧
      (u.typesOf p ≠ [] → ∀ q, q ∈ g.nodes ↔
        u.classes.contains q = true ∧ u.representative q = u.representative p) := by
  have hMem : p ∈ u.classOf (u.representative p) := mem_classOf.mpr ⟨hp, rfl⟩
  have hClass := List.ne_nil_of_mem hMem
  obtain ⟨_, _, hComplete, _⟩ := finish_spec h
  obtain ⟨ns, hNodes, -⟩ := hComplete _ hClass
  have hGroup : ∀ g, g ∈ u.groupsOf (u.representative p) ns → g ∈ f.groups := fun g hg =>
    ((groups_spec h).1 g).mpr ⟨_, ns, hClass, hNodes, hg⟩
  have hns := (mem_of_inSourceOrder_classOf hNodes).1.mpr hMem
  by_cases hOpen : u.typesOf p = []
  · refine ⟨⟨[p], []⟩, hGroup _ (mem_groupsOf.mpr (.inl ⟨hOpen, p, hns, rfl⟩)),
      List.mem_cons_self, ?_, fun _ => rfl, fun hTyped => absurd hOpen hTyped⟩
    rw [found, hOpen]
    rfl
  · refine ⟨⟨ns, u.found p⟩, hGroup _ (mem_groupsOf.mpr (.inr ⟨hOpen, rfl⟩)), hns, rfl,
      fun hEmpty => absurd hEmpty hOpen, fun _ q => ?_⟩
    rw [← mem_classOf]
    exact (mem_of_inSourceOrder_classOf hNodes).1

/-- Whatever is in a group is recorded. -/
theorem contains_of_mem_group (h : u.finish a = .ok f) (hg : g ∈ f.groups) (hp : p ∈ g.nodes) :
    u.classes.contains p = true :=
  (((groups_spec h).1 g).mp hg).contains_of_mem hp

/-- A class that has types has recorded points only. -/
theorem WellFormed.contains_of_typed (h : u.WellFormed) (hTyped : u.typesOf p ≠ []) :
    u.classes.contains p = true := by
  by_contra hNew
  rw [Bool.not_eq_true] at hNew
  have hRoot : u.representative p = p := UnionFind.representative_of_not_contains hNew
  obtain ⟨t, ht⟩ := List.exists_mem_of_ne_nil _ hTyped
  obtain ⟨ts, hTypes, -⟩ := mem_typesAt.mp ht
  rw [hRoot] at hTypes
  rw [h.recorded p ts hTypes] at hNew
  cases hNew

/-- The types of a group are those of a class, in normal form. -/
theorem exists_class_of_group (h : u.finish a = .ok f) (hg : g ∈ f.groups) :
    g.types = [] ∨ ∃ r, g.types = Ty.distinct ((u.typesAt r).map u.apply) := by
  obtain ⟨r, ns, -, -, hGroup⟩ := ((groups_spec h).1 g).mp hg
  rcases mem_groupsOf.mp hGroup with ⟨-, p, -, rfl⟩ | ⟨-, rfl⟩
  · exact .inl rfl
  · exact .inr ⟨r, rfl⟩

end Unification

-- ---------------------------------------------------------------------------
-- The group of a point
-- ---------------------------------------------------------------------------

/-- The group of a point in the results of a session. -/
def Finished.group? (f : Finished) (p : Point) : Option Group :=
  f.groups.find? (p ∈ ·.nodes)

/-- **A point is in at most one group of a session.** -/
theorem Finished.filter_groups {u : Unification} {a : Arena} {f : Finished}
    (h : u.finish a = .ok f) (p : Point) : f.groups.filter (p ∈ ·.nodes) = (f.group? p).toList := by
  obtain ⟨hMem, hNodup⟩ := Unification.groups_spec h
  unfold group?
  cases hFind : f.groups.find? (p ∈ ·.nodes) with
  | none =>
    rw [List.find?_eq_none] at hFind
    exact List.filter_eq_nil_iff.mpr hFind
  | some g =>
    have hp : p ∈ g.nodes := by simpa using List.find?_some hFind
    have hg := (hMem g).mp (List.mem_of_find?_eq_some hFind)
    -- whatever has `p` is `g`, and `g` stands there once
    have hOnly : ∀ g' ∈ f.groups.filter (p ∈ ·.nodes), g' = g := by
      intro g' hg'
      obtain ⟨hGroup, hp'⟩ := List.mem_filter.mp hg'
      exact ((hMem g').mp hGroup).eq_of_mem hg (by simpa using hp') hp
    have hCount : (f.groups.filter (p ∈ ·.nodes)).Nodup := List.Nodup.filter _ hNodup
    have hSelf : g ∈ f.groups.filter (p ∈ ·.nodes) :=
      List.mem_filter.mpr ⟨List.mem_of_find?_eq_some hFind, by simpa using hp⟩
    generalize f.groups.filter (p ∈ ·.nodes) = found at hOnly hCount hSelf
    cases found with
    | nil => exact absurd hSelf List.not_mem_nil
    | cons g' rest =>
      rw [List.forall_mem_cons] at hOnly
      obtain ⟨rfl, hRest⟩ := hOnly
      rw [List.nodup_cons] at hCount
      have hNil : rest = [] := List.eq_nil_iff_forall_not_mem.mpr fun g' hg' =>
        hCount.1 (hRest g' hg' ▸ hg')
      rw [hNil]
      rfl

/-- A group that has the point is the one that is found. -/
theorem Finished.group?_eq_some {u : Unification} {a : Arena} {f : Finished}
    (h : u.finish a = .ok f) {g : Group} (hg : g ∈ f.groups) {p : Point} (hp : p ∈ g.nodes) :
    f.group? p = some g := by
  obtain ⟨hMem, -⟩ := Unification.groups_spec h
  cases hFind : f.group? p with
  | none => exact absurd (by simpa using hp) (List.find?_eq_none.mp hFind g hg)
  | some g' =>
    have hp' : p ∈ g'.nodes := by simpa using List.find?_some hFind
    have hg' := (hMem g').mp (List.mem_of_find?_eq_some hFind)
    rw [hg'.eq_of_mem ((hMem g).mp hg) hp' hp]

/-- The types of the group of a point are what the state says about it. -/
theorem Unification.types_group? {u : Unification} {a : Arena} {f : Finished}
    (hFormed : u.WellFormed) (h : u.finish a = .ok f) (p : Point) :
    (f.group? p).toList.flatMap Group.types = u.found p := by
  by_cases hRecorded : u.classes.contains p = true
  · obtain ⟨g, hg, hp, hTypes, -⟩ := exists_group h hRecorded
    rw [Finished.group?_eq_some h hg hp, ← hTypes]
    exact List.append_nil _
  · -- a point that is not recorded is in no group, and is a class of its own without types
    have hNone : f.group? p = none := List.find?_eq_none.mpr fun g hg hp =>
      hRecorded (contains_of_mem_group h hg (by simpa using hp))
    have hOpen : u.typesOf p = [] := by
      by_contra hTyped
      exact hRecorded (hFormed.contains_of_typed hTyped)
    rw [hNone, found, hOpen]
    rfl

end TraitInference
