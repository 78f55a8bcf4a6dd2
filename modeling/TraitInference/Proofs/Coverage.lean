import TraitInference.Proofs.Counterparts
import TraitInference.Proofs.Mentions
import TraitInference.Proofs.Steps
import TraitInference.Proofs.Unfolding

/-!
# TraitInference — staying among the allocated points

Unification and copying do not make points up. Unification records and mentions only
points of the types that it is given (`Unification.Within.unify`), and so do the groups
that are read off in the end (`Unification.Within.groups`). Copying asks the arena about
points of the template only, so it gives a result, and what it puts in the place of a
point is held by the arena when it is done (`CopyM.sure_constraints`,
`CopyM.sure_substitution`).
-/

namespace TraitInference

variable {n m : Nat}

-- ---------------------------------------------------------------------------
-- States of unification
-- ---------------------------------------------------------------------------

namespace Unification

variable {u u' : Unification} {allowed : Unification → Point → Point → Prop} {p : Point} {t : Ty}

/-- A state speaks of the first `n` points only. -/
structure Within (n : Nat) (u : Unification) : Prop where
  recorded : ∀ p, u.classes.contains p = true → p.index < n
  types    : ∀ r, ∀ t ∈ u.typesAt r, Below n t.mentions
  deferred : ∀ s ∈ u.deferred, Below n s.mentions

theorem Within.mono (h : u.Within n) (hLe : n ≤ m) : u.Within m where
  recorded p hp := Nat.lt_of_lt_of_le (h.recorded p hp) hLe
  types r t ht := (h.types r t ht).mono hLe
  deferred s hs := (h.deferred s hs).mono hLe

/-- It does not matter what was noted. -/
theorem Within.congr (h : u.Within n) (hClasses : u'.classes = u.classes)
    (hTypes : u'.types = u.types) (hDeferred : u'.deferred = u.deferred) : u'.Within n where
  recorded := hClasses ▸ h.recorded
  types r t ht := by
    rw [typesAt, hTypes] at ht
    exact h.types r t ht
  deferred := hDeferred ▸ h.deferred

theorem within_empty : Within n {} where
  recorded p hp := by simp [UnionFind.contains] at hp
  types r t ht := by simp [typesAt] at ht
  deferred s hs := by simp at hs

/-- Looking up an allocated point records nothing else. -/
theorem Within.find (h : u.Within n) (hp : p.index < n) : (u.find p).2.Within n where
  recorded q hq := by
    rw [find_classes, UnionFind.contains_find, Bool.or_eq_true, decide_eq_true_eq] at hq
    rcases hq with rfl | hq
    · exact hp
    · exact h.recorded q hq
  types := h.types
  deferred := h.deferred

/-- A class with an allocated point has an allocated representative, or the point is alone. -/
theorem Within.representative (h : u.Within n) (hFormed : u.WellFormed) (hp : p.index < n) :
    (u.representative p).index < n := by
  cases hRecorded : u.classes.contains p with
  | true => exact h.recorded _ (UnionFind.contains_representative hFormed.forest hRecorded)
  | false =>
    have hRoot : u.representative p = p := UnionFind.representative_of_not_contains hRecorded
    rw [hRoot]
    exact hp

theorem Within.addType (h : u.Within n) (r : Point) (ht : Below n t.mentions) :
    (u.addType r t).Within n where
  recorded := h.recorded
  types q t' ht' := by
    rw [typesAt_addType] at ht'
    split at ht'
    · rcases List.mem_append.mp ht' with hOld | hNew
      · exact h.types r t' hOld
      · exact List.mem_singleton.mp hNew ▸ ht
    · exact h.types q t' ht'
  deferred := h.deferred

/-- Recording a type mentions its points and no others, whether or not it is dropped. -/
theorem Within.record (h : u.Within n) (hp : p.index < n) (ht : Below n t.mentions) :
    (u.record p t).Within n := by
  have hFind := h.find hp
  rcases record_cases u p t with ⟨-, hEq⟩ | ⟨-, -, hEq⟩ | ⟨-, -, hEq⟩
  · rw [hEq]
    exact hFind.congr rfl rfl rfl
  · rw [hEq]
    exact hFind
  · rw [hEq]
    exact hFind.addType _ ht

theorem Within.recordBoth (h : u.Within n) {left right side : Ty} (hLeft : Below n left.mentions)
    (hRight : Below n right.mentions) (hSide : Below n side.mentions) :
    (u.recordBoth left right side).Within n := by
  cases side with
  | point p =>
    have hp : p.index < n := hSide p List.mem_cons_self
    exact (h.record hp hLeft).record hp hRight
  | con => exact h

/-- A merge only moves types from one class to the other. -/
theorem Within.merge (h : u.Within n) (hFormed : u.WellFormed) {a b : Point}
    (hNe : u.representative a ≠ u.representative b) (ha : a.index < n) (hb : b.index < n) :
    (u.merge a b).Within n where
  recorded q hq := by
    have hUnion : (u.classes.union a b).2.contains q = true := hq
    rw [UnionFind.contains_union hFormed.forest, Bool.or_eq_true, Bool.or_eq_true,
      decide_eq_true_eq, decide_eq_true_eq] at hUnion
    rcases hUnion with (rfl | rfl) | hq
    · exact ha
    · exact hb
    · exact h.recorded q hq
  types r t ht := by
    rw [typesAt_merge hFormed hNe] at ht
    split at ht
    · exact h.types _ t ht
    · -- the table is empty at the old representatives, or unchanged
      split at ht
      · exact absurd ht List.not_mem_nil
      · exact h.types r t ht
  deferred := h.deferred

theorem Within.resolve (h : u.Within n) (ht : Below n t.mentions) :
    (u.resolve t).2.Within n := by
  cases t with
  | point p => exact h.find (ht p List.mem_cons_self)
  | con => exact h

/-- Both sides of a unification are looked up first. -/
theorem Within.touch (h : u.Within n) {left right : Ty} (hLeft : Below n left.mentions)
    (hRight : Below n right.mentions) : (u.touch left right).Within n :=
  (h.resolve hLeft).resolve hRight

/-- What a type is known to be speaks of allocated points too. -/
theorem Within.knows (h : u.Within n) {known : Ty} (ht : Below n t.mentions)
    (hKnows : u.Knows t known) : Below n known.mentions := by
  cases hKnows with
  | con => exact ht
  | point hHead => exact h.types _ _ (List.mem_of_head? hHead)

/-- Given types that mention the first `n` points only, `f` keeps to these. -/
def Unifier.StaysWithin (f : Unifier) (n : Nat) : Prop :=
  ∀ left right u conflict u', u.WellFormed → u.Within n → Below n left.mentions →
    Below n right.mentions → f left right u = some (conflict, u') → u'.Within n

/-- Each pair finds a state that speaks of allocated points only, because the pair before has
left one. -/
theorem unifyEach_staysWithin {f : Unifier} (hSteps : f.StepsBy allowed) (hf : f.StaysWithin n)
    (pairs : List (Ty × Ty)) {u u' : Unification} {conflict : Bool} (hFormed : u.WellFormed)
    (h : u.Within n) (hPairs : ∀ pair ∈ pairs, Below n pair.1.mentions ∧ Below n pair.2.mentions)
    (hRun : unifyEach f pairs u = some (conflict, u')) : u'.Within n := by
  induction pairs generalizing u conflict with
  | nil =>
    exact (unifyEach_nil_iff.mp hRun).2 ▸ h
  | cons pair rest ih =>
    obtain ⟨left, right⟩ := pair
    obtain ⟨⟨hLeft, hRight⟩, hRest⟩ := List.forall_mem_cons.mp hPairs
    obtain ⟨c, v, c', hFirst, hLater, -⟩ := unifyEach_cons_iff.mp hRun
    exact ih (hFormed.steps (hSteps _ _ _ _ _ hFormed hFirst))
      (hf _ _ _ _ _ hFormed h hLeft hRight hFirst) hRest hLater

/-- Children mention nothing that their type does not mention. -/
theorem unifyParts_staysWithin {f : Unifier} (hSteps : f.StepsBy allowed) (hf : f.StaysWithin n)
    {tag tag' : Tag} {children children' : List Ty} {emit emit' : Option String} {conflict : Bool}
    (hFormed : u.WellFormed) (h : u.Within n)
    (hLeft : Below n (Ty.con tag children emit).mentions)
    (hRight : Below n (Ty.con tag' children' emit').mentions)
    (hRun : unifyParts f tag children tag' children' u = some (conflict, u')) : u'.Within n := by
  rw [Ty.mentions, below_append, Ty.below_mentionsOfAll] at hLeft hRight
  unfold unifyParts at hRun
  split at hRun
  · refine unifyEach_staysWithin hSteps hf _ hFormed h (fun pair hPair => ?_) hRun
    exact ⟨hLeft.2 _ (List.of_mem_zip hPair).1, hRight.2 _ (List.of_mem_zip hPair).2⟩
  · obtain ⟨-, rfl⟩ := Prod.mk.inj (Option.some.inj hRun)
    exact h.congr rfl rfl rfl

/-- One level, by the way through it. -/
theorem Level.staysWithin {f : Unifier} (hSteps : f.StepsBy allowed) (hf : f.StaysWithin n)
    {left right : Ty} {conflict : Bool} (hFormed : u.WellFormed) (h : u.Within n)
    (hLeft : Below n left.mentions) (hRight : Below n right.mentions)
    (hLevel : Level f u left right (conflict, u')) : u'.Within n := by
  have hTouched := hFormed.touch left right
  have hTouch := h.touch hLeft hRight
  cases hLevel with
  | same _ => exact h
  | joined _ => exact hTouch
  -- the types of the absorbed class are compared with `a`
  | @merged a b _ hNe hRest =>
    have ha : a.index < n := hLeft a List.mem_cons_self
    have hb : b.index < n := hRight b List.mem_cons_self
    have hNe' := touch_representative_ne hFormed (.point a) (.point b) hNe
    refine unifyEach_staysWithin hSteps hf _ (hTouched.merge hNe')
      (hTouch.merge hTouched hNe' ha hb) (fun pair hPair => ?_) hRest
    obtain ⟨t, ht, rfl⟩ := List.mem_map.mp hPair
    exact ⟨hLeft, h.types _ t ht⟩
  -- the open class is that of the point, on whichever side it stands
  | @pinned _ _ t p hSides _ _ =>
    rcases hSides with ⟨rfl, rfl⟩ | ⟨rfl, rfl⟩
    · exact hTouch.record (h.representative hFormed (hLeft p List.mem_cons_self)) hRight
    · exact hTouch.record (h.representative hFormed (hRight p List.mem_cons_self)) hLeft
  | compared hKnown hKnown' hParts =>
    exact unifyParts_staysWithin hSteps hf hTouched hTouch (h.knows hLeft hKnown)
      (h.knows hRight hKnown') hParts
  -- a conflict below: both types are recorded on each side that is a point
  | clashed hKnown hKnown' hParts =>
    have hOne := h.knows hLeft hKnown
    have hOther := h.knows hRight hKnown'
    have hParts' := unifyParts_staysWithin hSteps hf hTouched hTouch hOne hOther hParts
    exact (hParts'.recordBoth hOne hOther hLeft).recordBoth hOne hOther hRight

/-- All levels, by induction on the depth. -/
theorem unifyWithin_staysWithin (fuel : Nat) : (unifyWithin fuel).StaysWithin n := by
  induction fuel with
  | zero =>
    intro left right u conflict u' _ _ _ _ hRun
    simp [unifyWithin] at hRun
  | succ fuel ih =>
    intro left right u conflict u' hFormed h hLeft hRight hRun
    exact (unifyStep_level hFormed hRun).staysWithin (unifyWithin_steps fuel) ih hFormed h hLeft
      hRight

/-- **Unification makes no points up.** -/
theorem Within.unify (h : u.Within n) (hFormed : u.WellFormed) {fuel : Nat} {left right : Ty}
    {notes : List Note} (hLeft : Below n left.mentions) (hRight : Below n right.mentions)
    (hRun : u.unify fuel left right = some (notes, u')) : u'.Within n := by
  obtain ⟨conflict, v, hWithin, -, rfl⟩ := unify_eq_some_iff.mp hRun
  exact (unifyWithin_staysWithin fuel _ _ _ _ _ hFormed h hLeft hRight hWithin).congr rfl rfl rfl

theorem Within.isOpen (h : u.Within n) (hp : p.index < n) : (u.isOpen p).2.Within n := by
  rw [isOpen_snd]
  exact h.find hp

/-- What is put aside has to speak of allocated points as well. -/
theorem Within.defer (h : u.Within n) {s : Substitution} (hs : Below n s.mentions) :
    (u.defer s).2.Within n where
  recorded := h.recorded
  types := h.types
  deferred s' hs' := by
    rcases List.mem_append.mp hs' with hOld | hNew
    · exact h.deferred s' hOld
    · exact List.mem_singleton.mp hNew ▸ hs

-- ---------------------------------------------------------------------------
-- Normal forms and groups
-- ---------------------------------------------------------------------------

/-- Expanding a point only puts in types that its class has. -/
theorem Within.expand (h : u.Within n) (hFormed : u.WellFormed) (fuel : Nat)
    (visiting : List Point) (hp : p.index < n) :
    Below n (u.expand fuel visiting p).mentions := by
  have hFolded : Below n (Ty.point (u.representative p)).mentions := by
    simpa [Ty.mentions] using h.representative hFormed hp
  -- `hFolded` is the answer wherever expansion stops: no fuel, a class under way, an open class
  induction fuel generalizing visiting p with
  | zero => exact hFolded
  | succ fuel ih =>
    unfold Unification.expand
    dsimp only
    split
    · exact hFolded
    · split
      · exact hFolded
      · rename_i t hHead
        refine Ty.below_mentions_bind (fun q hq => ih _ hq ?_) t
          (h.types _ t (List.mem_of_head? hHead))
        simpa [Ty.mentions] using h.representative hFormed hq

/-- **Normal forms make no points up.** -/
theorem Within.apply (h : u.Within n) (hFormed : u.WellFormed) (ht : Below n t.mentions) :
    Below n (u.apply t).mentions :=
  Ty.below_mentions_bind (fun _ hq => h.expand hFormed _ _ hq) t ht

theorem Within.applyAll (h : u.Within n) (hFormed : u.WellFormed) {s : Substitution}
    (hs : Below n s.mentions) : Below n (u.applyAll s).mentions :=
  Substitution.below_mentions_mapTypes (fun _ ht => h.apply hFormed ht) hs

end Unification

/-- A group speaks of the first `n` points only. -/
structure Group.Within (n : Nat) (g : Group) : Prop where
  nodes : Below n g.nodes
  types : ∀ t ∈ g.types, Below n t.mentions

/-- An arena that has grown holds more points. -/
theorem Group.Within.mono {g : Group} (h : g.Within n) (hLe : n ≤ m) : g.Within m :=
  ⟨h.nodes.mono hLe, fun t ht => (h.types t ht).mono hLe⟩

/-- **Groups make no points up.** -/
theorem Unification.Within.groups {u : Unification} {a : Arena} {f : Finished} (h : u.Within n)
    (hFormed : u.WellFormed) (hFinish : u.finish a = .ok f) {g : Group} (hg : g ∈ f.groups) :
    g.Within n := by
  refine ⟨fun p hp => h.recorded p (contains_of_mem_group hFinish hg hp), fun t ht => ?_⟩
  -- a group without types, or the normal forms of the types of a class
  rcases exists_class_of_group hFinish hg with hNone | ⟨r, hTypes⟩
  · rw [hNone] at ht
    exact absurd ht List.not_mem_nil
  · rw [hTypes] at ht
    obtain ⟨t', ht', rfl⟩ := List.mem_map.mp (Ty.mem_of_mem_distinct ht)
    exact h.apply hFormed (h.types r t' ht')

-- ---------------------------------------------------------------------------
-- Copying
-- ---------------------------------------------------------------------------

/-- The call of a source fixes one counterpart. -/
theorem Call.below_mentions_ofSource {source definition : Point} {args : Substitution}
    (hSource : source.index < n) (hDefinition : definition.index < n)
    (hArgs : Below n args.mentions) : Below n (Call.ofSource source definition args).mentions := by
  refine Call.below_mentions.mpr ⟨hSource, hDefinition, fun p q hFound => ?_, hArgs⟩
  have hOnly : (p, q) ∈ [(definition, source)] := Entries.mem_of_getElem?_ofList hFound
  obtain ⟨rfl, rfl⟩ := Prod.mk.inj (List.mem_singleton.mp hOnly)
  exact ⟨hDefinition, hSource⟩

/-- The counterparts that a copier has chosen are among the first `n` points. -/
structure Copier.Within (n : Nat) (c : Copier) : Prop where
  points : ∀ p q : Point, c.points[p]? = some q → q.index < n
  args   : ∀ (k : Parameter) (t : Ty), c.args[k]? = some t → Below n t.mentions

theorem Copier.Within.mono {c : Copier} (h : c.Within n) (hLe : n ≤ m) : c.Within m :=
  ⟨fun p q hFound => Nat.lt_of_lt_of_le (h.points p q hFound) hLe,
    fun k t hFound => (h.args k t hFound).mono hLe⟩

/-- The arena holds the counterparts chosen so far. -/
def Copying.Proper (s : Copying) : Prop :=
  s.copier.Within s.arena.size

/-- The arena holds what is asked for. -/
def Query.Within (n : Nat) : Query → Prop
  | .point p => p.index < n
  | .parameter k => k.source.index < n

/-- The arena holds what is answered. -/
def Reply.Within (n : Nat) : Reply → Prop
  | .point _ q => q.index < n
  | .parameter _ t => Below n t.mentions

/-- Answers stay valid while the arena grows. -/
theorem Reply.Within.mono (hLe : n ≤ m) : ∀ {r : Reply}, r.Within n → r.Within m
  | .point _ _, h => Nat.lt_of_lt_of_le h hLe
  | .parameter _ _, h => Below.mono h hLe

namespace CopyM

variable {α : Type} {s : Copying}

/-- Copying gives a result, and `Q` holds of it and of the size of the arena then. -/
def Sure (x : CopyM α) (s : Copying) (Q : Nat → α → Prop) : Prop :=
  Attains x s fun v s' => s'.Proper ∧ s.arena.Grown s'.arena ∧ Q s'.arena.size v

/-- The copy of an allocated point is the newest point of the arena. -/
theorem sure_fresh (h : s.Proper) {p : Point} (hp : s.arena.Holds p) :
    Sure (fresh p) s fun n q => q.index < n := by
  obtain ⟨q, s', hRun⟩ := exists_fresh hp
  refine ⟨q, s', hRun, ?_⟩
  rcases fresh_cases hRun with ⟨hFound, rfl⟩ | ⟨-, arena, hCopy, rfl⟩
  · exact ⟨h, .refl, h.points p q hFound⟩
  · have hCopies : s.arena.Copies arena := ⟨p, s.copier.source, q, hCopy⟩
    have hSize := hCopies.size
    have hNew : q.index < arena.size := by
      rw [Arena.copy_fst hCopy]
      show s.arena.size < arena.size
      omega
    -- the old counterparts are where they were, and the arena has grown by one
    refine ⟨⟨fun x y hxy => ?_, fun k t hArg => ?_⟩, .single hCopies, hNew⟩
    · show y.index < arena.size
      rw [PointMap.getElem?_insert] at hxy
      split at hxy
      · exact Option.some.inj hxy ▸ hNew
      · have hOld := h.points x y hxy
        omega
    · exact (h.args k t hArg).mono (by show s.arena.size ≤ arena.size; omega)

/-- A counterpart was known, is new, or is the point itself. -/
theorem sure_point (h : s.Proper) {p : Point} (hp : s.arena.Holds p) :
    Sure (point p) s fun n q => q.index < n := by
  obtain ⟨q, s', hRun⟩ := exists_point hp
  rcases point_cases hRun with ⟨hFound, rfl⟩ | ⟨-, -, ⟨-, hFresh⟩ | ⟨-, rfl, rfl⟩⟩
  · exact ⟨q, s', hRun, h, .refl, h.points p q hFound⟩
  · exact ⟨q, s', hRun, (sure_fresh h hp).yields q s' hFresh⟩
  · exact ⟨q, s', hRun, h, .refl, hp⟩

/-- A parameter whose declaration is allocated has a counterpart. -/
theorem sure_parameter (h : s.Proper) {k : Parameter} (hk : s.arena.Holds k.source) :
    Sure (parameter k) s fun n t => Below n t.mentions := by
  obtain ⟨t, s', hRun⟩ := exists_parameter fun _ => hk
  refine ⟨t, s', hRun, ?_⟩
  rcases parameter_cases hRun with ⟨hFound, rfl⟩ | ⟨-, q, v, hFresh, rfl, rfl⟩
  · exact ⟨h, .refl, h.args k t hFound⟩
  · obtain ⟨hProper, hGrown, hq⟩ := (sure_fresh h hk).yields q v hFresh
    have hPoint : Below v.arena.size (Ty.point q).mentions := by simpa [Ty.mentions] using hq
    refine ⟨⟨hProper.points, fun j t hj => ?_⟩, hGrown, hPoint⟩
    simp only [Std.ExtTreeMap.getElem?_insert, Std.LawfulEqOrd.compare_eq_iff_eq] at hj
    split at hj
    · exact Option.some.inj hj ▸ hPoint
    · exact hProper.args j t hj

/-- **Copying among the first `n` points** is answered with points that the arena holds. -/
theorem course_proper (n : Nat) : SureCourse (Query.Within n)
    (fun s => s.Proper ∧ n ≤ s.arena.size) (fun s s' => s.arena.Grown s'.arena)
    fun s r => r.Within s.arena.size where
  refl _ := .refl
  trans h h' := h.trans h'
  keeps hGrown hr := hr.mono hGrown.size_le
  point {p s} hp hs := by
    obtain ⟨q, s', hRun, hProper, hGrown, hq⟩ := sure_point hs.1 (Nat.lt_of_lt_of_le hp hs.2)
    exact ⟨q, s', hRun, ⟨hProper, Nat.le_trans hs.2 hGrown.size_le⟩, hGrown, hq⟩
  parameter {k s} hk hs := by
    obtain ⟨t, s', hRun, hProper, hGrown, ht⟩ := sure_parameter hs.1 (Nat.lt_of_lt_of_le hk hs.2)
    exact ⟨t, s', hRun, ⟨hProper, Nat.le_trans hs.2 hGrown.size_le⟩, hGrown, ht⟩

/-- What a copy is made of is held by the arena when it is done. -/
theorem Asks.sure {x : CopyM α} {qs : List Query} {F : (Reply → Prop) → α → Prop}
    {Q : Nat → α → Prop} (hx : Asks x qs F) (h : s.Proper)
    (hqs : ∀ q ∈ qs, q.Within s.arena.size)
    (hQ : ∀ n v, s.arena.size ≤ n → F (Reply.Within n) v → Q n v) : Sure x s Q := by
  obtain ⟨v, s', hRun, ⟨hProper, hLe⟩, hGrown, -, hF⟩ :=
    hx.attains (course_proper s.arena.size) hqs ⟨h, Nat.le_refl _⟩
  exact ⟨v, s', hRun, hProper, hGrown, hQ _ v hLe hF⟩

end CopyM

-- ---------------------------------------------------------------------------
-- Copies among the allocated points
-- ---------------------------------------------------------------------------

namespace Ty

mutual

/-- Copying a type asks about points that the type mentions, and about parameters by their
declarations. -/
theorem within_queries : ∀ {t : Ty}, Below n t.mentions → ∀ q ∈ t.queries, q.Within n
  | .point p, h, _, hq => List.mem_singleton.mp hq ▸ h p List.mem_cons_self
  | .con tag children emit, h, q, hq => by
    rw [mentions, below_append] at h
    cases tag with
    | parameter k => exact List.mem_singleton.mp hq ▸ h.1 _ List.mem_cons_self
    | _ => exact within_queriesOfAll h.2 q hq

theorem within_queriesOfAll : ∀ {ts : List Ty}, Below n (mentionsOfAll ts) →
    ∀ q ∈ queriesOfAll ts, q.Within n
  | [], _, _, hq => absurd hq List.not_mem_nil
  | _ :: _, h, q, hq => by
    rw [mentionsOfAll, below_append] at h
    exact (List.mem_append.mp hq).elim (within_queries h.1 q) (within_queriesOfAll h.2 q)

end

mutual

/-- A copy mentions what the answers mention, and the tags of the template. -/
theorem Filled.below_mentions : ∀ {t t' : Ty}, t.Filled (Reply.Within n) t' →
    Below n t.mentions → Below n t'.mentions
  | .point p, _, h, _ => by
    obtain ⟨q, hq, rfl⟩ := h
    exact below_cons.mpr ⟨hq, below_nil⟩
  | .con tag children emit, t', h, ht => by
    rw [mentions, below_append] at ht
    cases tag with
    | parameter k => exact h
    | _ =>
      obtain ⟨ts, hts, rfl⟩ := h
      rw [mentions, below_append]
      exact ⟨ht.1, FilledAll.below_mentions hts ht.2⟩

theorem FilledAll.below_mentions : ∀ {ts ts' : List Ty}, FilledAll (Reply.Within n) ts ts' →
    Below n (mentionsOfAll ts) → Below n (mentionsOfAll ts')
  | [], _, h, hts => h ▸ hts
  | t :: ts, _, h, hts => by
    obtain ⟨copy, copies, hCopy, hCopies, rfl⟩ := h
    rw [mentionsOfAll, below_append] at hts ⊢
    exact ⟨hCopy.below_mentions hts.1, hCopies.below_mentions hts.2⟩

end

end Ty

namespace Substitution

variable {s s' : Substitution}

theorem within_queries (h : Below n s.mentions) : ∀ q ∈ s.queries, q.Within n := by
  intro q hq
  obtain ⟨⟨k, t⟩, hEntry, ht⟩ := List.mem_flatMap.mp hq
  exact Ty.within_queries (below_mentions.mp h k t
    (Std.ExtTreeMap.mem_toList_iff_getElem?_eq_some.mp hEntry)).2 q ht

/-- Parameters stay, so the declarations that a copied substitution mentions are old ones. -/
theorem Filled.below_mentions (h : s.Filled (Reply.Within n) s') (hs : Below n s.mentions) :
    Below n s'.mentions := by
  refine Substitution.below_mentions.mpr fun q t' hFound => ?_
  obtain ⟨t, ht, hFilled⟩ := h.exists_of_getElem? hFound
  obtain ⟨hq, hMentions⟩ := Substitution.below_mentions.mp hs q t ht
  exact ⟨hq, hFilled.below_mentions hMentions⟩

end Substitution

theorem Ascription.within_queries {x : Ascription} (h : Below n x.mentions) :
    ∀ q ∈ x.queries, q.Within n := by
  obtain ⟨hNode, hType⟩ := below_cons.mp h
  exact List.forall_mem_cons.mpr ⟨hNode, Ty.within_queries hType⟩

/-- Copies of ascriptions speak of allocated points. -/
theorem Ascription.Filled.below_mentions {x x' : Ascription} (h : x.Filled (Reply.Within n) x')
    (hx : Below n x.mentions) : Below n x'.mentions := by
  obtain ⟨node, type, hNode, hType, rfl⟩ := h
  exact below_cons.mpr ⟨hNode, hType.below_mentions (below_cons.mp hx).2⟩

/-- A scoped constraint has no copy, so nothing is asked on its behalf. -/
theorem Constraint.within_queries : ∀ {c : Constraint}, Below n c.mentions →
    ∀ q ∈ c.queries, q.Within n
  | .ascribe _, h | .fallback _, h => Ascription.within_queries h
  | .call _, h => by
    obtain ⟨hSource, -, -, hArgs⟩ := Call.below_mentions.mp h
    exact List.forall_mem_cons.mpr ⟨hSource, Substitution.within_queries hArgs⟩
  | .require _, h => by
    obtain ⟨hSource, -, hArgs⟩ := Bound.below_mentions.mp h
    exact List.forall_mem_cons.mpr ⟨hSource, Substitution.within_queries hArgs⟩
  | .scoped _, _ => fun _ hq => absurd hq List.not_mem_nil

/-- The copy of a constraint is fit for the same program. -/
theorem Constraint.Filled.proper {program : Program} : ∀ {c c' : Constraint},
    c.Filled (Reply.Within n) (some c') → c.Proper program n → c'.Proper program n
  | .ascribe _, _, h, hc | .fallback _, _, h, hc => by
    obtain ⟨x', hx', hCopy⟩ := h
    obtain rfl := Option.some.inj hCopy
    exact ⟨hx'.below_mentions hc.below, fun b hb => by cases hb⟩
  | .call c, _, h, hc => by
    obtain ⟨_, ⟨source, args, hSource, hArgs, rfl⟩, hCopy⟩ := h
    obtain rfl := Option.some.inj hCopy
    obtain ⟨-, hDefinition, -, hMentions⟩ := Call.below_mentions.mp hc.below
    exact ⟨Call.below_mentions_ofSource hSource hDefinition (hArgs.below_mentions hMentions),
      fun b hb => by cases hb⟩
  | .require b, _, h, hc => by
    obtain ⟨_, ⟨source, args, hSource, hArgs, rfl⟩, hCopy⟩ := h
    obtain rfl := Option.some.inj hCopy
    obtain ⟨-, hTrait, hMentions⟩ := Bound.below_mentions.mp hc.below
    refine ⟨Bound.below_mentions.mpr ⟨hSource, hTrait, hArgs.below_mentions hMentions⟩,
      fun b' hb' => ?_⟩
    obtain rfl := Option.some.inj hb'
    -- the copy has the keys of the bound, so it resembles the same declared bound
    obtain ⟨declared, hDeclared, hSame, hKeys⟩ := hc.declared b rfl
    exact ⟨declared, hDeclared, hSame, fun q => (hArgs.contains_eq q).trans (hKeys q)⟩
  | .scoped _, _, h, _ => by cases h

namespace CopyM

variable {s : Copying}

/-- **A substitution can be copied**, and the copy gives types for the same parameters. -/
theorem sure_substitution (h : s.Proper) {args : Substitution}
    (hArgs : Below s.arena.size args.mentions) :
    Sure (substitution args) s fun n args' => Below n args'.mentions ∧
      ∀ q, args'.contains q = args.contains q :=
  (asks_substitution args).sure h (Substitution.within_queries hArgs) fun _ _ hLe hFilled =>
    ⟨hFilled.below_mentions (hArgs.mono hLe), hFilled.contains_eq⟩

/-- **A definition can be copied**, and the copy is fit for the same program. -/
theorem sure_constraints {program : Program} (cs : List Constraint) (h : s.Proper)
    (hcs : ∀ c ∈ cs, c.Proper program s.arena.size) :
    Sure (constraints cs) s fun n copies => ∀ c' ∈ copies, c'.Proper program n := by
  refine (asks_constraints cs).sure h (fun q hq => ?_) fun n copies hLe hFilled c' hc' => ?_
  · obtain ⟨c, hc, hq⟩ := List.mem_flatMap.mp hq
    exact Constraint.within_queries (hcs c hc).below q hq
  · obtain ⟨c, hc, hCopy⟩ := hFilled.exists_of_mem hc'
    exact hCopy.proper ((hcs c hc).mono hLe)

end CopyM

end TraitInference
