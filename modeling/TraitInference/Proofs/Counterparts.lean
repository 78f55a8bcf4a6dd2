import TraitInference.Proofs.Queries

/-!
# TraitInference — the counterparts of an instance

An instance is tried by copying its definition, and then the types it gives, for
the point of a bound. The copier chooses counterparts as it goes; this module
says what has been chosen in the end.

* `Instantiation` — the maps that a copy may amount to: parameters become types,
  the instance becomes the point of the bound, the points that the instance owns
  become points, and all others stay.
* `Copier.Serves` — what is known of a copier at work: a point has a counterpart
  only if it is the instance, owned by it, or declares a parameter.
* `CopyM.course_ready` — what one query does to such a copier, and what its answer
  tells about all later states of it.
* `CopyM.yields_substitution` — types that mention no declaring point of a
  parameter are copied by one map, whatever was copied before and whatever will
  be. `Copier.Serves.exists_instantiation` makes it an instantiation.

A point that declares a parameter is the exception: mentioned before the
parameter it stands for itself, mentioned afterwards for the parameter.
-/

namespace TraitInference

-- ---------------------------------------------------------------------------
-- Types under a map of points and parameters
-- ---------------------------------------------------------------------------

namespace Ty

variable {onPoint onPoint' : Point → Point} {onParameter : Parameter → Ty}

mutual

/-- Replaces points by points and parameters by types. -/
def image (onPoint : Point → Point) (onParameter : Parameter → Ty) : Ty → Ty
  | .point p => .point (onPoint p)
  | .con (.parameter q) _ _ => onParameter q
  | .con tag children emit => .con tag (imageAll onPoint onParameter children) emit

/-- Replaces points and parameters in a row of types. -/
def imageAll (onPoint : Point → Point) (onParameter : Parameter → Ty) : List Ty → List Ty
  | [] => []
  | t :: ts => t.image onPoint onParameter :: imageAll onPoint onParameter ts

end

mutual

/-- Only the points of a type are replaced by points. -/
theorem image_congr : ∀ t : Ty, (∀ p ∈ t.points, onPoint p = onPoint' p) →
    t.image onPoint onParameter = t.image onPoint' onParameter
  | .point p, h => congrArg point (h p List.mem_cons_self)
  | .con tag children emit, h => by
    cases tag with
    | parameter q => rfl
    | _ => exact congrArg (con _ · emit) (imageAll_congr children h)

theorem imageAll_congr : ∀ ts : List Ty, (∀ p ∈ pointsOfAll ts, onPoint p = onPoint' p) →
    imageAll onPoint onParameter ts = imageAll onPoint' onParameter ts
  | [], _ => rfl
  | t :: ts, h => by
    rw [imageAll, imageAll, image_congr t fun p hp => h p (List.mem_append_left _ hp),
      imageAll_congr ts fun p hp => h p (List.mem_append_right _ hp)]

end

variable {A : Reply → Prop} {P : Point → Prop}

mutual

/-- A copy that was filled with what two maps give is the image under these maps. -/
theorem Filled.image_eq (hPoint : ∀ p q, P p → A (.point p q) → onPoint p = q)
    (hParameter : ∀ k u, A (.parameter k u) → onParameter k = u) : ∀ {t t' : Ty},
    t.Filled A t' → (∀ p ∈ t.points, P p) → t.image onPoint onParameter = t'
  | .point p, _, h, hPoints => by
    obtain ⟨q, hq, rfl⟩ := h
    exact congrArg point (hPoint p q (hPoints p List.mem_cons_self) hq)
  | .con tag children emit, t', h, hPoints => by
    cases tag with
    | parameter k => exact hParameter k t' h
    | _ =>
      obtain ⟨ts, hts, rfl⟩ := h
      exact congrArg (con _ · emit) (FilledAll.imageAll_eq hPoint hParameter hts hPoints)

theorem FilledAll.imageAll_eq (hPoint : ∀ p q, P p → A (.point p q) → onPoint p = q)
    (hParameter : ∀ k u, A (.parameter k u) → onParameter k = u) : ∀ {ts ts' : List Ty},
    FilledAll A ts ts' → (∀ p ∈ pointsOfAll ts, P p) → imageAll onPoint onParameter ts = ts'
  | [], _, h, _ => h.symm
  | t :: ts, _, h, hPoints => by
    obtain ⟨copy, copies, hCopy, hCopies, rfl⟩ := h
    rw [imageAll,
      hCopy.image_eq hPoint hParameter fun p hp => hPoints p (List.mem_append_left _ hp),
      hCopies.imageAll_eq hPoint hParameter fun p hp => hPoints p (List.mem_append_right _ hp)]

end

end Ty

/-- A copied substitution whose types are images is the image. -/
theorem Substitution.Filled.mapTypes_eq {A : Reply → Prop} {f : Ty → Ty} {s s' : Substitution}
    (h : s.Filled A s')
    (hf : ∀ (q : Parameter) (t t' : Ty), s[q]? = some t → t.Filled A t' → f t = t') :
    s.mapTypes f = s' := by
  refine Std.ExtTreeMap.ext_getElem? fun q => ?_
  have hq := h q
  rw [mapTypes, Std.ExtTreeMap.getElem?_map]
  cases hFound : s[q]? with
  | none =>
    rw [hFound] at hq
    generalize s'[q]? = found at hq ⊢
    cases hq
    rfl
  | some t =>
    rw [hFound] at hq
    generalize s'[q]? = found at hq ⊢
    cases hq with
    | some ht => exact congrArg some (hf q t _ hFound ht)

theorem Substitution.mapTypes_congr {f g : Ty → Ty} {s : Substitution}
    (h : ∀ (q : Parameter) (t : Ty), s[q]? = some t → f t = g t) : s.mapTypes f = s.mapTypes g := by
  refine Std.ExtTreeMap.ext_getElem? fun q => ?_
  simp only [mapTypes, Std.ExtTreeMap.getElem?_map]
  cases hFound : s[q]? with
  | none => rfl
  | some t => rw [Option.map_some, Option.map_some, h q t hFound]

/-- The point `p` belongs to the body of the definition `d`. -/
def Arena.Owns (a : Arena) (d p : Point) : Prop :=
  a.owner p = .ok (some d)

theorem Arena.holds_of_owner {a : Arena} {p : Point} {owner : Option Point}
    (h : a.owner p = .ok owner) : a.Holds p := by
  unfold Arena.owner at h
  cases hSite : a.site p with
  | error e =>
    rw [hSite] at h
    cases h
  | ok st => exact holds_of_site hSite

theorem Arena.Owns.holds {a : Arena} {d p : Point} (h : a.Owns d p) : a.Holds p :=
  holds_of_owner h

/-- Who owns a point does not change. -/
theorem Arena.Grown.owns_iff {a a' : Arena} (h : a.Grown a') {d p : Point} (hp : a.Holds p) :
    a'.Owns d p ↔ a.Owns d p := by
  unfold Arena.Owns Arena.owner
  rw [h.site_eq hp]

/-- A way to put the terms of the instance `node` into those of a point where it
is used: it takes the place of the instance, points that the instance owns become
points, and parameters become types. All other points stay. -/
structure Instantiation (a : Arena) (node source : Point) where
  onPoint : Point → Point
  onParameter : Parameter → Ty
  onNode : onPoint node = source
  onOther : ∀ p, p ≠ node → ¬ a.Owns node p → onPoint p = p

/-- A type in the terms of the point where the instance is used. -/
def Instantiation.image {a : Arena} {node source : Point} (m : Instantiation a node source) :
    Ty → Ty :=
  Ty.image m.onPoint m.onParameter

-- ---------------------------------------------------------------------------
-- Copiers at work
-- ---------------------------------------------------------------------------

/-- At first only the definition has a counterpart: the call site. -/
theorem Call.getElem?_points_ofSource {source definition p q : Point} (args : Substitution) :
    (ofSource source definition args).points[p]? = some q ↔ p = definition ∧ q = source := by
  simp only [ofSource, Std.ExtTreeMap.ofList_singleton, PointMap.getElem?_insert]
  split
  · rename_i hEq
    simp [hEq, eq_comm]
  · rename_i hNe
    simp [hNe]

namespace Copier

/-- The counterpart of a point as far as it has been chosen. -/
def onPoint (c : Copier) (p : Point) : Point :=
  c.points[p]?.getD p

/-- The counterpart of a parameter as far as it has been chosen. -/
def onParameter (c : Copier) (q : Parameter) : Ty :=
  c.args[q]?.getD (.point q.source)

/-- The counterpart of a type as far as it has been chosen. -/
def image (c : Copier) : Ty → Ty :=
  Ty.image c.onPoint c.onParameter

/-- Counterparts that were chosen stay. -/
structure Extends (c c' : Copier) : Prop where
  points : ∀ p q : Point, c.points[p]? = some q → c'.points[p]? = some q
  args   : ∀ (q : Parameter) (t : Ty), c.args[q]? = some t → c'.args[q]? = some t

theorem Extends.refl (c : Copier) : c.Extends c :=
  ⟨fun _ _ => id, fun _ _ => id⟩

theorem Extends.trans {c c' c'' : Copier} (h : c.Extends c') (h' : c'.Extends c'') :
    c.Extends c'' :=
  ⟨fun p q hFound => h'.points p q (h.points p q hFound),
    fun q t hFound => h'.args q t (h.args q t hFound)⟩

/-- What was chosen for a point is its counterpart. -/
theorem onPoint_eq {c : Copier} {p q : Point} (h : c.points[p]? = some q) : c.onPoint p = q := by
  rw [onPoint, h]
  rfl

theorem onParameter_eq {c : Copier} {k : Parameter} {t : Ty} (h : c.args[k]? = some t) :
    c.onParameter k = t := by
  rw [onParameter, h]
  rfl

/-- A new choice leaves the others as they are. -/
theorem extends_insert {c : Copier} {p : Point} (hNew : c.points[p]? = none) (q : Point) :
    c.Extends { c with points := c.points.insert p q } where
  points x y hFound := by
    have hNe : x ≠ p := by
      rintro rfl
      rw [hNew] at hFound
      cases hFound
    rw [PointMap.getElem?_insert, if_neg hNe]
    exact hFound
  args _ _ := id

theorem extends_insert_args {c : Copier} {k : Parameter} (hNew : c.args[k]? = none) (t : Ty) :
    c.Extends { c with args := c.args.insert k t } where
  points _ _ := id
  args x u hFound := by
    have hNe : k ≠ x := by
      rintro rfl
      rw [hNew] at hFound
      cases hFound
    simp only [Std.ExtTreeMap.getElem?_insert, Std.LawfulEqOrd.compare_eq_iff_eq, if_neg hNe]
    exact hFound

/-- The instance `node` is copied for `source`, starting in the arena `a`. The
points of which `D` holds may declare parameters. -/
structure Serves (a : Arena) (D : Point → Prop) (node source : Point) (c : Copier) : Prop where
  definition : c.definition = node
  onNode     : ¬ D node → c.points[node]? = some source
  keys       : ∀ p q : Point, c.points[p]? = some q → p = node ∨ a.Owns node p ∨ D p

variable {a : Arena} {D : Point → Prop} {node source : Point}

/-- A copier that starts from a call serves it. -/
theorem serves_ofSource (a : Arena) (D : Point → Prop) (node source : Point)
    (args : Substitution) : (ofCall (.ofSource source node args)).Serves a D node source where
  definition := rfl
  onNode _ := (Call.getElem?_points_ofSource args).mpr ⟨rfl, rfl⟩
  keys _ _ hFound := .inl ((Call.getElem?_points_ofSource args).mp hFound).1

/-- **What a copier has chosen amounts to an instantiation**, on types that
mention no declaring point of a parameter. -/
theorem Serves.exists_instantiation {c : Copier} (h : c.Serves a D node source) :
    ∃ m : Instantiation a node source, ∀ t : Ty, (∀ p ∈ t.points, ¬ D p) →
      c.image t = m.image t := by
  -- the map has to decide who owns a point
  classical
  refine ⟨{
    onPoint := fun p => if p = node then source else if a.Owns node p then c.onPoint p else p
    onParameter := c.onParameter
    onNode := if_pos rfl
    onOther := fun p hNode hOwned => by rw [if_neg hNode, if_neg hOwned] }, ?_⟩
  intro t hFree
  refine Ty.image_congr t fun p hp => ?_
  dsimp only
  split
  · rename_i hNode
    rw [hNode, onPoint, h.onNode (hNode ▸ hFree p hp)]
    rfl
  · split
    · rfl
    · -- neither the instance nor its own: without a parameter to declare it is not copied
      have hNone : c.points[p]? = none := by
        cases hFound : c.points[p]? with
        | none => rfl
        | some q =>
          rcases h.keys p q hFound with hNode | hOwned | hDeclares
          · exact absurd hNode ‹_›
          · exact absurd hOwned ‹_›
          · exact absurd hDeclares (hFree p hp)
      rw [onPoint, hNone]
      rfl

end Copier

namespace CopyM

variable {s s' : Copying}

/-- The ways in which `fresh` gives a result. -/
theorem fresh_cases {p q : Point} (hRun : outcome (fresh p) s = (.ok q, s')) :
    (s.copier.points[p]? = some q ∧ s' = s) ∨ (s.copier.points[p]? = none ∧
      ∃ arena, s.arena.copy p s.copier.source = .ok (q, arena) ∧
        s' = ⟨{ s.copier with points := s.copier.points.insert p q }, arena⟩) := by
  rw [outcome_fresh] at hRun
  cases hFound : s.copier.points[p]? with
  | some q' =>
    simp only [hFound] at hRun
    obtain ⟨hOk, rfl⟩ := Prod.mk.inj hRun
    exact .inl ⟨congrArg some (Except.ok.inj hOk), rfl⟩
  | none =>
    simp only [hFound] at hRun
    cases hCopy : s.arena.copy p s.copier.source with
    | error e =>
      simp only [hCopy] at hRun
      cases (Prod.mk.inj hRun).1
    | ok result =>
      simp only [hCopy] at hRun
      obtain ⟨hOk, rfl⟩ := Prod.mk.inj hRun
      obtain rfl := Except.ok.inj hOk
      exact .inr ⟨rfl, result.2, rfl, rfl⟩

/-- The ways in which `point` gives a result. A point that stays as it is belongs to something
else, and is allocated. -/
theorem point_cases {p q : Point} (hRun : outcome (point p) s = (.ok q, s')) :
    (s.copier.points[p]? = some q ∧ s' = s) ∨ (s.copier.points[p]? = none ∧ s.arena.Holds p ∧
      ((s.arena.Owns s.copier.definition p ∧ outcome (fresh p) s = (.ok q, s')) ∨
        (¬ s.arena.Owns s.copier.definition p ∧ q = p ∧ s' = s))) := by
  rw [outcome_point] at hRun
  cases hFound : s.copier.points[p]? with
  | some q' =>
    simp only [hFound] at hRun
    obtain ⟨hOk, rfl⟩ := Prod.mk.inj hRun
    exact .inl ⟨congrArg some (Except.ok.inj hOk), rfl⟩
  | none =>
    simp only [hFound] at hRun
    cases hOwner : s.arena.owner p with
    | error e =>
      simp only [hOwner] at hRun
      cases (Prod.mk.inj hRun).1
    | ok owner =>
      simp only [hOwner] at hRun
      refine .inr ⟨rfl, Arena.holds_of_owner hOwner, ?_⟩
      rw [Arena.Owns, hOwner, Except.ok.injEq]
      split at hRun
      · rename_i hOwns
        exact .inl ⟨hOwns, hRun⟩
      · rename_i hOther
        obtain ⟨hOk, rfl⟩ := Prod.mk.inj hRun
        exact .inr ⟨hOther, (Except.ok.inj hOk).symm, rfl⟩

/-- The ways in which `parameter` gives a result. -/
theorem parameter_cases {k : Parameter} {t : Ty} (hRun : outcome (parameter k) s = (.ok t, s')) :
    (s.copier.args[k]? = some t ∧ s' = s) ∨ (s.copier.args[k]? = none ∧
      ∃ p v, outcome (fresh k.source) s = (.ok p, v) ∧ t = .point p ∧
        s' = { v with copier := { v.copier with args := v.copier.args.insert k (.point p) } }) := by
  rw [outcome_parameter] at hRun
  cases hFound : s.copier.args[k]? with
  | some t' =>
    simp only [hFound] at hRun
    obtain ⟨hOk, rfl⟩ := Prod.mk.inj hRun
    exact .inl ⟨congrArg some (Except.ok.inj hOk), rfl⟩
  | none =>
    simp only [hFound] at hRun
    -- no type is given, so the declaring point is asked for
    rcases hFresh : outcome (fresh k.source) s with ⟨e | p, v⟩
    · simp only [hFresh] at hRun
      cases (Prod.mk.inj hRun).1
    · simp only [hFresh] at hRun
      obtain ⟨hOk, rfl⟩ := Prod.mk.inj hRun
      exact .inr ⟨rfl, p, v, rfl, (Except.ok.inj hOk).symm, rfl⟩

/-- What is answered has been chosen. -/
theorem found_of_fresh {p q : Point} (hRun : outcome (fresh p) s = (.ok q, s')) :
    s'.copier.points[p]? = some q := by
  rcases fresh_cases hRun with ⟨hFound, rfl⟩ | ⟨-, arena, -, rfl⟩
  · exact hFound
  · simp

theorem found_of_parameter {k : Parameter} {t : Ty}
    (hRun : outcome (parameter k) s = (.ok t, s')) : s'.copier.args[k]? = some t := by
  rcases parameter_cases hRun with ⟨hFound, rfl⟩ | ⟨-, p, v, -, rfl, rfl⟩
  · exact hFound
  · simp

theorem args_of_fresh {p q : Point} (hRun : outcome (fresh p) s = (.ok q, s')) :
    s'.copier.args = s.copier.args := by
  rcases fresh_cases hRun with ⟨-, rfl⟩ | ⟨-, arena, -, rfl⟩
  · rfl
  · rfl

/-- Counterparts that were chosen stay, whatever is asked for. -/
theorem extends_of_fresh {p q : Point} (hRun : outcome (fresh p) s = (.ok q, s')) :
    s.copier.Extends s'.copier := by
  rcases fresh_cases hRun with ⟨-, rfl⟩ | ⟨hNew, arena, -, rfl⟩
  · exact .refl _
  · exact Copier.extends_insert hNew q

theorem extends_of_point {p q : Point} (hRun : outcome (point p) s = (.ok q, s')) :
    s.copier.Extends s'.copier := by
  rcases point_cases hRun with ⟨-, rfl⟩ | ⟨-, -, ⟨-, hFresh⟩ | ⟨-, -, rfl⟩⟩
  · exact .refl _
  · exact extends_of_fresh hFresh
  · exact .refl _

theorem extends_of_parameter {k : Parameter} {t : Ty}
    (hRun : outcome (parameter k) s = (.ok t, s')) : s.copier.Extends s'.copier := by
  rcases parameter_cases hRun with ⟨-, rfl⟩ | ⟨hNew, p, v, hFresh, -, rfl⟩
  · exact .refl _
  · -- the copy of the declaring point is made first, and chooses no type
    rw [← args_of_fresh hFresh] at hNew
    exact (extends_of_fresh hFresh).trans (Copier.extends_insert_args hNew _)

/-- A point that is allocated has a counterpart, whoever owns it. -/
theorem exists_fresh {p : Point} (hp : s.arena.Holds p) :
    ∃ q s', outcome (fresh p) s = (.ok q, s') := by
  rw [outcome_fresh]
  cases s.copier.points[p]? with
  | some q => exact ⟨q, s, rfl⟩
  | none =>
    obtain ⟨site, hSite⟩ := Arena.exists_site hp
    obtain ⟨arena, hCopy⟩ := Arena.exists_copy hSite s.copier.source
    simp only [hCopy]
    exact ⟨_, _, rfl⟩

/-- So has every point that is asked for, be it that of something else. -/
theorem exists_point {p : Point} (hp : s.arena.Holds p) :
    ∃ q s', outcome (point p) s = (.ok q, s') := by
  rw [outcome_point]
  cases s.copier.points[p]? with
  | some q => exact ⟨q, s, rfl⟩
  | none =>
    obtain ⟨site, hSite⟩ := Arena.exists_site hp
    have hOwner : s.arena.owner p = .ok site.owner := by
      rw [Arena.owner, hSite]
      rfl
    simp only [hOwner]
    split
    · exact exists_fresh hp
    · exact ⟨p, s, rfl⟩

/-- A parameter needs its declaring point only where no type is given for it. -/
theorem exists_parameter {k : Parameter}
    (hk : s.copier.args[k]? = none → s.arena.Holds k.source) :
    ∃ t s', outcome (parameter k) s = (.ok t, s') := by
  rw [outcome_parameter]
  cases hFound : s.copier.args[k]? with
  | some t => exact ⟨t, s, rfl⟩
  | none =>
    obtain ⟨q, v, hFresh⟩ := exists_fresh (hk hFound)
    simp only [hFresh]
    exact ⟨_, _, rfl⟩

end CopyM

/-- Copying for an instance is under way. -/
structure Copying.Ready (a : Arena) (D : Point → Prop) (node source : Point) (s : Copying) :
    Prop where
  serves : s.copier.Serves a D node source
  grown  : a.Grown s.arena

/-- What an answer tells about all later states of the copier: a point that declares no
parameter and a parameter keep the counterpart that was given. -/
def Copying.Tells (a : Arena) (D : Point → Prop) (node source : Point) (s : Copying) : Reply → Prop
  | .point p q => ¬ D p → ∀ c : Copier, s.copier.Extends c → c.Serves a D node source →
      c.onPoint p = q
  | .parameter k t => ∀ c : Copier, s.copier.Extends c → c.onParameter k = t

namespace CopyM

variable {a : Arena} {D : Point → Prop} {node source : Point} {s : Copying}

/-- A copy may be made for whatever the instance owns or a parameter needs. -/
theorem ready_of_fresh {s' : Copying} {p q : Point} (hp : a.Owns node p ∨ D p)
    (hReady : s.Ready a D node source) (hRun : outcome (fresh p) s = (.ok q, s')) :
    s'.Ready a D node source := by
  have hKept := extends_of_fresh hRun
  rcases fresh_cases hRun with ⟨-, rfl⟩ | ⟨-, arena, hCopy, rfl⟩
  · exact hReady
  · refine ⟨⟨hReady.serves.definition, fun hFree => hKept.points _ _ (hReady.serves.onNode hFree),
      fun x y hxy => ?_⟩, hReady.grown.tail ⟨p, s.copier.source, q, hCopy⟩⟩
    -- the new key is owned or declares a parameter, as `hp` says
    rw [PointMap.getElem?_insert] at hxy
    split at hxy
    · rename_i hEq
      exact .inr (hEq ▸ hp)
    · exact hReady.serves.keys x y hxy

/-- The counterpart of a point stays what it is, unless the point declares a
parameter. -/
theorem yields_point {p : Point} (hp : a.Holds p) (hReady : s.Ready a D node source) :
    Yields (point p) s fun q s' => s'.Ready a D node source ∧ s.copier.Extends s'.copier ∧
      s'.Tells a D node source (.point p q) := by
  intro q s' hRun
  have hOwns : a.Owns node p ↔ s.arena.Owns s.copier.definition p := by
    rw [hReady.serves.definition, hReady.grown.owns_iff hp]
  refine ⟨?_, extends_of_point hRun, fun hFree c hExtends hServes => ?_⟩
  · rcases point_cases hRun with ⟨-, rfl⟩ | ⟨-, -, ⟨hOwned, hFresh⟩ | ⟨-, -, rfl⟩⟩
    · exact hReady
    · exact ready_of_fresh (.inl (hOwns.mpr hOwned)) hReady hFresh
    · exact hReady
  · rcases point_cases hRun with ⟨hFound, rfl⟩ | ⟨hNone, -, ⟨-, hFresh⟩ | ⟨hOther, rfl, -⟩⟩
    · exact Copier.onPoint_eq (hExtends.points p q hFound)
    · exact Copier.onPoint_eq (hExtends.points p q (found_of_fresh hFresh))
    · -- nothing gives the point a counterpart later on
      have hNever : c.points[q]? = none := by
        cases hLater : c.points[q]? with
        | none => rfl
        | some x =>
          rcases hServes.keys q x hLater with rfl | hOwned | hDeclares
          · rw [hReady.serves.onNode hFree] at hNone
            cases hNone
          · exact absurd (hOwns.mp hOwned) hOther
          · exact absurd hDeclares hFree
      rw [Copier.onPoint, hNever]
      rfl

/-- The type in place of a parameter stays what it is. -/
theorem yields_parameter {k : Parameter} (hk : D k.source) (hReady : s.Ready a D node source) :
    Yields (parameter k) s fun t s' => s'.Ready a D node source ∧ s.copier.Extends s'.copier ∧
      s'.Tells a D node source (.parameter k t) := by
  intro t s' hRun
  refine ⟨?_, extends_of_parameter hRun, fun c hExtends =>
    Copier.onParameter_eq (hExtends.args k t (found_of_parameter hRun))⟩
  rcases parameter_cases hRun with ⟨-, rfl⟩ | ⟨-, p, v, hFresh, -, rfl⟩
  · exact hReady
  · have hNext := ready_of_fresh (.inr hk) hReady hFresh
    exact ⟨⟨hNext.serves.definition, hNext.serves.onNode, hNext.serves.keys⟩, hNext.grown⟩

/-- **The course of copying for an instance.** -/
theorem course_ready (a : Arena) (D : Point → Prop) (node source : Point) :
    Course (Query.Over a.Holds D) (Copying.Ready a D node source)
      (fun s s' => s.copier.Extends s'.copier) (Copying.Tells a D node source) where
  refl s := .refl s.copier
  trans := Copier.Extends.trans
  keeps {s s' r} hKept hr := by
    cases r with
    | point p q => exact fun hFree c hExtends => hr hFree c (hKept.trans hExtends)
    | parameter k t => exact fun c hExtends => hr c (hKept.trans hExtends)
  point := yields_point
  parameter := yields_parameter

/-- **Types that mention no declaring point of a parameter are copied by one map**,
which is that of every later state of the copier. -/
theorem yields_substitution {args : Substitution} (hOver : args.Over a.Holds D)
    (hReady : s.Ready a D node source) :
    Yields (substitution args) s fun args' s' => s'.Ready a D node source ∧
      ((∀ (q : Parameter) (t : Ty), args[q]? = some t → ∀ p ∈ t.points, ¬ D p) →
        ∀ c : Copier, s'.copier.Extends c → c.Serves a D node source →
        args.mapTypes c.image = args') := by
  intro args' s' hRun
  obtain ⟨hReady', -, hFilled⟩ := (asks_substitution args).yields (course_ready a D node source)
    hOver.queries hReady args' s' hRun
  refine ⟨hReady', fun hFree c hExtends hServes => ?_⟩
  -- each answer tells what every later state of the copier gives
  refine hFilled.mapTypes_eq fun q t t' hq ht => ht.image_eq ?_ ?_ (hFree q t hq)
  · exact fun p p' hp hTells => hTells hp c hExtends hServes
  · exact fun k u hTells => hTells c hExtends

/-- Copying goes on after a definition was copied. -/
theorem yields_constraints {cs : List Constraint} (hOver : ∀ c ∈ cs, c.Over a.Holds D)
    (hReady : s.Ready a D node source) :
    Yields (constraints cs) s fun _ s' => s'.Ready a D node source := by
  intro copies s' hRun
  exact ((asks_constraints cs).yields (course_ready a D node source)
    (Constraint.queries_over hOver) hReady copies s' hRun).1

end CopyM

end TraitInference
