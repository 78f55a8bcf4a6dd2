import TraitInference.Proofs.Agendas
import TraitInference.Proofs.Copies
import TraitInference.Proofs.Interleaving

/-!
# TraitInference — a call as a substitution

A call copies the constraints of its definition one by one, and chooses counterparts on the
way. In the end this is one **substitution**, which is known before the first constraint is
copied:

* `Program.templates` — the points that get a copy, in the order in which the constraints
  first mention them.
* `Program.instantiation` — the map of the call: the definition becomes the call site, the
  templates become new points with consecutive numbers, and all other points stay; a parameter
  becomes the type that is given for it, or else the counterpart of the point that declares it.
* `Session.call_eq_images` — a call puts the images of the constraints on the agenda.

The condition is that the definition owns the points which declare its open parameters. A
point of something else that declares one would stand for itself in some places and for the
parameter in others.
-/

namespace TraitInference

-- ---------------------------------------------------------------------------
-- Images of constraints
-- ---------------------------------------------------------------------------

namespace Instantiation

variable {a : Arena} {d source : Point}

def ascription (m : Instantiation a d source) (x : Ascription) : Ascription :=
  { x with node := m.onPoint x.node, type := m.image x.type, copied := true }

def bound (m : Instantiation a d source) (b : Bound) : Bound :=
  { b with source := m.onPoint b.source, args := b.args.mapTypes m.image, copied := true }

/-- The counterparts that a nested call fixes are forgotten, but for that of its definition. -/
def call (m : Instantiation a d source) (k : Call) : Call :=
  .ofSource (m.onPoint k.source) k.definition (k.args.mapTypes m.image)

/-- The image of a constraint, if it has one outside its definition. -/
def constraint (m : Instantiation a d source) : Constraint → Option Constraint
  | .ascribe x => some (.ascribe (m.ascription x))
  | .call k => some (.call (m.call k))
  | .require b => some (.require (m.bound b))
  | .fallback x => some (.fallback (m.ascription x))
  | .scoped _ => none

end Instantiation

/-- Whatever the copier has chosen, the map has chosen too. -/
structure Copier.Agrees {a : Arena} {d source : Point} (c : Copier)
    (m : Instantiation a d source) : Prop where
  points : ∀ p q : Point, c.points[p]? = some q → m.onPoint p = q
  args   : ∀ (k : Parameter) (t : Ty), c.args[k]? = some t → m.onParameter k = t

/-- What agrees with all choices agrees with the earlier ones. -/
theorem Copier.Agrees.before {a : Arena} {d source : Point} {c c' : Copier}
    {m : Instantiation a d source} (h : c'.Agrees m) (hKept : c.Extends c') : c.Agrees m :=
  ⟨fun p q hFound => h.points p q (hKept.points p q hFound),
    fun k t hFound => h.args k t (hKept.args k t hFound)⟩

/-- The definition `d` is replayed, starting in the arena `a`. -/
structure Copying.Replays (a : Arena) (d : Point) (s : Copying) : Prop where
  definition : s.copier.definition = d
  onSite     : s.copier.points[d]? ≠ none
  grown      : a.Grown s.arena

/-- Queries do not change what is being replayed. -/
theorem Copying.Asked.replays {a b : Arena} {d : Point} {s s' : Copying} {qs : List Query}
    (h : s.Asked b qs s') (hReplays : s.Replays a d) : s'.Replays a d where
  definition := h.definition.trans hReplays.definition
  onSite hNone := hReplays.onSite (h.points_eq_none_iff.mp hNone).1
  grown := hReplays.grown.trans h.grown

/-- The map gives the answer too. -/
def Instantiation.Gives {a : Arena} {d source : Point} (m : Instantiation a d source) :
    Reply → Prop
  | .point p q => m.onPoint p = q
  | .parameter k t => m.onParameter k = t

-- ---------------------------------------------------------------------------
-- Copies by one map
-- ---------------------------------------------------------------------------

section Gives

variable {a : Arena} {d source : Point} {m : Instantiation a d source} {A : Reply → Prop}

/-- A copy that is filled with what a map gives is the image under the map. -/
theorem Ty.Filled.eq_image {t t' : Ty} (hGives : ∀ r, A r → m.Gives r) (h : t.Filled A t') :
    m.image t = t' :=
  h.image_eq (P := fun _ => True) (fun _ _ _ hq => hGives _ hq) (fun _ _ hu => hGives _ hu)
    fun _ _ => trivial

theorem Substitution.Filled.eq_image {s s' : Substitution} (hGives : ∀ r, A r → m.Gives r)
    (h : s.Filled A s') : s.mapTypes m.image = s' :=
  h.mapTypes_eq fun _ _ _ _ ht => ht.eq_image hGives

theorem Ascription.Filled.eq_image {x x' : Ascription} (hGives : ∀ r, A r → m.Gives r)
    (h : x.Filled A x') : x' = m.ascription x := by
  obtain ⟨node, type, hNode, hType, rfl⟩ := h
  obtain rfl : m.onPoint x.node = node := hGives _ hNode
  rw [← hType.eq_image hGives]
  rfl

/-- So is the copy of a constraint, or there is neither copy nor image. -/
theorem Constraint.Filled.eq_image (hGives : ∀ r, A r → m.Gives r) : ∀ {c : Constraint}
    {copy : Option Constraint}, c.Filled A copy → copy = m.constraint c
  | .ascribe _, _, h | .fallback _, _, h => by
    obtain ⟨x', hx', rfl⟩ := h
    rw [hx'.eq_image hGives]
    rfl
  | .call k, _, h => by
    obtain ⟨_, ⟨source', args, hSource, hArgs, rfl⟩, rfl⟩ := h
    obtain rfl : m.onPoint k.source = source' := hGives _ hSource
    rw [← hArgs.eq_image hGives]
    rfl
  | .require b, _, h => by
    obtain ⟨_, ⟨source', args, hSource, hArgs, rfl⟩, rfl⟩ := h
    obtain rfl : m.onPoint b.source = source' := hGives _ hSource
    rw [← hArgs.eq_image hGives]
    rfl
  | .scoped _, _, h => h

/-- And those of a row of constraints are the images in order. -/
theorem Constraint.FilledAll.eq_images (hGives : ∀ r, A r → m.Gives r) : ∀ {cs copies :
    List Constraint}, FilledAll A cs copies → copies = cs.filterMap m.constraint
  | [], _, h => h
  | c :: cs, _, h => by
    obtain ⟨copy, rest, hCopy, hRest, rfl⟩ := h
    rw [List.filterMap_cons, hCopy.eq_image hGives, hRest.eq_images hGives]
    cases m.constraint c <;> rfl

end Gives

namespace CopyM

variable {a : Arena} {d source : Point}

/-- The counterpart of a point is what the map gives, be it chosen or the point itself. -/
theorem given_of_point {m : Instantiation a d source} {s s' : Copying} {p q : Point}
    (hReplays : s.Replays a d) (hRun : outcome (point p) s = (.ok q, s'))
    (hAgrees : s'.copier.Agrees m) : m.onPoint p = q := by
  rcases point_cases hRun with ⟨hFound, rfl⟩ | ⟨hNone, hHeld, ⟨-, hFresh⟩ | ⟨hOther, rfl, rfl⟩⟩
  · exact hAgrees.points p q hFound
  · exact hAgrees.points p q (found_of_fresh hFresh)
  · -- a point that stays as it is, is none of the definition's
    refine m.onOther q ?_ fun hOwns => hOther ?_
    · rintro rfl
      exact hReplays.onSite hNone
    · rw [hReplays.definition]
      exact (hReplays.grown.owns_iff hOwns.holds).mpr hOwns

/-- **The course of a call**: a map that agrees with all choices gives all answers. -/
theorem course_replays (m : Instantiation a d source) : Course (fun _ => True)
    (Copying.Replays a d) (fun s s' => s.copier.Extends s'.copier)
    fun s r => s.copier.Agrees m → m.Gives r where
  refl s := .refl s.copier
  trans := Copier.Extends.trans
  keeps hKept hr hAgrees := hr (hAgrees.before hKept)
  point _ hReplays _ _ hRun :=
    ⟨(asked_point hRun .refl).replays hReplays, extends_of_point hRun,
      given_of_point hReplays hRun⟩
  parameter {k _} _ hReplays t s' hRun :=
    ⟨(asked_parameter s'.arena hRun).replays hReplays, extends_of_parameter hRun,
      fun hAgrees => hAgrees.args k t (found_of_parameter hRun)⟩

/-- **A definition is copied by one map**, if the map agrees with all choices. -/
theorem constraints_eq_images {m : Instantiation a d source} {s s' : Copying}
    {cs copies : List Constraint} (hReplays : s.Replays a d)
    (hRun : outcome (constraints cs) s = (.ok copies, s')) (hAgrees : s'.copier.Agrees m) :
    copies = cs.filterMap m.constraint := by
  obtain ⟨-, -, hFilled⟩ := (asks_constraints cs).yields (course_replays m)
    (fun _ _ => trivial) hReplays copies s' hRun
  exact hFilled.eq_images fun r hr => hr hAgrees

end CopyM

-- ---------------------------------------------------------------------------
-- The map of a call
-- ---------------------------------------------------------------------------

/-- The point that a query is about. A parameter for which a type is given needs none. -/
def Query.about (args : Substitution) : Query → Option Point
  | .point p => some p
  | .parameter k => if args[k]? = none then some k.source else none

theorem nodup_eraseDups {α : Type} [BEq α] [LawfulBEq α] : ∀ l : List α, l.eraseDups.Nodup
  | [] => List.nodup_nil
  | x :: l => by
    rw [List.eraseDups_cons, List.nodup_cons, List.mem_eraseDups]
    refine ⟨by simp, nodup_eraseDups _⟩
termination_by l => l.length
decreasing_by
  exact Nat.lt_succ_of_le (List.length_filter_le _ l)

namespace Program

variable (program : Program) (a : Arena) (source d : Point) (args : Substitution)

/-- What the copy of a definition asks for. -/
def queries : List Query :=
  (program.definition d).flatMap Constraint.queries

/-- The points of the definition that its constraints mention, in the order in which they
first do. -/
def templates : List Point :=
  (((program.queries d).filterMap (Query.about args)).filter
    fun p => p ≠ d ∧ a.Owns d p).eraseDups

/-- The counterpart of a point. -/
def counterpart (p : Point) : Point :=
  if p = d then source
  else ((program.templates a d args).idxOf? p).elim p fun i => ⟨a.size + i⟩

variable {program a source d args}

/-- The templates are the points of the definition that some query is about. -/
theorem mem_templates {p : Point} : p ∈ program.templates a d args ↔
    (∃ q ∈ program.queries d, q.about args = some p) ∧ p ≠ d ∧ a.Owns d p := by
  rw [templates, List.mem_eraseDups, List.mem_filter, List.mem_filterMap, decide_eq_true_eq]

/-- The templates become new points with consecutive numbers. -/
theorem counterpart_eq {i : Nat} {p : Point} (hi : (program.templates a d args)[i]? = some p) :
    program.counterpart a source d args p = ⟨a.size + i⟩ := by
  have hNodup : (program.templates a d args).Nodup := nodup_eraseDups _
  obtain ⟨hLt, hSame⟩ := List.getElem?_eq_some_iff.mp hi
  have hNe : p ≠ d := (mem_templates.mp (List.mem_of_getElem? hi)).2.1
  -- no template is listed twice, so the first place of `p` is its only one
  have hIndex : (program.templates a d args).idxOf? p = some i :=
    List.idxOf?_eq_some_iff.mpr ⟨hLt, hSame, fun j hj hEarlier =>
      Nat.ne_of_lt hj (hNodup.getElem_inj_iff.mp (hEarlier.trans hSame.symm))⟩
  rw [counterpart, if_neg hNe, hIndex]
  rfl

/-- In the order of the templates their counterparts are the next free points. -/
theorem map_counterpart_templates : (program.templates a d args).map
    (program.counterpart a source d args) =
      (List.range (program.templates a d args).length).map fun i => ⟨a.size + i⟩ := by
  refine List.ext_getElem (by simp) fun i hi _ => ?_
  rw [List.length_map] at hi
  rw [List.getElem_map, List.getElem_map, List.getElem_range]
  exact counterpart_eq (List.getElem?_eq_getElem hi)

variable (program a source d args) in
/-- **The map of a call.** -/
def instantiation : Instantiation a d source where
  onPoint := program.counterpart a source d args
  onParameter k := args[k]?.getD (.point (program.counterpart a source d args k.source))
  onNode := if_pos rfl
  onOther p hNe hOther := by
    have hNot : p ∉ program.templates a d args := fun hp => hOther (mem_templates.mp hp).2.2
    rw [counterpart, if_neg hNe, List.idxOf?_eq_none_iff.mpr hNot]
    rfl

/-- At first only the definition has a counterpart. -/
theorem getElem?_points_ofCall (p : Point) :
    (Copier.ofCall (.ofSource source d args)).points[p]? = if p = d then some source else none := by
  show (Call.ofSource source d args).points[p]? = _
  simp only [Call.ofSource, Std.ExtTreeMap.ofList_singleton, PointMap.getElem?_insert]
  rfl

/-- So every other point has to be asked for. -/
theorem points_eq_none_iff {p : Point} :
    (Copier.ofCall (.ofSource source d args)).points[p]? = none ↔ p ≠ d := by
  simp [getElem?_points_ofCall]

/-- **The copies are those of the templates.** -/
theorem news_eq_templates {b : Arena} (hGrown : a.Grown b)
    (hPoints : ∀ p, .point p ∈ program.queries d → a.Holds p)
    (hParameters : ∀ k, .parameter k ∈ program.queries d → args[k]? = none → a.Owns d k.source) :
    Copying.news b ⟨.ofCall (.ofSource source d args), a⟩ (program.queries d) =
      program.templates a d args := by
  rw [Copying.news, templates, List.filter_filterMap]
  refine congrArg List.eraseDups (List.filterMap_congr fun q hq => ?_)
  cases q with
  | point p =>
    rw [Query.about, Option.filter_some]
    refine if_congr ?_ rfl rfl
    rw [decide_eq_true_eq]
    exact and_congr points_eq_none_iff (hGrown.owns_iff (hPoints p hq))
  -- an open parameter needs a copy of the point that declares it, a given one needs nothing
  | parameter k =>
    by_cases hNew : args[k]? = none
    · rw [Query.about, if_pos hNew, Option.filter_some]
      refine if_congr ?_ rfl rfl
      rw [decide_eq_true_eq, and_iff_left (hParameters k hq hNew)]
      exact (and_iff_right hNew).trans points_eq_none_iff
    · rw [Query.about, if_neg hNew]
      exact if_neg fun h => hNew h.1

variable {s : Copying}

/-- When all is asked the copier has chosen what the map of the call has chosen. -/
theorem agrees_instantiation
    (hAsked : Copying.Asked s.arena ⟨.ofCall (.ofSource source d args), a⟩ (program.queries d) s)
    (hNews : Copying.news s.arena ⟨.ofCall (.ofSource source d args), a⟩ (program.queries d) =
      program.templates a d args) :
    s.copier.Agrees (program.instantiation a source d args) := by
  -- the copier and the map number the same templates from the same point on
  have hOnPoint : ∀ p, s.copier.onPoint p = program.counterpart a source d args p := by
    intro p
    rw [Copier.onPoint, hAsked.points, hNews, counterpart]
    dsimp only
    rw [getElem?_points_ofCall]
    split
    · rfl
    · cases (program.templates a d args).idxOf? p <;> rfl
  constructor
  · intro p q hFound
    exact (hOnPoint p).symm.trans (Copier.onPoint_eq hFound)
  · intro k t hFound
    rw [hAsked.args, hOnPoint] at hFound
    show args[k]?.getD _ = t
    rcases Option.or_eq_some_iff.mp hFound with hGiven | ⟨hNone, hAsk⟩
    · exact congrArg (Option.getD · _) hGiven
    · obtain ⟨-, hPoint⟩ := Option.ite_none_right_eq_some.mp hAsk
      exact (congrArg (Option.getD · _) hNone).trans (Option.some.inj hPoint)

end Program

/-- **A call puts the images of the constraints of its definition on the agenda.** They are
images under one map; it makes the definition the call site and numbers the points of the
definition that occur, in the order in which they do, from the first free number on. These are
the points that the arena gains, and nothing else happens. -/
theorem Session.call_eq_images {program : Program} {d : Point} {args : Substitution}
    {w : World} (s : Session) (source : Point)
    (hPoints : ∀ p, .point p ∈ program.queries d → w.arena.Holds p)
    (hParameters : ∀ k, .parameter k ∈ program.queries d → args[k]? = none →
      w.arena.Owns d k.source) :
    let m := program.instantiation w.arena source d args
    let templates := program.templates w.arena d args
    let images := (program.definition d).filterMap m.constraint
    ∃ agenda w',
      outcome (s.call program (.ofSource source d args)) w = (.ok { s with agenda }, w') ∧
      (∀ stage, agenda.lane stage = s.agenda.lane stage ++ images.filter (·.stage = stage)) ∧
      m.onPoint d = source ∧ (∀ p, p ≠ d → ¬ w.arena.Owns d p → m.onPoint p = p) ∧
      (∀ k, m.onParameter k = args[k]?.getD (.point (m.onPoint k.source))) ∧
      templates.map m.onPoint = (List.range templates.length).map (fun i => ⟨w.arena.size + i⟩) ∧
      w'.arena.size = w.arena.size + templates.length ∧ w.arena.Grown w'.arena ∧
      ∀ p ∈ templates, w'.arena.IsCopy (m.onPoint p) p source := by
  intro m templates images
  obtain ⟨cs, v, hRun⟩ := (CopyM.asks_constraints (program.definition d)).exists_outcome
    (s := ⟨.ofCall (.ofSource source d args), w.arena⟩) hPoints
    fun k hk hNone => (hParameters k hk hNone).holds
  -- all queries are answered, and in the end the copier has chosen what the map has chosen
  have hAsked := (CopyM.asks_constraints _).asked hRun .refl
  have hNews : Copying.news v.arena ⟨.ofCall (.ofSource source d args), w.arena⟩
      (program.queries d) = templates :=
    Program.news_eq_templates hAsked.grown hPoints hParameters
  have hReplays : Copying.Replays w.arena d ⟨.ofCall (.ofSource source d args), w.arena⟩ :=
    ⟨rfl, fun hNone => Program.points_eq_none_iff.mp hNone rfl, .refl⟩
  obtain rfl : cs = images := CopyM.constraints_eq_images hReplays hRun
    (Program.agrees_instantiation hAsked hNews)
  obtain ⟨w', hUnfold, hArena⟩ := Call.outcome_unfold (k := .ofSource source d args) hRun
  refine ⟨s.agenda.extend images, w', outcome_bind_ok hUnfold, s.agenda.lane_extend images,
    m.onNode, m.onOther, fun _ => rfl, Program.map_counterpart_templates, ?_, ?_, ?_⟩
  · rw [hArena, hAsked.size]
    exact congrArg (w.arena.size + List.length ·) hNews
  · rw [hArena]
    exact hAsked.grown
  · intro p hp
    obtain ⟨i, hi⟩ := List.mem_iff_getElem?.mp hp
    have hImage : m.onPoint p = ⟨w.arena.size + i⟩ := Program.counterpart_eq hi
    rw [hImage, hArena]
    exact hAsked.copies i p ((congrArg (·[i]?) hNews).trans hi)

namespace Program

/-- An open parameter, declared by a point of the definition, and one that is given. -/
def openParameter : Parameter :=
  { id := 0, name := "T", source := ⟨4⟩, infer := false }

/-- A parameter for which the call gives a type. -/
def givenParameter : Parameter :=
  { id := 1, name := "U", source := ⟨5⟩, infer := false }

def bothParameters : Ty :=
  .con .tuple [.con (.parameter openParameter) [] none,
    .con (.parameter givenParameter) [] none] none

/-- A definition with two points of its own, which mentions each of them more than once. -/
def paired : Program where
  definitions := (∅ : PointMap (List Constraint)).insert ⟨0⟩ [
    .ascribe { node := ⟨1⟩, type := bothParameters },
    .scoped (.ascribe { node := ⟨0⟩, type := .point ⟨1⟩ }),
    .call (.ofSource ⟨1⟩ ⟨3⟩ (.ofList [(givenParameter, Ty.point ⟨4⟩)])),
    .fallback { node := ⟨0⟩, type := .point ⟨3⟩ }]

/-- The definition is the first point and owns the second and the fifth. -/
def beforePaired : World where
  arena := ⟨([none, some ⟨0⟩, none, none, some ⟨0⟩, none].map fun owner =>
    { span := ⟨0, 0⟩, source := "", owner }).toArray⟩

def givenType : Substitution :=
  .ofList [(givenParameter, Ty.point ⟨3⟩)]

/-- Point 1 is asked for twice, and the definition itself once. -/
theorem queries_paired : paired.queries ⟨0⟩ =
    [.point ⟨1⟩, .parameter openParameter, .parameter givenParameter, .point ⟨1⟩, .point ⟨4⟩,
      .point ⟨0⟩, .point ⟨3⟩] := by
  decide +kernel

end Program

open Program in
theorem Session.call_eq_images_paired :
    (∀ p, .point p ∈ paired.queries ⟨0⟩ → beforePaired.arena.Holds p) ∧
    ∃ agenda w', outcome ((Session.start [] []).call paired (.ofSource ⟨2⟩ ⟨0⟩ givenType))
        beforePaired = (.ok { Session.start [] [] with agenda }, w') ∧
      agenda.lane .call = [.call (.ofSource ⟨6⟩ ⟨3⟩ (.ofList [(givenParameter, Ty.point ⟨7⟩)]))] ∧
      w'.arena.size = 8 ∧ w'.arena.IsCopy ⟨6⟩ ⟨1⟩ ⟨2⟩ ∧ w'.arena.IsCopy ⟨7⟩ ⟨4⟩ ⟨2⟩ := by
  have hPoints : ∀ p, .point p ∈ paired.queries ⟨0⟩ → beforePaired.arena.Holds p := by
    rw [queries_paired]
    simp only [List.mem_cons, List.not_mem_nil, or_false, Query.point.injEq, reduceCtorEq, false_or]
    rintro p (rfl | rfl | rfl | rfl | rfl) <;> decide
  have hParameters : ∀ k, .parameter k ∈ paired.queries ⟨0⟩ → givenType[k]? = none →
      beforePaired.arena.Owns ⟨0⟩ k.source := by
    rw [queries_paired]
    simp only [List.mem_cons, List.not_mem_nil, or_false, Query.parameter.injEq, reduceCtorEq,
      false_or]
    rintro k (rfl | rfl) hNone
    · decide
    · simp [givenType] at hNone
  have hTemplates : paired.templates beforePaired.arena ⟨0⟩ givenType = [⟨1⟩, ⟨4⟩] := by
    decide +kernel
  obtain ⟨agenda, w', hRun, hLanes, -, -, -, -, hSize, -, hCopies⟩ :=
    (Session.start [] []).call_eq_images ⟨2⟩ hPoints hParameters
  rw [hTemplates] at hSize hCopies
  have hFirst : paired.counterpart beforePaired.arena ⟨2⟩ ⟨0⟩ givenType ⟨1⟩ = ⟨6⟩ :=
    counterpart_eq (i := 0) (by rw [hTemplates]; rfl)
  have hSecond : paired.counterpart beforePaired.arena ⟨2⟩ ⟨0⟩ givenType ⟨4⟩ = ⟨7⟩ :=
    counterpart_eq (i := 1) (by rw [hTemplates]; rfl)
  refine ⟨hPoints, agenda, w', hRun, (hLanes .call).trans ?_, hSize, ?_, ?_⟩
  · rfl
  · exact hFirst ▸ hCopies ⟨1⟩ (by simp)
  · exact hSecond ▸ hCopies ⟨4⟩ (by simp)

end TraitInference
