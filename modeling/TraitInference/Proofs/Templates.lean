import TraitInference.Proofs.Normalization
import TraitInference.Proofs.Relabelling
import TraitInference.Proofs.Solving

/-!
# TraitInference — templates and their call sites

A definition is solved once, as a template in which its parameters are constants, and
its constraints are solved again wherever it is called. The two solutions agree: what
the call site turns out to be is what the definition turned out to be, with points in
the place of parameters and of points that are still unknown
(`Session.call_agrees_with_template`).

Copying a template never faults on points that are allocated, and gives different
points to the different things that a template mentions (`Copying.Faithful`); the rest
is a matter of solutions (`Unification.Opened`).
-/

namespace TraitInference

-- ---------------------------------------------------------------------------
-- Faithful copies
-- ---------------------------------------------------------------------------

/-- The point of which a copy is made for a parameter or a point. -/
def declaration : Parameter ⊕ Point → Point :=
  Sum.elim Parameter.source id

/-- The counterpart of a parameter or a point. -/
def Copier.label (c : Copier) (x : Parameter ⊕ Point) : Point :=
  c.onPoint (declaration x)

/-- The parameters and points that have counterparts. -/
def Copier.known (c : Copier) : Set (Parameter ⊕ Point) :=
  { x | ∃ q, c.points[declaration x]? = some q }

/-- Copying the definition `d` for a call site in the arena `a`: counterparts are
allocated, different things have different counterparts, and a parameter has that of
its declaration. -/
structure Copying.Faithful (a : Arena) (d site : Point) (s : Copying) : Prop where
  definition : s.copier.definition = d
  onSite     : s.copier.points[d]? = some site
  grown      : a.Grown s.arena
  held       : ∀ p q : Point, s.copier.points[p]? = some q → s.arena.Holds q
  injective  : ∀ p p' q : Point, s.copier.points[p]? = some q → s.copier.points[p']? = some q →
    p = p'
  args       : ∀ (k : Parameter) (t : Ty), s.copier.args[k]? = some t →
    ∃ q, t = .point q ∧ s.copier.points[k.source]? = some q

/-- A new point is the counterpart of nothing else. -/
theorem Copying.Faithful.insert {a : Arena} {d site p : Point} {s : Copying}
    (h : s.Faithful a d site) (hNew : s.copier.points[p]? = none) {arena : Arena}
    (hCopies : s.arena.Copies arena) :
    Copying.Faithful a d site
      ⟨{ s.copier with points := s.copier.points.insert p ⟨s.arena.size⟩ }, arena⟩ := by
  have hKept := Copier.extends_insert hNew ⟨s.arena.size⟩
  have hOld : ∀ x y : Point, s.copier.points[x]? = some y → y.index < s.arena.size := h.held
  have hCases : ∀ x y : Point, (s.copier.points.insert p ⟨s.arena.size⟩)[x]? = some y →
      x = p ∧ y = ⟨s.arena.size⟩ ∨ s.copier.points[x]? = some y := by
    intro x y hFound
    rw [PointMap.getElem?_insert] at hFound
    split at hFound
    · rename_i hEq
      exact .inl ⟨hEq, (Option.some.inj hFound).symm⟩
    · exact .inr hFound
  refine ⟨h.definition, hKept.points _ _ h.onSite, h.grown.tail hCopies, ?_, ?_, ?_⟩
  · intro x y hFound
    show y.index < arena.size
    have hSize := hCopies.size
    rcases hCases x y hFound with ⟨-, rfl⟩ | hFound
    · show s.arena.size < arena.size
      omega
    · have hLess := hOld x y hFound
      omega
  · intro x x' y hFound hFound'
    -- the new point is beyond all that were allocated, so no other counterpart is equal to it
    rcases hCases x y hFound with ⟨hx, hy⟩ | hBefore
    · rcases hCases x' y hFound' with ⟨hx', -⟩ | hBefore'
      · rw [hx, hx']
      · exact absurd (hOld x' y hBefore') (by rw [hy]; exact Nat.lt_irrefl _)
    · rcases hCases x' y hFound' with ⟨-, hy⟩ | hBefore'
      · exact absurd (hOld x y hBefore) (by rw [hy]; exact Nat.lt_irrefl _)
      · exact h.injective x x' y hBefore hBefore'
  · intro k t hFound
    obtain ⟨q, hq, hSource⟩ := h.args k t hFound
    exact ⟨q, hq, hKept.points _ _ hSource⟩

/-- What a template may ask for. -/
def Query.OfTemplate (a : Arena) (d : Point) : Query → Prop
  | .point p => p = d ∨ a.Owns d p
  | .parameter k => a.Holds k.source

/-- An answer that is read off the counterparts of points. -/
def Copying.Sends (s : Copying) : Reply → Prop
  | .point p q => s.copier.points[p]? = some q
  | .parameter k t => ∃ q, t = .point q ∧ s.copier.points[k.source]? = some q

namespace CopyM

variable {a : Arena} {d site : Point} {s : Copying}

/-- A copy is made of whatever is allocated. -/
theorem attains_fresh {p : Point} (hp : a.Holds p) (h : s.Faithful a d site) :
    Attains (fresh p) s fun q s' => s'.Faithful a d site ∧ s.copier.Extends s'.copier ∧
      s'.copier.points[p]? = some q := by
  obtain ⟨q, s', hRun⟩ := exists_fresh (Nat.lt_of_lt_of_le hp h.grown.size_le)
  refine ⟨q, s', hRun, ?_, extends_of_fresh hRun, found_of_fresh hRun⟩
  rcases fresh_cases hRun with ⟨-, rfl⟩ | ⟨hNew, arena, hCopy, rfl⟩
  · exact h
  · obtain rfl := Arena.copy_fst hCopy
    exact h.insert hNew ⟨p, s.copier.source, _, hCopy⟩

/-- The definition has its counterpart, and what it owns is copied. -/
theorem attains_point {p : Point} (hp : p = d ∨ a.Owns d p) (h : s.Faithful a d site) :
    Attains (point p) s fun q s' => s'.Faithful a d site ∧ s.copier.Extends s'.copier ∧
      s'.copier.points[p]? = some q := by
  cases hFound : s.copier.points[p]? with
  | some q =>
    refine ⟨q, s, ?_, h, .refl _, hFound⟩
    rw [outcome_point, hFound]
  | none =>
    rcases hp with rfl | hOwns
    · -- the definition has a counterpart from the beginning
      rw [h.onSite] at hFound
      cases hFound
    · have hp : a.Holds p := Arena.Owns.holds hOwns
      obtain ⟨q, s', hRun, hFresh⟩ := attains_fresh hp h
      refine ⟨q, s', ?_, hFresh⟩
      have hOwner : s.arena.owner p = .ok (some d) := (h.grown.owns_iff hp).mpr hOwns
      rw [outcome_point, hFound]
      dsimp only
      rw [hOwner]
      dsimp only
      rw [if_pos (by rw [h.definition])]
      exact hRun

/-- A parameter is replaced by the counterpart of its declaration. -/
theorem attains_parameter {k : Parameter} (hk : a.Holds k.source) (h : s.Faithful a d site) :
    Attains (parameter k) s fun t s' => s'.Faithful a d site ∧ s.copier.Extends s'.copier ∧
      ∃ q, t = .point q ∧ s'.copier.points[k.source]? = some q := by
  obtain ⟨t, s', hRun⟩ := exists_parameter fun _ => Nat.lt_of_lt_of_le hk h.grown.size_le
  refine ⟨t, s', hRun, ?_⟩
  have hKept := extends_of_parameter hRun
  rcases parameter_cases hRun with ⟨hFound, rfl⟩ | ⟨-, q, v, hFresh, rfl, rfl⟩
  · exact ⟨h, hKept, h.args k t hFound⟩
  · obtain ⟨hFaithful, -, hNew⟩ := (attains_fresh hk h).yields q v hFresh
    refine ⟨⟨hFaithful.definition, hFaithful.onSite, hFaithful.grown, hFaithful.held,
      hFaithful.injective, fun j t hj => ?_⟩, hKept, q, rfl, hNew⟩
    simp only [Std.ExtTreeMap.getElem?_insert, Std.LawfulEqOrd.compare_eq_iff_eq] at hj
    split at hj
    · rename_i hEq
      exact ⟨q, (Option.some.inj hj).symm, hEq ▸ hNew⟩
    · exact hFaithful.args j t hj

/-- **The course of copying a template.** -/
theorem course_faithful (a : Arena) (d site : Point) :
    SureCourse (Query.OfTemplate a d) (Copying.Faithful a d site)
      (fun s s' => s.copier.Extends s'.copier) Copying.Sends where
  refl s := .refl s.copier
  trans := Copier.Extends.trans
  keeps {s s' r} hKept hr := by
    cases r with
    | point p q => exact hKept.points p q hr
    | parameter k t =>
      obtain ⟨q, ht, hFound⟩ := hr
      exact ⟨q, ht, hKept.points k.source q hFound⟩
  point := attains_point
  parameter := attains_parameter

end CopyM

-- ---------------------------------------------------------------------------
-- Copies of types within a set of parameters and points
-- ---------------------------------------------------------------------------

section Within

variable {S S' : Set (Parameter ⊕ Point)}

/-- What a query is about. -/
def Query.subject : Query → Parameter ⊕ Point
  | .point p => .inr p
  | .parameter k => .inl k

namespace Ty

mutual

/-- A type within `S` asks for nothing outside of it. -/
theorem Within.subject_mem : ∀ {t : Ty}, t.Within S → ∀ q ∈ t.queries, q.subject ∈ S
  | .point _, h, _, hq => List.mem_singleton.mp hq ▸ h
  | .con tag children emit, h, q, hq => by
    cases tag with
    | parameter k => exact List.mem_singleton.mp hq ▸ h.1
    | _ => exact AllWithin.subject_mem h q hq

theorem AllWithin.subject_mem : ∀ {ts : List Ty}, AllWithin S ts →
    ∀ q ∈ queriesOfAll ts, q.subject ∈ S
  | [], _, _, hq => absurd hq List.not_mem_nil
  | _ :: _, h, q, hq =>
    (List.mem_append.mp hq).elim (h.1.subject_mem q) (AllWithin.subject_mem h.2 q)

end

mutual

/-- What a type mentions is what its copy asks for. -/
theorem Within.inter : ∀ {t : Ty}, t.Within S → (∀ q ∈ t.queries, q.subject ∈ S') →
    t.Within (S ∩ S')
  | .point p, h, h' => ⟨h, h' (.point p) List.mem_cons_self⟩
  | .con tag children emit, h, h' => by
    cases tag with
    | parameter k => exact ⟨⟨h.1, h' (.parameter k) List.mem_cons_self⟩, h.2⟩
    | _ => exact AllWithin.inter h h'

theorem AllWithin.inter : ∀ {ts : List Ty}, AllWithin S ts →
    (∀ q ∈ queriesOfAll ts, q.subject ∈ S') → AllWithin (S ∩ S') ts
  | [], _, _ => trivial
  | _ :: _, h, h' =>
    ⟨h.1.inter fun q hq => h' q (List.mem_append_left _ hq),
      AllWithin.inter h.2 fun q hq => h' q (List.mem_append_right _ hq)⟩

end

end Ty

namespace Ascription

variable {x x' : Ascription}

/-- An ascription does not either. -/
theorem Within.subject_mem (h : x.Within S) : ∀ q ∈ x.queries, q.subject ∈ S :=
  List.forall_mem_cons.mpr ⟨h.node, h.type.subject_mem⟩

/-- What an ascription mentions is what its copy asks for. -/
theorem Within.inter (h : x.Within S) (h' : ∀ q ∈ x.queries, q.subject ∈ S') :
    x.Within (S ∩ S') := by
  obtain ⟨hNode, hType⟩ := List.forall_mem_cons.mp h'
  exact ⟨⟨h.node, hNode⟩, h.type.inter hType⟩

/-- What is filled in is read off one map. -/
theorem Filled.eq_relabel {s : Copying} (h : x.Filled s.Sends x') :
    x' = x.relabel s.copier.label := by
  obtain ⟨node, type, hNode, hType, rfl⟩ := h
  have hImage : x.type.relabel s.copier.label = type := by
    refine hType.image_eq (P := fun _ => True) (fun p q _ hFound => Copier.onPoint_eq hFound)
      (fun k u hu => ?_) fun _ _ => trivial
    obtain ⟨q, rfl, hFound⟩ := hu
    exact congrArg Ty.point (Copier.onPoint_eq hFound)
  obtain rfl : s.copier.label (.inr x.node) = node := Copier.onPoint_eq hNode
  rw [← hImage]
  rfl

end Ascription

theorem Constraint.FilledAll.eq_relabel {s : Copying} : ∀ {as : List Ascription}
    {cs : List Constraint}, FilledAll s.Sends (as.map .ascribe) cs →
    cs = (as.map (Ascription.relabel s.copier.label)).map .ascribe
  | [], _, h => h
  | _ :: _, _, h => by
    obtain ⟨_, rest, ⟨x', hx', rfl⟩, hRest, rfl⟩ := h
    rw [hx'.eq_relabel, hRest.eq_relabel]
    rfl

end Within

/-- **A template is copied by one map.** -/
theorem CopyM.attains_constraints {a : Arena} {d site : Point} {S : Set (Parameter ⊕ Point)}
    {as : List Ascription} {s : Copying} (hPoints : ∀ p, .inr p ∈ S → p = d ∨ a.Owns d p)
    (hParameters : ∀ k, .inl k ∈ S → a.Holds k.source) (hWithin : ∀ x ∈ as, x.Within S)
    (h : s.Faithful a d site) :
    Attains (constraints (as.map .ascribe)) s fun cs s' => s'.Faithful a d site ∧
      (∀ x ∈ as, x.Within (S ∩ s'.copier.known)) ∧
      cs = (as.map (Ascription.relabel s'.copier.label)).map .ascribe := by
  have hQueries : ∀ q ∈ (as.map Constraint.ascribe).flatMap Constraint.queries,
      q.OfTemplate a d := by
    intro q hq
    obtain ⟨_, hc, hq⟩ := List.mem_flatMap.mp hq
    obtain ⟨x, hx, rfl⟩ := List.mem_map.mp hc
    have hSubject := (hWithin x hx).subject_mem q hq
    cases q with
    | point p => exact hPoints p hSubject
    | parameter k => exact hParameters k hSubject
  obtain ⟨cs, s', hRun, hFaithful, -, hReplies, hFilled⟩ :=
    (asks_constraints _).attains (course_faithful a d site) hQueries h
  refine ⟨cs, s', hRun, hFaithful, fun x hx => (hWithin x hx).inter fun q hq => ?_,
    hFilled.eq_relabel⟩
  -- what was answered has a counterpart
  obtain ⟨r, rfl, hr⟩ := hReplies q (List.mem_flatMap.mpr ⟨_, List.mem_map_of_mem hx, hq⟩)
  cases r with
  | point p p' => exact ⟨p', hr⟩
  | parameter k t =>
    obtain ⟨p', -, hFound⟩ := hr
    exact ⟨p', hFound⟩

-- ---------------------------------------------------------------------------
-- Templates
-- ---------------------------------------------------------------------------

/-- The ascriptions of the definition `d`, in which `S` is what they mention, the
definition included: points are owned by it, parameters have no children, and no two
things in `S` are declared by the same point. -/
structure Template (a : Arena) (d : Point) (S : Set (Parameter ⊕ Point)) (as : List Ascription) :
    Prop where
  unconditional : ∀ x ∈ as, x.Unconditional
  within        : ∀ x ∈ as, x.Within S
  self          : .inr d ∈ S
  points        : ∀ p, .inr p ∈ S → p = d ∨ a.Owns d p
  parameters    : ∀ k, .inl k ∈ S → a.Holds k.source
  undeclared    : ∀ k, .inl k ∈ S → .inr k.source ∉ S
  distinct      : ∀ k k', .inl k ∈ S → .inl k' ∈ S → k.source = k'.source → k = k'

/-- The things that a template mentions are declared by different points. -/
theorem Template.injOn_declaration {a : Arena} {d : Point} {S : Set (Parameter ⊕ Point)}
    {as : List Ascription} (h : Template a d S as) : S.InjOn declaration := by
  rintro (k | p) hx (k' | p') hx' hEq
  · rw [h.distinct k k' hx hx' hEq]
  · obtain rfl : k.source = p' := hEq
    exact absurd hx' (h.undeclared k hx)
  · obtain rfl : p = k'.source := hEq
    exact absurd hx (h.undeclared k' hx')
  · exact congrArg Sum.inr hEq

/-- What different things a template mentions have different counterparts. -/
theorem Template.injOn_label {a : Arena} {d site : Point} {S : Set (Parameter ⊕ Point)}
    {as : List Ascription} (h : Template a d S as) {s : Copying} (hs : s.Faithful a d site) :
    (S ∩ s.copier.known).InjOn s.copier.label := by
  rintro x ⟨hx, q, hq⟩ y ⟨hy, q', hq'⟩ hEq
  have hLabels : q = q' := by
    rw [← Copier.onPoint_eq hq, ← Copier.onPoint_eq hq']
    exact hEq
  exact h.injOn_declaration hx hy (hs.injective _ _ _ hq (hLabels ▸ hq'))

/-- Copying starts faithful if the call site is allocated. -/
theorem Copying.faithful_ofSource {a : Arena} {d site : Point} (hSite : a.Holds site) :
    Copying.Faithful a d site ⟨.ofCall (.ofSource site d ∅), a⟩ := by
  have hOnly : ∀ p q : Point, (Copier.ofCall (.ofSource site d ∅)).points[p]? = some q →
      p = d ∧ q = site := fun p q => (Call.getElem?_points_ofSource ∅).mp
  refine ⟨rfl, (Call.getElem?_points_ofSource ∅).mpr ⟨rfl, rfl⟩, .refl, fun p q hFound => ?_,
    fun p p' q hFound hFound' => ?_, fun k t hFound => ?_⟩
  · rw [(hOnly p q hFound).2]
    exact hSite
  · rw [(hOnly p q hFound).1, (hOnly p' q hFound').1]
  · simp [Copier.ofCall, Call.ofSource] at hFound

-- ---------------------------------------------------------------------------
-- The session of a call
-- ---------------------------------------------------------------------------

namespace SolveM

variable {α : Type} {x : SolveM α} {w : World} {Q : α → Prop}

theorem attains_emit (e : Trace.Event) (w : World) :
    Attains (emit e) w fun _ w' => w'.arena = w.arena :=
  ⟨(), _, rfl, rfl⟩

theorem attains_within (sp : Trace.Span)
    (hx : ∀ w' : World, w'.arena = w.arena → Attains x w' fun v _ => Q v) :
    Attains (within sp x) w fun v _ => Q v := by
  have hEnter : Attains (modify fun w => { w with log := .enter sp :: w.log } : SolveM PUnit) w
      fun _ w' => w'.arena = w.arena := ⟨(), _, rfl, rfl⟩
  refine hEnter.bind fun _ w' hArena => (hx w' hArena).bind fun v w'' hv => ?_
  exact ⟨v, _, rfl, hv⟩

end SolveM

namespace Session

variable {program : Program} {d site : Point} {S : Set (Parameter ⊕ Point)} {as : List Ascription}

/-- A template is unfolded for a call site by one map, whatever the call site is. -/
theorem attains_unfold {w : World} (hTemplate : Template w.arena d S as)
    (hDefinition : program.definition d = as.map .ascribe) (hSite : w.arena.Holds site) :
    Attains ((Call.ofSource site d ∅).unfold program) w fun result _ => ∃ copied : Copying,
      copied.Faithful w.arena d site ∧ (∀ x ∈ as, x.Within (S ∩ copied.copier.known)) ∧
      result.1 = (as.map (Ascription.relabel copied.copier.label)).map .ascribe := by
  refine SolveM.attains_within _ fun w₁ hw₁ => ?_
  refine (SolveM.attains_emit _ w₁).bind fun _ w₂ hw₂ => ?_
  obtain ⟨cs, copied, hCopy, hFaithful, hWithin, hCopies⟩ := CopyM.attains_constraints
    hTemplate.points hTemplate.parameters hTemplate.within (Copying.faithful_ofSource hSite)
  -- what was logged meanwhile has left the arena alone
  rw [← hw₁, ← hw₂] at hCopy
  refine ⟨(cs, copied.copier), { w₂ with arena := copied.arena }, ?_, copied, hFaithful,
    hWithin, hCopies⟩
  show outcome (SolveM.copy _ (CopyM.constraints (program.definition d))) w₂ = _
  rw [hDefinition, SolveM.outcome_copy, hCopy]

/-- The first thing that a session of one constraint works off is that constraint. -/
theorem exists_popBefore_start (implied : List Instance) (c : Constraint) :
    ∃ agenda, (start implied [c]).agenda.popBefore none = some (c, agenda) ∧
      agenda.toList = [] := by
  have hList : (start implied [c]).agenda.toList = [c] :=
    List.perm_singleton.mp (Agenda.toList_extend _ [c])
  cases hPop : (start implied [c]).agenda.popBefore none with
  | none =>
    rw [Agenda.toList_eq_nil hPop] at hList
    cases hList
  | some next =>
    obtain ⟨c', agenda⟩ := next
    rw [Agenda.toList_of_popBefore hPop, List.cons.injEq] at hList
    obtain ⟨rfl, hEmpty⟩ := hList
    exact ⟨agenda, rfl, hEmpty⟩

/-- After the call, copies of the ascriptions are on the agenda. -/
theorem exists_run_call (steps depth : Nat) {w : World} (hTemplate : Template w.arena d S as)
    (hDefinition : program.definition d = as.map .ascribe) (hSite : w.arena.Holds site) :
    ∃ (s : Session) (w' : World) (copied : Copying),
      (run program ⟨steps + 1, depth⟩ (start [] [.call (.ofSource site d ∅)])).runIn w =
        (s.runBefore program depth none steps).runIn w' ∧
      s.unification.Expresses [] ∧
      s.agenda.toList.Perm ((as.map (Ascription.relabel copied.copier.label)).map .ascribe) ∧
      copied.Faithful w.arena d site ∧ ∀ x ∈ as, x.Within (S ∩ copied.copier.known) := by
  obtain ⟨agenda, hPop, hEmpty⟩ := exists_popBefore_start [] (.call (.ofSource site d ∅))
  obtain ⟨_, w₁, hEmit, hArena⟩ := SolveM.attains_emit (.run .call agenda.size) w
  obtain ⟨⟨cs, copier⟩, w₂, hUnfold, copied, hFaithful, hWithin, hCopies⟩ :=
    attains_unfold (w := w₁) (hArena ▸ hTemplate) hDefinition (hArena ▸ hSite)
  refine ⟨{ start [] [.call (.ofSource site d ∅)] with agenda := agenda.extend cs }, w₂, copied, ?_,
    expresses_start [] [], ?_, hArena ▸ hFaithful, hWithin⟩
  · -- the first turn is that of the call
    show outcome (runBefore program depth none (steps + 1) _) w = _
    conv_lhs => unfold runBefore
    rw [hPop]
    exact (outcome_bind_ok hEmit).trans (outcome_bind_ok (outcome_bind_ok hUnfold))
  · have hExtend := Agenda.toList_extend agenda cs
    rw [hEmpty, List.append_nil] at hExtend
    exact hCopies ▸ hExtend

/-- The session of a call that ends has come to express copies of the ascriptions. -/
theorem run_call_expresses {limits : Limits} {w : World} {σ : Assignment}
    (hTemplate : Template w.arena d S as)
    (hDefinition : program.definition d = as.map .ascribe) (hSite : w.arena.Holds site)
    (hSolution : ∀ x ∈ as, x.Holds σ)
    (hLong : ((run program limits (start [] [.call (.ofSource site d ∅)])).runIn w).1 ≠
      .error .tooLong)
    (hDeep : ((run program limits (start [] [.call (.ofSource site d ∅)])).runIn w).1 ≠
      .error .tooDeep) :
    ∃ (s : Session) (copied : Copying),
      ((run program limits (start [] [.call (.ofSource site d ∅)])).runIn w).1 = .ok s ∧
      s.unification.Expresses (as.map (Ascription.relabel copied.copier.label)) ∧
      copied.Faithful w.arena d site ∧ ∀ x ∈ as, x.Within (S ∩ copied.copier.known) := by
  obtain ⟨steps, depth⟩ := limits
  cases steps with
  | zero => exact absurd rfl hLong
  | succ steps =>
    obtain ⟨s, w', copied, hRun, hStart, hAgenda, hFaithful, hWithin⟩ :=
      exists_run_call steps depth hTemplate hDefinition hSite
    obtain ⟨undo, hUndo⟩ := exists_undo (hTemplate.injOn_label hFaithful)
    have hFirm : ∀ x ∈ as.map (Ascription.relabel copied.copier.label), x.Unconditional :=
      List.forall_mem_map.mpr fun x hx =>
        ⟨(hTemplate.unconditional x hx).everywhere, (hTemplate.unconditional x hx).firm⟩
    -- a solution of the template, read backwards through the map, is one of the copies
    have hSolution' : ∀ x ∈ [] ++ as.map (Ascription.relabel copied.copier.label),
        x.Holds fun y => (undo y).value σ :=
      List.forall_mem_map.mpr fun x hx => (hWithin x hx).holds_undo hUndo (hSolution x hx)
    obtain ⟨result, hAnswers, hEnding⟩ := runBefore_expresses steps hFirm hAgenda hStart hSolution'
    rw [hRun, hAnswers w'] at hLong hDeep ⊢
    cases hEnding with
    | expressed h => exact ⟨_, copied, rfl, h, hFaithful, hWithin⟩
    | tooLong _ => exact absurd rfl hLong
    | tooDeep _ _ => exact absurd rfl hDeep

/--
**Solving a template commutes with instantiating it.** Let the constraints of a
definition be ascriptions that are worked off everywhere and yield to nothing, that
mention as points only the definition and points it owns, whose parameters have no
children, and in which no two parameters or points have one declaration. Let them have
a solution in finite trees, in which parameters are constants. If the session of the
definition ends, and the session that only calls the definition at an allocated point
ends as well, then the latter has found no conflict, and what it knows of the call site
is what the former knows of the definition, up to emission templates and one injective
map that puts points in the place of parameters and unknown points. Nothing else is left
to be replaced: every point in the normal form of the definition is the representative of a
class without types.
-/
theorem call_agrees_with_template {limits limits' : Limits} {w w' : World} {σ : Assignment}
    {implied : List Instance} {s : Session} (hTemplate : Template w.arena d S as)
    (hDefinition : program.definition d = as.map .ascribe) (hSite : w.arena.Holds site)
    (hSolution : ∀ x ∈ as, x.Holds σ)
    (hOwn : ((run program limits' (start implied (as.map .ascribe))).runIn w').1 = .ok s)
    (hLong : ((run program limits (start [] [.call (.ofSource site d ∅)])).runIn w).1 ≠
      .error .tooLong)
    (hDeep : ((run program limits (start [] [.call (.ofSource site d ∅)])).runIn w).1 ≠
      .error .tooDeep) :
    ∃ s' : Session,
      ((run program limits (start [] [.call (.ofSource site d ∅)])).runIn w).1 = .ok s' ∧
      s'.unification.hasError = false ∧
      (∀ p ∈ (s.unification.apply (.point d)).points,
        s.unification.representative p = p ∧ s.unification.typesOf p = []) ∧
      ∃ f : Parameter ⊕ Point → Point, Function.Injective f ∧
        (s'.unification.apply (.point site)).same
          ((s.unification.apply (.point d)).relabel f) = true := by
  obtain ⟨result, hAnswers, hEnding⟩ :=
    run_expresses program limits' implied hTemplate.unconditional hSolution
  rw [hAnswers w'] at hOwn
  subst hOwn
  obtain ⟨s', copied, hCall, hCopies, hFaithful, hWithin⟩ :=
    run_call_expresses hTemplate hDefinition hSite hSolution hLong hDeep
  obtain ⟨undo, hUndo⟩ := exists_undo (hTemplate.injOn_label hFaithful)
  refine ⟨s', hCall, hCopies.clean.noError, ?_⟩
  cases hEnding with
  | expressed hOriginal =>
    -- a state with a solution in finite trees is acyclic
    have hFormed := hOriginal.reachable.wellFormed
    have hAcyclic := ((hOriginal.solves σ).mpr hSolution).acyclic hFormed
    refine ⟨Unification.open_of_mem_apply hFormed.forest.ends hAcyclic _, ?_⟩
    have hOpened : Unification.Opened s.unification s'.unification as (S ∩ copied.copier.known)
        copied.copier.label undo := ⟨hOriginal, hCopies, hWithin, hUndo, σ, hSolution⟩
    obtain ⟨f, hInj, hNormal⟩ := hOpened.exists_relabel_normal (p := d)
      ⟨hTemplate.self, site, hFaithful.onSite⟩
    refine ⟨f, hInj, (Ty.same_iff _ _).mpr ?_⟩
    rw [Ty.erase_relabel]
    rw [show copied.copier.label (.inr d) = site from Copier.onPoint_eq hFaithful.onSite] at hNormal
    exact hNormal

-- A function from its parameter, declared at point 2, to blocks of something that stays
-- unknown, point 3. The call site is point 4.

/-- The parameter of the function. -/
def anything : Parameter :=
  ⟨0, "anything", ⟨2⟩, false⟩

/-- What is said about the function and about its result. -/
def wrapper : List Ascription :=
  [{ node := ⟨0⟩, type := .con .function [.con (.parameter anything) [] none, .point ⟨1⟩] none },
    { node := ⟨1⟩, type := .con .block [.point ⟨3⟩] none }]

def wrapping : Program where
  definitions := (∅ : PointMap (List Constraint)).insert ⟨0⟩ (wrapper.map .ascribe)

/-- Five points, of which the definition owns all but itself and the call site. -/
def beforeWrapping : World where
  arena := ⟨([none, some ⟨0⟩, some ⟨0⟩, some ⟨0⟩, none].map fun owner =>
    { span := ⟨0, 0⟩, source := "", owner }).toArray⟩

/-- It mentions the function, its result, the unknown point and the parameter. -/
theorem template_wrapper : Template beforeWrapping.arena ⟨0⟩
    {.inr ⟨0⟩, .inr ⟨1⟩, .inr ⟨3⟩, .inl anything} wrapper where
  unconditional := by
    simp only [wrapper, List.forall_mem_cons]
    exact ⟨⟨rfl, rfl⟩, ⟨rfl, rfl⟩, by simp⟩
  within := by
    simp only [wrapper, List.forall_mem_cons]
    exact ⟨⟨by simp, ⟨by simp, rfl⟩, by simp [Ty.Within], trivial⟩,
      ⟨by simp, by simp [Ty.Within], trivial⟩, by simp⟩
  self := by simp
  points := by
    rintro p (hp | hp | hp | hp)
    · exact .inl (Sum.inr.inj hp)
    · exact .inr (Sum.inr.inj hp ▸ rfl)
    · exact .inr (Sum.inr.inj hp ▸ rfl)
    · cases hp
  parameters := by
    rintro k (hk | hk | hk | hk)
    · cases hk
    · cases hk
    · cases hk
    · exact Sum.inl.inj hk ▸ (by decide)
  undeclared := by
    rintro k (hk | hk | hk | hk)
    · cases hk
    · cases hk
    · cases hk
    · obtain rfl := Sum.inl.inj hk
      simp [anything]
  distinct := by
    rintro k k' (hk | hk | hk | hk) (hk' | hk' | hk' | hk') - <;> simp_all

/-- The call site becomes a function from something unknown to blocks of something else
that is unknown. -/
theorem call_agrees_with_template_wrapper : ∃ s s' : Session,
    ((run wrapping ⟨3, 3⟩ (start [] (wrapper.map .ascribe))).runIn beforeWrapping).1 = .ok s ∧
    ((run wrapping ⟨4, 3⟩ (start [] [.call (.ofSource ⟨4⟩ ⟨0⟩ ∅)])).runIn beforeWrapping).1 =
      .ok s' ∧
    s'.unification.hasError = false ∧
    (∀ p ∈ (s.unification.apply (.point ⟨0⟩)).points,
      s.unification.representative p = p ∧ s.unification.typesOf p = []) ∧
    ∃ f : Parameter ⊕ Point → Point, Function.Injective f ∧
      (s'.unification.apply (.point ⟨4⟩)).same
        ((s.unification.apply (.point ⟨0⟩)).relabel f) = true := by
  have hOwn : ((run wrapping ⟨3, 3⟩ (start [] (wrapper.map .ascribe))).runIn
      beforeWrapping).1.isOk = true := by decide +kernel
  have hCall : ((run wrapping ⟨4, 3⟩ (start [] [.call (.ofSource ⟨4⟩ ⟨0⟩ ∅)])).runIn
      beforeWrapping).1.isOk = true := by decide +kernel
  have hEnds : ∀ e, ((run wrapping ⟨4, 3⟩ (start [] [.call (.ofSource ⟨4⟩ ⟨0⟩ ∅)])).runIn
      beforeWrapping).1 ≠ .error e := by
    intro e hEq
    rw [hEq] at hCall
    cases hCall
  cases hRun : ((run wrapping ⟨3, 3⟩ (start [] (wrapper.map .ascribe))).runIn beforeWrapping).1 with
  | error e =>
    rw [hRun] at hOwn
    cases hOwn
  | ok s =>
    have hSolution : ∀ x ∈ wrapper, x.Holds fun p =>
        if p = ⟨0⟩ then
          .node .function [.node (.parameter anything) [], .node .block [.node .tuple []]]
        else if p = ⟨1⟩ then .node .block [.node .tuple []] else .node .tuple [] := by
      simp only [wrapper, List.forall_mem_cons]
      exact ⟨rfl, rfl, by simp⟩
    have hDefinition : wrapping.definition ⟨0⟩ = wrapper.map .ascribe := by
      simp [wrapping, Program.definition]
    obtain ⟨s', hAgrees⟩ := call_agrees_with_template template_wrapper hDefinition
      (show beforeWrapping.arena.Holds ⟨4⟩ by decide) hSolution hRun (hEnds .tooLong)
      (hEnds .tooDeep)
    exact ⟨s, s', rfl, hAgrees⟩

end Session

end TraitInference
