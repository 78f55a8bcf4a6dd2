import TraitInference.Proofs.Relocation

/-!
# TraitInference — call sites do not influence each other

A call replays a definition with fresh points, so whoever uses the same definition
elsewhere should not notice. For a definition whose constraints are ascriptions, fallbacks
and what is left out of copies, about its own points only, this is so:

* `Call.mints_unfold` — all points that a call allocates are made for its call site, and what
  it unfolds to speaks about these and the call site only.
* `CallSite.Territory` — the points of a call site and those made for it. Two call sites
  without a common point have disjoint territories.
* `CallSite.run_apart` — so their sessions run side by side (`Session.run_beside`), and what
  the one finds is what it finds alone, in another arena (`Session.runBefore_relocated`).
* `Program.typesOf_call_site_eq_alone` — the same for solutions of programs.
-/

namespace TraitInference

-- ---------------------------------------------------------------------------
-- The points that a call makes
-- ---------------------------------------------------------------------------

/-- The point was copied on behalf of `site`. -/
def Arena.MadeFor (a : Arena) (site p : Point) : Prop :=
  ∃ st, a.site p = .ok st ∧ st.copiedBy = some site

/-- Whom a copy was made for does not change while the arena grows. -/
theorem Arena.Grown.madeFor {a a' : Arena} (h : a.Grown a') {site p : Point}
    (hp : a.MadeFor site p) : a'.MadeFor site p := by
  obtain ⟨st, hSite, hBy⟩ := hp
  exact ⟨st, (h.site_eq (Arena.holds_of_site hSite)).trans hSite, hBy⟩

/-- The call site itself, or a point that `a'` holds and `a` did not. -/
def Arena.Minted (a a' : Arena) (site p : Point) : Prop :=
  p = site ∨ a'.Holds p ∧ ¬ a.Holds p

/-- Neither does it stop being minted. -/
theorem Arena.Grown.minted {a a' a'' : Arena} (h : a'.Grown a'') {site p : Point}
    (hp : a.Minted a' site p) : a.Minted a'' site p :=
  hp.imp id fun hNew => ⟨h.holds p hNew.1, hNew.2⟩

mutual

/-- What is over some points has no others. -/
theorem Ty.Over.inside {T D : Point → Prop} : ∀ {t : Ty}, t.Over T D → t.Inside T
  | .point _, h => Ty.inside_point.mpr h
  | .con _ _ _, h => Ty.inside_con.mpr (Ty.OverAll.inside h.2)

theorem Ty.OverAll.inside {T D : Point → Prop} : ∀ {ts : List Ty}, Ty.OverAll T D ts →
    ∀ t ∈ ts, t.Inside T
  | [], _ => fun _ ht => absurd ht List.not_mem_nil
  | _ :: _, h => List.forall_mem_cons.mpr ⟨h.1.inside, Ty.OverAll.inside h.2⟩

end

theorem Ty.Inside.mono {R R' : Point → Prop} (hR : ∀ p, R p → R' p) {t : Ty} (h : t.Inside R) :
    t.Inside R' :=
  fun p hp => hR p (h p hp)

theorem Ascription.Inside.mono {R R' : Point → Prop} (hR : ∀ p, R p → R' p) {a : Ascription}
    (h : a.Inside R) : a.Inside R' :=
  ⟨hR _ h.node, h.type.mono hR⟩

/-- A plain constraint about some points is one about more points. -/
theorem Constraint.Plain.mono {R R' : Point → Prop} (hR : ∀ p, R p → R' p) {c : Constraint}
    (h : c.Plain R) : c.Plain R' := by
  cases h with
  | ascribe ha => exact .ascribe (ha.mono hR)
  | fallback ha => exact .fallback (ha.mono hR)

/-- The definition `d` is being copied for a call site, from the arena `a` on: whatever has
been allocated since was made for that call site, and nothing else is a counterpart. -/
structure Copying.Minting (a : Arena) (d site : Point) (s : Copying) : Prop where
  definition : s.copier.definition = d
  source     : s.copier.source = site
  onSite     : s.copier.points[d]? = some site
  grown      : a.Grown s.arena
  made       : ∀ p, s.arena.Holds p → a.Holds p ∨ s.arena.MadeFor site p
  points     : ∀ p q : Point, s.copier.points[p]? = some q → a.Minted s.arena site q
  args       : ∀ (k : Parameter) (t : Ty), s.copier.args[k]? = some t →
    t.Inside (a.Minted s.arena site)

/-- A call that comes with no arguments begins with its call site as the only counterpart. -/
theorem Copying.minting_ofSource (a : Arena) (d site : Point) :
    Copying.Minting a d site ⟨.ofCall (.ofSource site d ∅), a⟩ where
  definition := rfl
  source := rfl
  onSite := (Call.getElem?_points_ofSource ∅).mpr ⟨rfl, rfl⟩
  grown := .refl
  made _ := .inl
  points _ _ hFound := .inl ((Call.getElem?_points_ofSource ∅).mp hFound).2
  args k t hFound := by simp [Copier.ofCall, Call.ofSource] at hFound

namespace CopyM

variable {a : Arena} {d site : Point} {s : Copying}

/-- The copy of a point is made for the call site. -/
theorem minting_copy (h : s.Minting a d site) {p q : Point} {arena : Arena}
    (hNew : s.copier.points[p]? = none) (hCopy : s.arena.copy p s.copier.source = .ok (q, arena)) :
    Copying.Minting a d site ⟨{ s.copier with points := s.copier.points.insert p q }, arena⟩ ∧
      a.Minted arena site q := by
  have hGrows : s.arena.Grown arena := .single ⟨p, _, q, hCopy⟩
  obtain ⟨st, hSite, -⟩ := Arena.copy_eq_ok_iff.mp hCopy
  have hCopied := Arena.site_of_copy hCopy hSite
  have hFresh : a.Minted arena site q := by
    refine .inr ⟨Arena.holds_of_site hCopied, ?_⟩
    rw [Arena.copy_fst hCopy]
    exact Nat.not_lt.mpr h.grown.size_le
  have hMade : arena.MadeFor site q := ⟨_, hCopied, congrArg some h.source⟩
  refine ⟨⟨h.definition, h.source, ?_, h.grown.trans hGrows, ?_, ?_, ?_⟩, hFresh⟩
  · exact (Copier.extends_insert hNew q).points d site h.onSite
  · -- of the points of the new arena only `q` was not there before
    intro x hx
    by_cases hOld : s.arena.Holds x
    · exact (h.made x hOld).imp id hGrows.madeFor
    · rw [Arena.eq_of_copy hCopy hx hOld]
      exact .inr hMade
  · intro x y hFound
    rw [PointMap.getElem?_insert] at hFound
    split at hFound
    · exact Option.some.inj hFound ▸ hFresh
    · exact hGrows.minted (h.points x y hFound)
  · intro k t hFound
    exact (h.args k t hFound).mono fun x => hGrows.minted

/-- A counterpart that is made on demand is minted, whether or not it was asked for before. -/
theorem mints_fresh {p : Point} (h : s.Minting a d site) : Yields (fresh p) s fun q s' =>
    s'.Minting a d site ∧ s.arena.Grown s'.arena ∧ a.Minted s'.arena site q := by
  intro q s' hRun
  rcases fresh_cases hRun with ⟨hFound, rfl⟩ | ⟨hNone, arena, hCopy, rfl⟩
  · exact ⟨h, .refl, h.points p q hFound⟩
  · obtain ⟨hMinting, hq⟩ := minting_copy h hNone hCopy
    exact ⟨hMinting, .single ⟨p, _, q, hCopy⟩, hq⟩

/-- The counterparts of the definition and its own points are minted. -/
theorem mints_point {p : Point} (hp : p = d ∨ a.Owns d p) (h : s.Minting a d site) :
    Yields (point p) s fun q s' =>
      s'.Minting a d site ∧ s.arena.Grown s'.arena ∧ a.Minted s'.arena site q := by
  intro q s' hRun
  rcases point_cases hRun with ⟨hFound, rfl⟩ | ⟨hNone, -, ⟨-, hFresh⟩ | ⟨hOther, -, -⟩⟩
  · exact ⟨h, .refl, h.points p q hFound⟩
  · exact mints_fresh h q s' hFresh
  · -- neither the definition, whose counterpart is there, nor what it owns is left as it is
    rw [h.definition] at hOther
    rcases hp with rfl | hOwns
    · rw [h.onSite] at hNone
      cases hNone
    · exact absurd ((h.grown.owns_iff hOwns.holds).mpr hOwns) hOther

/-- What stands in place of a parameter is minted: no argument came with the call. -/
theorem mints_parameter {k : Parameter} (h : s.Minting a d site) :
    Yields (parameter k) s fun t s' =>
      s'.Minting a d site ∧ s.arena.Grown s'.arena ∧ t.Inside (a.Minted s'.arena site) := by
  intro t s' hRun
  rcases parameter_cases hRun with ⟨hFound, rfl⟩ | ⟨-, q, v, hFresh, rfl, rfl⟩
  · exact ⟨h, .refl, h.args k t hFound⟩
  · obtain ⟨hMinting, hGrown, hq⟩ := mints_fresh h q v hFresh
    have hInside : (Ty.point q).Inside (a.Minted v.arena site) := Ty.inside_point.mpr hq
    refine ⟨{ hMinting with args := fun k' t' hFound' => ?_ }, hGrown, hInside⟩
    rw [Std.ExtTreeMap.getElem?_insert] at hFound'
    split at hFound'
    · exact Option.some.inj hFound' ▸ hInside
    · exact hMinting.args k' t' hFound'

end CopyM

-- ---------------------------------------------------------------------------
-- Copies about the points that were made
-- ---------------------------------------------------------------------------

/-- All that is answered is among the points of which `R` holds. -/
def Reply.Inside (R : Point → Prop) : Reply → Prop
  | .point _ q => R q
  | .parameter _ t => t.Inside R

theorem Reply.Inside.mono {R R' : Point → Prop} (hR : ∀ p, R p → R' p) : ∀ {r : Reply},
    r.Inside R → r.Inside R'
  | .point _ q, h => hR q h
  | .parameter _ _, h => Ty.Inside.mono hR h

section Inside

variable {R R' : Point → Prop}

mutual

/-- A type asks for its own points and for parameters. -/
theorem Ty.Inside.queries : ∀ {t : Ty}, t.Inside R → ∀ q ∈ t.queries, q.Over R fun _ => True
  | .point _, h, _, hq => List.mem_singleton.mp hq ▸ Ty.inside_point.mp h
  | .con tag children emit, h, q, hq => by
    cases tag with
    | parameter k => exact List.mem_singleton.mp hq ▸ trivial
    | _ => exact Ty.queriesOfAll_over_of_inside (Ty.inside_con.mp h) q hq

theorem Ty.queriesOfAll_over_of_inside : ∀ {ts : List Ty}, (∀ t ∈ ts, t.Inside R) →
    ∀ q ∈ Ty.queriesOfAll ts, q.Over R fun _ => True
  | [], _, _, hq => absurd hq List.not_mem_nil
  | _ :: _, h, q, hq => by
    rw [List.forall_mem_cons] at h
    exact (List.mem_append.mp hq).elim (h.1.queries q) (Ty.queriesOfAll_over_of_inside h.2 q)

end

mutual

/-- What is filled with answers about some points is about these points. -/
theorem Ty.Filled.inside : ∀ {t t' : Ty}, t.Filled (Reply.Inside R) t' → t'.Inside R
  | .point p, _, h => by
    obtain ⟨q, hq, rfl⟩ := h
    exact Ty.inside_point.mpr hq
  | .con tag children emit, t', h => by
    cases tag with
    | parameter k => exact h
    | _ =>
      obtain ⟨ts, hts, rfl⟩ := h
      exact Ty.inside_con.mpr (Ty.FilledAll.inside hts)

theorem Ty.FilledAll.inside : ∀ {ts ts' : List Ty}, Ty.FilledAll (Reply.Inside R) ts ts' →
    ∀ t ∈ ts', t.Inside R
  | [], _, h => by
    rw [h]
    exact fun _ ht => absurd ht List.not_mem_nil
  | _ :: _, _, h => by
    obtain ⟨copy, copies, hCopy, hCopies, rfl⟩ := h
    exact List.forall_mem_cons.mpr ⟨hCopy.inside, hCopies.inside⟩

end

theorem Ascription.Filled.inside {x x' : Ascription} (h : x.Filled (Reply.Inside R) x') :
    x'.Inside R := by
  obtain ⟨node, type, hNode, hType, rfl⟩ := h
  exact ⟨hNode, hType.inside⟩

/-- A plain constraint asks for the points that it is about and for parameters. -/
theorem Constraint.Plain.queries {c : Constraint} (h : c.Plain R) :
    ∀ q ∈ c.queries, q.Over R fun _ => True := by
  cases h with
  | ascribe hx => exact List.forall_mem_cons.mpr ⟨hx.node, hx.type.queries⟩
  | fallback hx => exact List.forall_mem_cons.mpr ⟨hx.node, hx.type.queries⟩

/-- The copy of a plain constraint is plain. -/
theorem Constraint.Filled.plain {c c' : Constraint} (hPlain : c.Plain R)
    (h : c.Filled (Reply.Inside R') (some c')) : c'.Plain R' := by
  cases hPlain with
  | ascribe _ =>
    obtain ⟨x', hx', hCopy⟩ := h
    exact Option.some.inj hCopy ▸ .ascribe hx'.inside
  | fallback _ =>
    obtain ⟨x', hx', hCopy⟩ := h
    exact Option.some.inj hCopy ▸ .fallback hx'.inside

end Inside

namespace CopyM

variable {a : Arena} {d site : Point}

/-- **The course of a call**: all that it answers is minted. -/
theorem course_minting (a : Arena) (d site : Point) :
    Course (Query.Over (fun p => p = d ∨ a.Owns d p) fun _ => True) (Copying.Minting a d site)
      (fun s s' => s.arena.Grown s'.arena) fun s r => r.Inside (a.Minted s.arena site) where
  refl _ := .refl
  trans h h' := h.trans h'
  keeps hGrown hr := hr.mono fun _ => hGrown.minted
  point := mints_point
  parameter _ := mints_parameter

/-- What a call copies of constraints that are plain, or that it leaves out. -/
theorem mints_constraints {cs : List Constraint} {s : Copying}
    (hcs : ∀ c ∈ cs, c.Plain (fun p => p = d ∨ a.Owns d p) ∨ ∃ c', c = .scoped c')
    (h : s.Minting a d site) :
    Yields (constraints cs) s fun copies s' => s'.Minting a d site ∧
      ∀ c ∈ copies, c.Plain (a.Minted s'.arena site) := by
  intro copies s' hRun
  have hQueries : ∀ q ∈ cs.flatMap Constraint.queries,
      q.Over (fun p => p = d ∨ a.Owns d p) fun _ => True := by
    intro q hq
    obtain ⟨c, hc, hq⟩ := List.mem_flatMap.mp hq
    rcases hcs c hc with hPlain | ⟨c', rfl⟩
    · exact hPlain.queries q hq
    · exact absurd hq List.not_mem_nil
  obtain ⟨hMinting, -, hFilled⟩ :=
    (asks_constraints cs).yields (course_minting a d site) hQueries h copies s' hRun
  refine ⟨hMinting, fun c' hc' => ?_⟩
  obtain ⟨c, hc, hCopy⟩ := hFilled.exists_of_mem hc'
  rcases hcs c hc with hPlain | ⟨_, rfl⟩
  · exact hCopy.plain hPlain
  · cases hCopy

end CopyM

/-- What a call copies of the definition `d` are ascriptions and fallbacks about `d` itself and
about points that it owns. -/
def Program.SelfContained (program : Program) (a : Arena) (d : Point) : Prop :=
  ∀ c ∈ program.definition d, c.Plain (fun p => p = d ∨ a.Owns d p) ∨ ∃ c', c = .scoped c'

/-- Who owns a point is settled when it is allocated. -/
theorem Program.SelfContained.grown {program : Program} {a a' : Arena} {d : Point}
    (h : program.SelfContained a d) (hGrown : a.Grown a') : program.SelfContained a' d :=
  fun c hc => (h c hc).imp (·.mono fun _ => Or.imp id fun hOwns =>
    (hGrown.owns_iff hOwns.holds).mpr hOwns) id

/-- **What a call makes is made for its call site**: the copies speak about the call site and
about points made for it, and no other points are allocated. -/
theorem Call.mints_unfold {program : Program} {d site : Point} {w w' : World}
    {cs : List Constraint} {copier : Copier}
    (hTemplate : program.SelfContained w.arena d)
    (hRun : outcome ((ofSource site d ∅).unfold program) w = (.ok (cs, copier), w')) :
    (∀ c ∈ cs, c.Plain (w.arena.Minted w'.arena site)) ∧
      ∀ p, w'.arena.Holds p → w.arena.Holds p ∨ w'.arena.MadeFor site p := by
  obtain ⟨hResult, hArena⟩ := (ofSource site d ∅).unfold_runIn program w
  have hRunIn : ((ofSource site d ∅).unfold program).runIn w = (.ok (cs, copier), w') := hRun
  rw [hRunIn] at hResult hArena
  rcases hCopied : outcome (CopyM.constraints (program.definition (ofSource site d ∅).definition))
    ⟨.ofCall (ofSource site d ∅), w.arena⟩ with ⟨e | cs', s⟩
  · rw [hCopied] at hResult
    cases hResult
  · rw [hCopied] at hResult hArena
    obtain ⟨rfl, -⟩ := Prod.mk.inj (Except.ok.inj hResult)
    obtain ⟨hMinting, hPlain⟩ := CopyM.mints_constraints hTemplate
      (Copying.minting_ofSource w.arena d site) _ s hCopied
    rw [hArena]
    exact ⟨hPlain, hMinting.made⟩

-- ---------------------------------------------------------------------------
-- Call sites
-- ---------------------------------------------------------------------------

/-- A point at which a definition is used, with what is said around it. -/
structure CallSite where
  source : Point
  around : List Ascription

namespace CallSite

variable {program : Program} {d : Point}

/-- The use of `d`, and what is said around it. -/
def constraints (k : CallSite) (d : Point) : List Constraint :=
  .call (.ofSource k.source d ∅) :: k.around.map .ascribe

/-- The points of the call site. -/
def Mentions (k : CallSite) (p : Point) : Prop :=
  p = k.source ∨ ∃ x ∈ k.around, p = x.node ∨ p ∈ x.type.points

/-- The points of the call site and, of those that `b` holds beyond `a`, the copies made for
it. -/
def Territory (k : CallSite) (a b : Arena) (p : Point) : Prop :=
  k.Mentions p ∨ ¬ a.Holds p ∧ b.MadeFor k.source p

/-- The points of a call site are among those that its constraints are over. -/
theorem holds_of_mentions {k : CallSite} {T : Point → Prop}
    (h : ∀ c ∈ k.constraints d, c.Over T T) (p : Point) (hp : k.Mentions p) : T p := by
  obtain ⟨hCall, hAround⟩ := List.forall_mem_cons.mp h
  rcases hp with rfl | ⟨x, hx, hp⟩
  · exact hCall.source
  · have hOver : x.Over T T := hAround _ (List.mem_map_of_mem hx)
    rcases hp with rfl | hp
    · exact hOver.node
    · exact hOver.type.inside p hp

/-- What the use of `d` unfolds to stays in the territory of the call site, whenever it is
unfolded. -/
theorem keepsTo (k : CallSite) {a b : Arena} (hTemplate : program.SelfContained a d) :
    (Call.ofSource k.source d ∅).KeepsTo program a b (k.Territory a b) := by
  intro w w' cs copier hGrown hRun hEnd c hc
  obtain ⟨hPlain, hMade⟩ := Call.mints_unfold (hTemplate.grown hGrown) hRun
  refine (hPlain c hc).mono fun p hp => ?_
  rcases hp with rfl | ⟨hHolds, hNew⟩
  · exact .inl (.inl rfl)
  · refine .inr ⟨fun hOld => hNew (hGrown.holds p hOld), hEnd.madeFor ?_⟩
    exact (hMade p hHolds).resolve_left hNew

/-- Call sites that share no point share no territory. -/
theorem territory_apart {k k' : CallSite} {a b : Arena} (hk : ∀ p, k.Mentions p → a.Holds p)
    (hk' : ∀ p, k'.Mentions p → a.Holds p) (hApart : ∀ p, k.Mentions p → ¬ k'.Mentions p)
    (p : Point) (hp : k.Territory a b p) : ¬ k'.Territory a b p := by
  rintro (hMentions' | ⟨hNew', st', hSite', hBy'⟩)
  · rcases hp with hMentions | ⟨hNew, -⟩
    · exact hApart p hMentions hMentions'
    · exact hNew (hk' p hMentions')
  · rcases hp with hMentions | ⟨-, st, hSite, hBy⟩
    · exact hNew' (hk p hMentions)
    · -- a copy is made for one call site only
      obtain rfl := Except.ok.inj (hSite.symm.trans hSite')
      have hSource : k.source = k'.source := Option.some.inj (hBy.symm.trans hBy')
      exact hApart k.source (.inl rfl) (.inl hSource)

/-- Apart from the use of `d`, all that a call site says is about its own points. -/
theorem plain_or_call (k : CallSite) (a b : Arena) {c : Constraint} (hc : c ∈ k.constraints d) :
    c.Plain (k.Territory a b) ∨ c = .call (.ofSource k.source d ∅) := by
  rcases List.mem_cons.mp hc with rfl | hAround
  · exact .inr rfl
  · obtain ⟨x, hx, rfl⟩ := List.mem_map.mp hAround
    exact .inl (.ascribe ⟨.inl (.inr ⟨x, hx, .inl rfl⟩),
      fun p hp => .inl (.inr ⟨x, hx, .inr hp⟩)⟩)

/-- The use of `d` is the only call on the agenda. -/
theorem lane_call_start (k : CallSite) (d : Point) :
    (Session.start [] (k.constraints d)).agenda.lane .call =
      [.call (.ofSource k.source d ∅)] := by
  have hAround : (k.around.map Constraint.ascribe).filter (·.stage = .call) = [] := by
    refine List.filter_eq_nil_iff.mpr (List.forall_mem_map.mpr fun x _ => ?_)
    simp only [Constraint.stage]
    split <;> simp
  have hLane : (Agenda.extend {} (k.constraints d)).lane .call = _ :=
    Agenda.lane_extend {} (k.constraints d) .call
  refine hLane.trans ?_
  rw [constraints, List.filter_cons_of_pos (by simp [Constraint.stage]), hAround]
  rfl

/-- Two call sites are side by side from the start. -/
theorem beside_start {k k' : CallSite} {bs : List Constraint}
    (hBoth : Interleaved (k.constraints d) (k'.constraints d) bs) (a b : Arena) :
    Session.Beside (k.Territory a b) (k'.Territory a b) (.ofSource k.source d ∅)
      (.ofSource k'.source d ∅) (Session.start [] (k.constraints d))
      (Agenda.extend {} (k'.constraints d)) (Session.start [] bs) where
  agenda := by
    have hEmpty : Agenda.Interleaves {} {} {} := fun s => by cases s <;> exact .nil
    exact hEmpty.extend_both hBoth
  staged := Agenda.staged_empty.extend _
  first c hc := by
    rcases List.mem_append.mp ((Agenda.toList_extend {} _).mem_iff.mp hc) with hNew | hOld
    · exact k.plain_or_call a b hNew
    · cases hOld
  second c hc := by
    rcases List.mem_append.mp ((Agenda.toList_extend {} _).mem_iff.mp hc) with hNew | hOld
    · exact k'.plain_or_call a b hNew
    · cases hOld
  once := by
    rw [lane_call_start]
    exact Nat.le_refl 1
  parallel := ⟨⟨by simp [Session.start], by simp [Session.start]⟩, .refl _,
    Unification.wellFormed_empty, Unification.wellFormed_empty⟩
  closed := ⟨by simp [Session.start], by simp [Session.start]⟩

/-- **Next to another call site a session finds what it finds alone.** -/
theorem run_apart {k k' : CallSite} {bs : List Constraint} {depth steps : Nat} {s t : Session}
    {w w' v v' : World} (hArena : v.arena = w.arena)
    (hTemplate : program.SelfContained w.arena d)
    (hApart : ∀ p, k.Mentions p → ¬ k'.Mentions p)
    (hBoth : Interleaved (k.constraints d) (k'.constraints d) bs)
    (hProgram : program.Over w.arena.Holds w.arena.Holds)
    (hbs : ∀ c ∈ bs, c.Over w.arena.Holds w.arena.Holds)
    (hAlone : outcome (Session.runBefore program depth none steps
      (Session.start [] (k.constraints d))) w = (.ok s, w'))
    (hNext : outcome (Session.runBefore program depth none steps (Session.start [] bs)) v =
      (.ok t, v')) :
    ∃ ρ high, MovesOnly ρ w.arena.size high ∧
      (∀ p, w'.arena.Holds p → v'.arena.site (ρ p) = w'.arena.site p) ∧
      (∀ p, w'.arena.Holds p → ρ p ≠ p → w'.arena.MadeFor k.source p) ∧
      ∀ p, k.Mentions p →
        t.unification.found p = (s.unification.found p).map (Ty.rename (.ofPerm ρ)) := by
  have hk := holds_of_mentions fun c hc => hbs c (hBoth.mem hc)
  have hk' := holds_of_mentions fun c hc => hbs c (hBoth.symm.mem hc)
  have hGrown := Session.grown_runBefore hAlone
  have hGrown' : w.arena.Grown v'.arena := hArena ▸ Session.grown_runBefore hNext
  -- the run next to the other call site contains one in an arena `c`
  obtain ⟨c, hc, hAlong⟩ := Session.run_beside (territory_apart hk hk' hApart)
    (k.keepsTo hTemplate) (k'.keepsTo hTemplate) steps (beside_start hBoth w.arena v'.arena)
    (hArena ▸ .refl) hNext .refl
  have hPending : (Session.start [] (k.constraints d)).agenda.lane .call ≠ [] := by
    rw [lane_call_start]
    exact List.cons_ne_nil _ _
  obtain ⟨s', u, hRun, hParallel, -, hCall⟩ := hAlong { arena := c } fun _ => rfl
  obtain ⟨hEnd, u₀, ⟨cs, copier⟩, u₁, hUnfold, hStart, hLast⟩ := hCall hPending
  -- which is the run alone, up to the numbers of its copies
  obtain ⟨ρ, high, u', hMoves, hRun', hSites⟩ := Session.runBefore_relocated hProgram
    (Session.over_start (by simp) fun c hc => hbs c (hBoth.mem hc)) (v := { arena := c }) hc hAlone
  obtain ⟨hOk, rfl⟩ := Prod.mk.inj (hRun.symm.trans hRun')
  obtain rfl := Except.ok.inj hOk
  have hFixes := hMoves.fixes
  have hSource : ρ k.source = k.source := hFixes.point (hk _ (.inl rfl))
  -- all copies are made for the call site, so what is known about them is the same
  have hCopies : ∀ p st, ¬ w.arena.Holds p → w'.arena.site p = .ok st →
      st.copiedBy = some k.source ∧ v'.arena.site (ρ p) = .ok st := by
    intro p st hNew hSite
    obtain ⟨hOutside, hSite'⟩ := hSites p st hNew hSite
    obtain ⟨-, hAll⟩ := Call.mints_unfold ((hTemplate.grown hc).grown (hStart ▸ .refl)) hUnfold
    rw [hStart, hLast] at hAll
    obtain ⟨st', hFound, hBy⟩ := (hAll _ (Arena.holds_of_site hSite')).resolve_left hOutside
    obtain rfl := Except.ok.inj (hSite'.symm.trans hFound)
    obtain ⟨hMade, hSame⟩ := Site.rename_of_copiedBy hBy hSource
    rw [hEnd.site_eq (Arena.holds_of_site hSite'), hSite', hSame]
    exact ⟨hMade, rfl⟩
  refine ⟨ρ, high, hMoves, fun p hp => ?_, fun p hp hMoved => ?_, fun p hp => ?_⟩
  · by_cases hOld : w.arena.Holds p
    · have hStays : ρ p = p := hFixes.point hOld
      rw [hStays, hGrown.site_eq hOld, hGrown'.site_eq hOld]
    · obtain ⟨st, hSite⟩ := Arena.exists_site hp
      rw [(hCopies p st hOld hSite).2, hSite]
  · obtain ⟨st, hSite⟩ := Arena.exists_site hp
    exact ⟨st, hSite, (hCopies p st (fun hOld => hMoved (hFixes.point hOld)) hSite).1⟩
  · have hStays : (Renaming.ofPerm ρ).point p = p := hFixes.point (hk p hp)
    have hFound := s.unification.found_rename (φ := .ofPerm ρ) p
    rw [hStays] at hFound
    rw [← hFound]
    exact (hParallel.found (.inl hp)).symm

end CallSite

-- ---------------------------------------------------------------------------
-- Programs with two call sites
-- ---------------------------------------------------------------------------

namespace Program

/--
**Call sites of one definition do not influence each other.** Let what a call copies of the
definition `d` be ascriptions and fallbacks about `d` and its own points. Let the top level of
a program consist of two call sites of `d` in any interleaving, which have no point in common
and whose points are allocated, and let it have a solution; and let it also have one with the
first call site alone. Then what is found about the points of the first call site is the same
in both, up to a permutation `ρ` of points: it takes the copies made in the one arena to
copies of the same points for the same call sites in the other one, and of the points of the
former arena it moves none but copies made for the first call site while solving.
-/
theorem typesOf_call_site_eq_alone {program : Program} {d : Point} {k k' : CallSite}
    {limits limits' : Limits} {w w' v' : World} {solution solution' : Solution}
    (hTemplate : program.SelfContained w.arena d)
    (hApart : ∀ p, k.Mentions p → ¬ k'.Mentions p)
    (hBoth : Interleaved (k.constraints d) (k'.constraints d) program.topLevel)
    (hOver : program.Over w.arena.Holds w.arena.Holds)
    (hAlone : (solve { program with topLevel := k.constraints d } limits).runIn w =
      (.ok solution, w'))
    (hNext : (program.solve limits').runIn w = (.ok solution', v')) :
    ∃ ρ : Equiv.Perm Point,
      (∀ p, w'.arena.Holds p → v'.arena.site (ρ p) = w'.arena.site p) ∧
      (∀ p, w'.arena.Holds p → ρ p ≠ p → ¬ w.arena.Holds p ∧ w'.arena.MadeFor k.source p) ∧
      ∀ p, k.Mentions p →
        solution'.typesOf p = (solution.typesOf p).map (Ty.rename (.ofPerm ρ)) := by
  -- both are found within the same limits
  let both : Limits := ⟨max limits.steps limits'.steps, max limits.depth limits'.depth⟩
  have hAlone : outcome (solve { program with topLevel := k.constraints d } both) w =
      (.ok solution, w') :=
    solve_extends (Nat.le_max_left ..) (Nat.le_max_left ..) _ w _ _ hAlone
  have hNext : outcome (program.solve both) w = (.ok solution', v') :=
    solve_extends (Nat.le_max_right ..) (Nat.le_max_right ..) _ w _ _ hNext
  -- the definitions come first, and they are the same in both programs
  rw [solve_topLevel] at hAlone
  obtain ⟨found, w₁, hDefinitions, hSession⟩ := outcome_bind_eq_ok.mp hAlone
  obtain ⟨found', w₁', hDefinitions', hSession'⟩ := outcome_bind_eq_ok.mp hNext
  obtain ⟨hFound, rfl⟩ := Prod.mk.inj (hDefinitions.symm.trans hDefinitions')
  obtain rfl := Except.ok.inj hFound
  have hGrown := grown_solveDefinitions hDefinitions
  obtain ⟨s, x, x', hx, hx', hRun, -, hTypes⟩ := solveSession_cases hSession
  obtain ⟨t, y, y', hy, hy', hRun', -, hTypes'⟩ := solveSession_cases hSession'
  rw [← hx] at hGrown
  obtain ⟨ρ, high, hMoves, hSites, hMade, hSame⟩ := CallSite.run_apart (hy.trans hx.symm)
    (hTemplate.grown hGrown) hApart hBoth (hOver.mono hGrown.holds)
    (fun c hc => (hOver.topLevel c hc).mono hGrown.holds hGrown.holds) hRun hRun'
  rw [hx', hy'] at hSites
  rw [hx'] at hMade
  have hFixes := hMoves.fixes
  refine ⟨ρ, hSites, fun p hp hMoved => ⟨fun hOld => ?_, hMade p hp hMoved⟩, fun p hp => ?_⟩
  · exact hMoved (hFixes.point (hGrown.holds p hOld))
  · -- what the definitions gave about the point mentions none of the copies, and `ρ` leaves it
    -- alone
    have hHolds := CallSite.holds_of_mentions (fun c hc => hOver.topLevel c (hBoth.mem hc)) p hp
    have hBefore : (found.typesOf p).map (Ty.rename (.ofPerm ρ)) = found.typesOf p :=
      solveDefinitions_settled hOver (fun z hz c hc => hOver.definitions z.1 z.2
        (Std.ExtTreeMap.mem_toList_iff_getElem?_eq_some.mp hz) c hc) .refl (hx ▸ hFixes)
        hDefinitions hHolds (by simp [Solution.typesOf])
    rw [hTypes', hTypes, List.map_append, hBefore, hSame p hp]

-- The definition at point 0 is a tuple of what it owns, point 1; only in the definition
-- itself that is of the type declared at point 0. The call site at point 4 is worked off
-- before the one at point 2, so that the copy of point 1 for the latter is numbered 7; alone
-- it is numbered 6.

/-- The call site `source`, with a block of it at `node`. -/
def siteAt (source node : Point) : CallSite where
  source := source
  around := [{ node, type := .con .block [.point source] none }]

/-- A tuple of point 1, and what only the definition itself says of point 1. -/
def boxed : List Constraint :=
  [.ascribe { node := ⟨0⟩, type := .con .tuple [.point ⟨1⟩] none },
    .scoped (.ascribe { node := ⟨1⟩, type := .con (.named ⟨0⟩) [] none })]

/-- Two uses of `boxed`, which is defined at point 0. -/
def twice : Program where
  topLevel := [.call (.ofSource ⟨4⟩ ⟨0⟩ ∅), .call (.ofSource ⟨2⟩ ⟨0⟩ ∅),
    .ascribe { node := ⟨3⟩, type := .con .block [.point ⟨2⟩] none },
    .ascribe { node := ⟨5⟩, type := .con .block [.point ⟨4⟩] none }]
  definitions := (∅ : PointMap (List Constraint)).insert ⟨0⟩ boxed

def beforeTwice : World where
  arena := ⟨([none, some ⟨0⟩, none, none, none, none].map fun owner =>
    { span := ⟨0, 0⟩, source := "", owner }).toArray⟩

theorem selfContained_twice : twice.SelfContained beforeTwice.arena ⟨0⟩ := by
  intro c hc
  have hMem : c ∈ boxed := by simpa [twice, definition] using hc
  simp only [boxed, List.mem_cons, List.not_mem_nil, or_false] at hMem
  rcases hMem with rfl | rfl
  · refine .inl (.ascribe ⟨.inl rfl, Ty.inside_con.mpr fun t ht => ?_⟩)
    rw [List.mem_singleton.mp ht]
    exact Ty.inside_point.mpr (.inr rfl)
  · exact .inr ⟨_, rfl⟩

theorem over_ofSource {T : Point → Prop} {p : Point} (hp : T p) (d : Point) :
    (Call.ofSource p d ∅).Over T T where
  source := hp
  points _ _ hFound := ((Call.getElem?_points_ofSource ∅).mp hFound).2 ▸ hp
  args q t hFound := by simp [Call.ofSource] at hFound

theorem over_twice : twice.Over beforeTwice.arena.Holds beforeTwice.arena.Holds where
  topLevel := by
    have hSource : beforeTwice.arena.Holds ⟨2⟩ := by decide
    have hSource' : beforeTwice.arena.Holds ⟨4⟩ := by decide
    simp only [twice, List.mem_cons, List.not_mem_nil, or_false, forall_eq_or_imp, forall_eq]
    exact ⟨over_ofSource hSource' _, over_ofSource hSource _,
      ⟨by decide, trivial, hSource, trivial⟩, ⟨by decide, trivial, hSource', trivial⟩⟩
  definitions d cs hFound := by
    have hOwned : beforeTwice.arena.Holds ⟨1⟩ := by decide
    rw [twice, PointMap.getElem?_insert] at hFound
    split at hFound
    · obtain rfl := Option.some.inj hFound
      simp only [boxed, List.mem_cons, List.not_mem_nil, or_false, forall_eq_or_imp, forall_eq]
      exact ⟨⟨by decide, trivial, hOwned, trivial⟩, ⟨hOwned, trivial, trivial⟩⟩
    · simp at hFound
  instances := by simp [twice]

/-- The points of the types found for a point, if there is a solution. -/
def pointsAt (program : Program) (limits : Limits) (p : Point) : Option (List (List Point)) :=
  ((program.solve limits).runIn beforeTwice).1.toOption.map fun solution =>
    (solution.typesOf p).map Ty.points

/-- Computing `pointsAt` is enough to know that there is a solution. -/
theorem exists_of_pointsAt {program : Program} {limits : Limits} {p : Point}
    {found : List (List Point)} (h : pointsAt program limits p = some found) :
    ∃ solution w', (program.solve limits).runIn beforeTwice = (.ok solution, w') ∧
      (solution.typesOf p).map Ty.points = found := by
  obtain ⟨solution, hOk, hFound⟩ := Option.map_eq_some_iff.mp h
  rcases hRun : (program.solve limits).runIn beforeTwice with ⟨e | solution', w'⟩
  · rw [hRun] at hOk
    cases hOk
  · rw [hRun] at hOk
    obtain rfl := Option.some.inj hOk
    exact ⟨solution', w', rfl, hFound⟩

theorem typesOf_call_site_eq_alone_twice :
    ∃ solution solution' w' v' ρ,
      (solve { twice with topLevel := (siteAt ⟨2⟩ ⟨3⟩).constraints ⟨0⟩ } ⟨5, 5⟩).runIn beforeTwice =
        (.ok solution, w') ∧
      (twice.solve ⟨9, 5⟩).runIn beforeTwice = (.ok solution', v') ∧
      (solution.typesOf ⟨3⟩).map Ty.points = [[⟨6⟩]] ∧ ρ ⟨6⟩ = ⟨7⟩ ∧
      solution'.typesOf ⟨3⟩ = (solution.typesOf ⟨3⟩).map (Ty.rename (.ofPerm ρ)) := by
  have hApart : ∀ p, (siteAt ⟨2⟩ ⟨3⟩).Mentions p → ¬ (siteAt ⟨4⟩ ⟨5⟩).Mentions p := by
    simp [CallSite.Mentions, siteAt, Ty.points, Ty.pointsOfAll]
  have hBoth : Interleaved ((siteAt ⟨2⟩ ⟨3⟩).constraints ⟨0⟩) ((siteAt ⟨4⟩ ⟨5⟩).constraints ⟨0⟩)
      twice.topLevel := .right (.left (.left (.right .nil)))
  obtain ⟨solution, w', hAlone, hPoints⟩ := exists_of_pointsAt
    (show pointsAt { twice with topLevel := (siteAt ⟨2⟩ ⟨3⟩).constraints ⟨0⟩ } ⟨5, 5⟩ ⟨3⟩ =
      some [[⟨6⟩]] by decide +kernel)
  obtain ⟨solution', v', hNext, hPoints'⟩ := exists_of_pointsAt
    (show pointsAt twice ⟨9, 5⟩ ⟨3⟩ = some [[⟨7⟩]] by decide +kernel)
  obtain ⟨ρ, -, -, hTypes⟩ := typesOf_call_site_eq_alone selfContained_twice hApart hBoth
    over_twice hAlone hNext
  have hSame := hTypes ⟨3⟩ (.inr ⟨_, List.mem_cons_self, .inl rfl⟩)
  refine ⟨solution, solution', w', v', ρ, hAlone, hNext, hPoints, ?_, hSame⟩
  have hMoved : (solution'.typesOf ⟨3⟩).map Ty.points =
      ((solution.typesOf ⟨3⟩).map Ty.points).map (List.map ρ) := by
    rw [hSame, List.map_map, List.map_map]
    exact List.map_congr_left fun t _ => t.points_rename
  rw [hPoints, hPoints'] at hMoved
  simpa using hMoved.symm

end Program

end TraitInference
