import TraitInference.Proofs.Erasure

/-!
# TraitInference — where points come from

Points are allocated, copied and copied again, by hand or by solving programs, and
whatever was tried and given up leaves its copies behind. Two things hold of every arena
that comes about in this way:

* It only grows, and what solving adds are copies (`Arena.Grown.site_eq`,
  `Arena.Grown.copied_of_new`).
* A copy is younger than the point it was copied from and stands where that stands
  (`Arena.Founded`). So the way from a copy to its original ends, and `Arena.origin` and
  `Arena.name` follow it to its end (`Arena.Founded.exists_descends`).

`Arena.Arises.lineages` puts the two together.
-/

namespace TraitInference

/-- Two points stand at the same place, with the same text and the same owner. -/
def Site.Alike (s t : Site) : Prop :=
  s.span = t.span ∧ s.source = t.source ∧ s.owner = t.owner

theorem Site.Alike.refl (s : Site) : s.Alike s :=
  ⟨rfl, rfl, rfl⟩

theorem Site.Alike.trans {s t u : Site} (h : s.Alike t) (h' : t.Alike u) : s.Alike u :=
  ⟨h.1.trans h'.1, h.2.1.trans h'.2.1, h.2.2.trans h'.2.2⟩

namespace Arena

variable {a a' : Arena} {p q o template site : Point} {s t : Site} {n : Nat}

-- ---------------------------------------------------------------------------
-- What solving adds
-- ---------------------------------------------------------------------------

/-- **New points are copies**, and remember both of what and for whom. -/
theorem Grown.copied_of_new (h : a.Grown a') (hp : a'.Holds p) (hNew : ¬ a.Holds p) :
    ∃ s template site, a'.site p = .ok s ∧ s.copiedFrom = some template ∧
      s.copiedBy = some site := by
  induction h with
  | refl => exact absurd hp hNew
  | @tail b c hGrown hCopies ih =>
    by_cases hBefore : b.Holds p
    · rw [hCopies.site_eq hBefore]
      exact ih hBefore
    · -- the point is the one that this copy has added
      obtain ⟨template, site, q, hCopy⟩ := hCopies
      obtain rfl := eq_of_copy hCopy hp hBefore
      obtain ⟨s, hSite, -⟩ := copy_eq_ok_iff.mp hCopy
      exact ⟨_, template, site, site_of_copy hCopy hSite, rfl, rfl⟩

/-- Whatever comes of solving a program, its arena has grown. -/
theorem grown_solve (program : Program) (limits : Limits) (w : World) :
    w.arena.Grown ((program.solve limits).runIn w).2.arena :=
  (program.sim_solve limits).grows w

-- ---------------------------------------------------------------------------
-- Copies are younger than their templates
-- ---------------------------------------------------------------------------

/-- A copy is younger than the point it was copied from, and stands where that stands. What is
no copy was made for nobody. -/
structure Founded (a : Arena) : Prop where
  copy  : ∀ (p : Point) (s : Site) (template : Point), a.site p = .ok s →
    s.copiedFrom = some template →
    template.index < p.index ∧ ∃ t, a.site template = .ok t ∧ s.Alike t
  first : ∀ (p : Point) (s : Site), a.site p = .ok s → s.copiedFrom = none → s.copiedBy = none

theorem founded_empty : Founded {} where
  copy p s template hSite := by cases holds_of_site hSite
  first p s hSite := by cases holds_of_site hSite

/-- The site of a point after an allocation: the old one, or the new one for the new point. -/
theorem site_alloc_cases (a : Arena) (s : Site) (hSite : (a.alloc s).2.site p = .ok t) :
    (p.index < a.size ∧ a.site p = .ok t) ∨ (p.index = a.size ∧ t = s) := by
  have hHolds : p.index < a.size + 1 := size_alloc a s ▸ holds_of_site hSite
  by_cases hp : p.index < a.size
  · rw [site_alloc_of_lt s hp] at hSite
    exact .inl ⟨hp, hSite⟩
  · have hLast : p.index = a.size := by omega
    obtain rfl : p = (a.alloc s).1 := congrArg Point.mk hLast
    exact .inr ⟨hLast, (Except.ok.inj ((site_alloc_self a s).symm.trans hSite)).symm⟩

/-- An arena stays founded if the new point is no copy, made for nobody, or one of an older
point. -/
theorem Founded.alloc (h : a.Founded) (s : Site) (hFirst : s.copiedFrom = none → s.copiedBy = none)
    (hCopy : ∀ template, s.copiedFrom = some template →
      ∃ t, a.site template = .ok t ∧ s.Alike t) : (a.alloc s).2.Founded where
  copy p known template hSite hFrom := by
    -- what an old point was copied from is found where it was
    have hLift : ∀ {u : Site}, template.index < a.size →
        (∃ t, a.site template = .ok t ∧ u.Alike t) →
        ∃ t, (a.alloc s).2.site template = .ok t ∧ u.Alike t := by
      intro u hOld ⟨t, hTemplate, hAlike⟩
      exact ⟨t, (site_alloc_of_lt s hOld).trans hTemplate, hAlike⟩
    rcases site_alloc_cases a s hSite with ⟨hp, hOld⟩ | ⟨hLast, rfl⟩
    · obtain ⟨hYounger, hTemplate⟩ := h.copy p known template hOld hFrom
      exact ⟨hYounger, hLift (hYounger.trans hp) hTemplate⟩
    · obtain ⟨t, hTemplate, hAlike⟩ := hCopy template hFrom
      have hOld : template.index < a.size := holds_of_site hTemplate
      exact ⟨hLast ▸ hOld, hLift hOld ⟨t, hTemplate, hAlike⟩⟩
  first p known hSite hFrom := by
    rcases site_alloc_cases a s hSite with ⟨-, hOld⟩ | ⟨-, rfl⟩
    · exact h.first p known hOld hFrom
    · exact hFirst hFrom

/-- A copy of a point stands where the point stands. -/
theorem Founded.copies (h : a.Founded) (hCopies : a.Copies a') : a'.Founded := by
  obtain ⟨template, site, p, hCopy⟩ := hCopies
  obtain ⟨s, hSite, hAlloc⟩ := copy_eq_ok_iff.mp hCopy
  rw [(Prod.mk.inj hAlloc).2]
  refine h.alloc _ (fun hNone => by cases hNone) fun q hq => ?_
  obtain rfl := Option.some.inj hq
  exact ⟨s, hSite, rfl, rfl, rfl⟩

/-- So growing keeps an arena founded, however many copies are made. -/
theorem Founded.grown (h : a.Founded) (hGrown : a.Grown a') : a'.Founded := by
  induction hGrown with
  | refl => exact h
  | tail _ hCopies ih => exact ih.copies hCopies

-- ---------------------------------------------------------------------------
-- Back to the original
-- ---------------------------------------------------------------------------

/-- From `p` it takes `n` steps, each from a copy to what it was copied from, to reach
the point `o`, which is no copy. -/
inductive Descends (a : Arena) : Nat → Point → Point → Prop
  | original {o : Point} {s : Site} (hSite : a.site o = .ok s) (hFrom : s.copiedFrom = none) :
      Descends a 0 o o
  | copy {n : Nat} {p q o : Point} {s : Site} (hSite : a.site p = .ok s)
      (hFrom : s.copiedFrom = some q) (hRest : Descends a n q o) : Descends a (n + 1) p o

/-- The way back stays as it is while the arena grows. -/
theorem Descends.grown (h : a.Descends n p o) (hGrown : a.Grown a') : a'.Descends n p o := by
  induction h with
  | original hSite hFrom =>
    exact .original ((hGrown.site_eq (holds_of_site hSite)).trans hSite) hFrom
  | copy hSite hFrom _ ih =>
    exact .copy ((hGrown.site_eq (holds_of_site hSite)).trans hSite) hFrom ih

/-- **From every point there is a way back**: each step leads to an older point. -/
theorem Founded.exists_descends (h : a.Founded) (hSite : a.site p = .ok s) :
    ∃ n o t, n ≤ p.index ∧ a.Descends n p o ∧ a.site o = .ok t ∧ t.copiedFrom = none ∧
      t.copiedBy = none ∧ s.Alike t := by
  induction hIndex : p.index using Nat.strongRecOn generalizing p s with
  -- what a point was copied from has a smaller index
  | ind i ih =>
    cases hFrom : s.copiedFrom with
    | none =>
      exact ⟨0, p, s, Nat.zero_le _, .original hSite hFrom, hSite, hFrom, h.first p s hSite hFrom,
        .refl s⟩
    | some q =>
      obtain ⟨hYounger, t, hTemplate, hAlike⟩ := h.copy p s q hSite hFrom
      obtain ⟨n, o, u, hLe, hDescends, hOrigin, hFirst, hNobody, hAlike'⟩ :=
        ih q.index (hIndex ▸ hYounger) hTemplate rfl
      exact ⟨n + 1, o, u, by omega, .copy hSite hFrom hDescends, hOrigin, hFirst, hNobody,
        hAlike.trans hAlike'⟩

/-- A lineage is followed to its end if there is fuel for it. -/
theorem Descends.lineageFrom (h : a.Descends n p o) {fuel : Nat} (hFuel : n < fuel) :
    ∃ line, a.lineageFrom fuel p = .ok (p :: line) ∧ line.length = n ∧ line.getLastD p = o := by
  induction h generalizing fuel with
  | @original o s hSite hFrom =>
    obtain ⟨fuel, rfl⟩ : ∃ m, fuel = m + 1 := ⟨fuel - 1, by omega⟩
    rw [Arena.lineageFrom, hSite]
    exact ⟨[], by simp [bind, Except.bind, hFrom], rfl, rfl⟩
  | @copy n p q o s hSite hFrom _ ih =>
    obtain ⟨fuel, rfl⟩ : ∃ m, fuel = m + 1 := ⟨fuel - 1, by omega⟩
    obtain ⟨line, hLine, hLength, hLast⟩ := ih (Nat.lt_of_succ_lt_succ hFuel)
    rw [Arena.lineageFrom, hSite]
    refine ⟨q :: line, ?_, by rw [List.length_cons, hLength], by rw [List.getLastD_cons, hLast]⟩
    simp [bind, Except.bind, hFrom, hLine, Functor.map, Except.map]

section Lookups

variable (h : a.Descends n p o) (hLe : n ≤ a.size)

include h hLe

/-- The origin is the end of the way back. -/
theorem Descends.origin_eq : a.origin p = .ok o := by
  obtain ⟨line, hLine, -, hLast⟩ := h.lineageFrom (Nat.lt_succ_of_le hLe)
  rw [origin, lineage, hLine]
  exact congrArg Except.ok (hLast ▸ List.getLastD_cons)

/-- The name counts the steps of it. -/
theorem Descends.name_eq (hSite : a.site p = .ok s) :
    a.name p = .ok (s.source ++ String.join (List.replicate n "'")) := by
  obtain ⟨line, hLine, hLength, -⟩ := h.lineageFrom (Nat.lt_succ_of_le hLe)
  rw [name, source, hSite, lineage, hLine, ← hLength]
  rfl

end Lookups

-- ---------------------------------------------------------------------------
-- Every arena
-- ---------------------------------------------------------------------------

/-- All that an arena can have gone through: points are allocated, with an owner or
without, and copied, and programs are solved in it, however that ends. -/
inductive Arises : Arena → Prop
  | empty : Arises {}
  | alloc {a : Arena} (h : a.Arises) (span : Span) (source : String) (owner : Option Point) :
      Arises (a.alloc { span, source, owner }).2
  | copy {a a' : Arena} {template site p : Point} (h : a.Arises)
      (hCopy : a.copy template site = .ok (p, a')) : Arises a'
  | solve {w : World} (h : w.arena.Arises) (program : Program) (limits : Limits) :
      Arises ((program.solve limits).runIn w).2.arena

/-- Whatever an arena has gone through, it is founded. -/
theorem Arises.founded (h : a.Arises) : a.Founded := by
  induction h with
  | empty => exact founded_empty
  | alloc _ span source owner ih => exact ih.alloc _ (fun _ => rfl) fun _ hFrom => by cases hFrom
  | copy _ hCopy ih => exact ih.copies ⟨_, _, _, hCopy⟩
  | solve _ program limits ih => exact ih.grown (grown_solve program limits _)

/--
**Arenas grow by copies, and copies have an origin.** In an arena that arose in any way:

* What a copy was made of is older than the copy, and stands at the same place with the
  same text and the same owner.
* From every point the way from copies to what they were copied from ends at a point
  that is no copy and was made for nobody, stands at the same place and has the same text
  and the same owner. That is the origin of the point, and the name of the point is the
  text of its origin with a prime for each step.
* Every point can be copied, and the copy has the origin that the point has.
* However it ends, solving a program keeps every point as it was, and every point that it
  adds is a copy which remembers both what it was made of and for whom.
-/
theorem Arises.lineages (h : a.Arises) :
    (∀ p s template, a.site p = .ok s → s.copiedFrom = some template →
      template.index < p.index ∧ ∃ t, a.site template = .ok t ∧ s.Alike t) ∧
    (∀ p s, a.site p = .ok s → ∃ n o t, a.Descends n p o ∧ a.origin p = .ok o ∧
      a.site o = .ok t ∧ t.copiedFrom = none ∧ t.copiedBy = none ∧ s.Alike t ∧
      a.name p = .ok (t.source ++ String.join (List.replicate n "'"))) ∧
    (∀ p site, a.Holds p → ∃ q a', a.copy p site = .ok (q, a') ∧ a'.origin q = a.origin p ∧
      a'.origin p = a.origin p) ∧
    ∀ (program : Program) (limits : Limits) (w : World), w.arena = a →
      let a' := ((program.solve limits).runIn w).2.arena
      (∀ p, a.Holds p → a'.site p = a.site p) ∧
      ∀ p, a'.Holds p → ¬ a.Holds p → ∃ s template site, a'.site p = .ok s ∧
        s.copiedFrom = some template ∧ s.copiedBy = some site := by
  have hFounded := h.founded
  refine ⟨hFounded.copy, fun p s hSite => ?_, fun p site hp => ?_, fun program limits w hw => ?_⟩
  · obtain ⟨n, o, t, hLe, hDescends, hOrigin, hFirst, hNobody, hAlike⟩ :=
      hFounded.exists_descends hSite
    -- a way back is no longer than the arena, which is the fuel of `origin` and `name`
    have hFuel : n ≤ a.size := hLe.trans (Nat.le_of_lt (holds_of_site hSite))
    exact ⟨n, o, t, hDescends, hDescends.origin_eq hFuel, hOrigin, hFirst, hNobody, hAlike,
      hAlike.2.1 ▸ hDescends.name_eq hFuel hSite⟩
  · -- the way back from a copy is that of its template, with one more step
    obtain ⟨s, hSite⟩ := exists_site hp
    obtain ⟨n, o, t, hLe, hDescends, -, -, -, -⟩ := hFounded.exists_descends hSite
    have hFuel : n + 1 ≤ a.size := Nat.lt_of_le_of_lt hLe hp
    obtain ⟨a', hCopy⟩ := exists_copy hSite site
    have hCopies : a.Copies a' := ⟨p, site, _, hCopy⟩
    have hKept : a'.Descends n p o := hDescends.grown (.single hCopies)
    have hNew : a'.Descends (n + 1) ⟨a.size⟩ o := .copy (site_of_copy hCopy hSite) rfl hKept
    have hSize := hCopies.size
    refine ⟨⟨a.size⟩, a', hCopy, ?_, ?_⟩
    · rw [hNew.origin_eq (by omega), hDescends.origin_eq (by omega)]
    · rw [hKept.origin_eq (by omega), hDescends.origin_eq (by omega)]
  · subst hw
    have hGrown := grown_solve program limits w
    exact ⟨fun p hp => hGrown.site_eq hp, fun p hp hNew => hGrown.copied_of_new hp hNew⟩

-- A definition at point 0 that owns point 1, and a call of it at point 2. Point 3 is a copy
-- of point 1 that the definition mentions too, so the call copies both of them.

def nesting : Program where
  topLevel := [.call (.ofSource ⟨2⟩ ⟨0⟩ ∅)]
  definitions := (∅ : PointMap (List Constraint)).insert ⟨0⟩
    [.ascribe { node := ⟨0⟩, type := .point ⟨1⟩ }, .ascribe { node := ⟨0⟩, type := .point ⟨3⟩ }]

/-- A point of the definition at point 0, or a copy of one. -/
def ownedSite (copiedFrom copiedBy : Option Point) : Site :=
  { span := ⟨2, 3⟩, source := "x", owner := some ⟨0⟩, copiedFrom, copiedBy }

def beforeNesting : Arena where
  sites := #[{ span := ⟨0, 1⟩, source := "f" }, ownedSite none none,
    { span := ⟨4, 7⟩, source := "f 1" }, ownedSite (some ⟨1⟩) (some ⟨2⟩)]

def afterNesting : Arena where
  sites := beforeNesting.sites ++
    #[ownedSite (some ⟨1⟩) (some ⟨2⟩), ownedSite (some ⟨3⟩) (some ⟨2⟩)]

theorem arises_afterNesting : afterNesting.Arises := by
  have hPoints := ((Arises.empty.alloc ⟨0, 1⟩ "f" none).alloc ⟨2, 3⟩ "x" (some ⟨0⟩)).alloc
    ⟨4, 7⟩ "f 1" none
  have hCopy : Arena.copy ⟨beforeNesting.sites.pop⟩ ⟨1⟩ ⟨2⟩ = .ok (⟨3⟩, beforeNesting) := rfl
  have hBefore : (World.mk beforeNesting []).arena.Arises := .copy hPoints hCopy
  have hSolved : ((nesting.solve ⟨4, 4⟩).runIn ⟨beforeNesting, []⟩).2.arena = afterNesting := by
    decide +kernel
  exact hSolved ▸ hBefore.solve nesting ⟨4, 4⟩

theorem lineages_nesting :
    afterNesting.Arises ∧ (∃ n o t, afterNesting.Descends n ⟨5⟩ o ∧
      afterNesting.origin ⟨5⟩ = .ok o ∧ afterNesting.site o = .ok t ∧ t.copiedFrom = none ∧
      t.copiedBy = none ∧ (ownedSite (some ⟨3⟩) (some ⟨2⟩)).Alike t ∧
      afterNesting.name ⟨5⟩ = .ok (t.source ++ String.join (List.replicate n "'"))) ∧
    afterNesting.origin ⟨5⟩ = .ok ⟨1⟩ ∧ afterNesting.name ⟨5⟩ = .ok "x''" :=
  ⟨arises_afterNesting, arises_afterNesting.lineages.2.1 ⟨5⟩ _ rfl, rfl, rfl⟩

end Arena

end TraitInference
