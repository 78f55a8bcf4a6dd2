import TraitInference.Proofs.Counterparts

/-!
# TraitInference — the copies that queries make

What copying does to a copier and to its arena is known from the list of its queries:

* `Copying.news` — the points of which the queries make copies, in the order of the copies.
* `Copying.Asked` — the copier and the arena when the queries have been answered, which is
  what `CopyM.asked_ask` establishes: a step lemma for each kind of query, and an induction.
* `CopyM.exists_ask` — queries about points that are allocated are answered.
-/

namespace TraitInference

instance (a : Arena) (d p : Point) : Decidable (a.Owns d p) :=
  match h : a.owner p with
  | .ok owner => decidable_of_iff (owner = some d) (by rw [Arena.Owns, h, Except.ok.injEq])
  | .error _ => .isFalse (by rw [Arena.Owns, h]; exact fun hEq => by cases hEq)

/-- The point `q` is a copy of `p`, made on behalf of `site`. -/
def Arena.IsCopy (a : Arena) (q p site : Point) : Prop :=
  ∃ st, a.site p = .ok st ∧
    a.site q = .ok { st with copiedFrom := some p, copiedBy := some site }

/-- A copy stays one as the arena grows. -/
theorem Arena.Grown.isCopy {a a' : Arena} (h : a.Grown a') {q p site : Point}
    (hCopy : a.IsCopy q p site) : a'.IsCopy q p site := by
  obtain ⟨st, hp, hq⟩ := hCopy
  exact ⟨st, (h.site_eq (holds_of_site hp)).trans hp, (h.site_eq (holds_of_site hq)).trans hq⟩

namespace Copying

/-- The point that has to be copied before a query can be answered. Who owns a point is read
off `b`, an arena in which all points in question are allocated. -/
def wants (b : Arena) (s : Copying) : Query → Option Point
  | .point p =>
    if s.copier.points[p]? = none ∧ b.Owns s.copier.definition p then some p else none
  | .parameter k =>
    if s.copier.args[k]? = none ∧ s.copier.points[k.source]? = none then some k.source else none

/-- The points of which the queries make copies, in the order of the copies. -/
def news (b : Arena) (s : Copying) (qs : List Query) : List Point :=
  (qs.filterMap (s.wants b)).eraseDups

/-- The copier and the arena when the queries have been answered: what was chosen before
stays, the copies are numbered in order, and a parameter stands for the counterpart of the
point that declares it. -/
structure Asked (b : Arena) (s : Copying) (qs : List Query) (s' : Copying) : Prop where
  source     : s'.copier.source = s.copier.source
  definition : s'.copier.definition = s.copier.definition
  grown      : s.arena.Grown s'.arena
  size       : s'.arena.size = s.arena.size + (s.news b qs).length
  copies     : ∀ i p, (s.news b qs)[i]? = some p →
    s'.arena.IsCopy ⟨s.arena.size + i⟩ p s.copier.source
  points     : ∀ p, s'.copier.points[p]? =
    s.copier.points[p]?.or (((s.news b qs).idxOf? p).map fun i => ⟨s.arena.size + i⟩)
  args       : ∀ k, s'.copier.args[k]? = s.copier.args[k]?.or
    (if .parameter k ∈ qs then some (.point (s'.copier.onPoint k.source)) else none)

variable {b : Arena} {s s' s'' : Copying} {qs qs' : List Query}

theorem mem_news {p : Point} : p ∈ s.news b qs ↔ ∃ q ∈ qs, s.wants b q = some p := by
  rw [news, List.mem_eraseDups, List.mem_filterMap]

/-- A point has no counterpart yet if it had none and no copy of it was made. -/
theorem Asked.points_eq_none_iff (h : s.Asked b qs s') {p : Point} :
    s'.copier.points[p]? = none ↔ s.copier.points[p]? = none ∧ p ∉ s.news b qs := by
  rw [h.points, Option.or_eq_none_iff, Option.map_eq_none_iff, List.idxOf?_eq_none_iff]

/-- A parameter that was asked for has a type, and the point that declares it a counterpart. -/
theorem Asked.exists_source (h : s.Asked b qs s') {k : Parameter} (hk : .parameter k ∈ qs)
    (hNew : s.copier.args[k]? = none) : s'.copier.points[k.source]? ≠ none := by
  intro hNone
  obtain ⟨hBefore, hNot⟩ := h.points_eq_none_iff.mp hNone
  exact hNot (mem_news.mpr ⟨_, hk, if_pos ⟨hNew, hBefore⟩⟩)

/-- What was chosen is kept. -/
theorem Asked.kept (h : s.Asked b qs s') : s.copier.Extends s'.copier where
  points p q hFound := by rw [h.points, hFound, Option.some_or]
  args k t hFound := by rw [h.args, hFound, Option.some_or]

/-- A parameter has no type yet if it had none and was not asked for. -/
theorem Asked.args_eq_none_iff (h : s.Asked b qs s') {k : Parameter} :
    s'.copier.args[k]? = none ↔ s.copier.args[k]? = none ∧ .parameter k ∉ qs := by
  rw [h.args, Option.or_eq_none_iff]
  split <;> simp_all

/-- What is wanted later is what was wanted before and has not been made yet. -/
theorem Asked.wants (h : s.Asked b qs s') (q : Query) :
    s'.wants b q = (s.wants b q).filter (· ∉ s.news b qs) := by
  have hFilter : ∀ (P : Prop) [Decidable P] (p : Point),
      (if P then some p else none).filter (· ∉ s.news b qs) =
        if P ∧ p ∉ s.news b qs then some p else none := by
    intro P _ p
    by_cases hP : P <;> simp [hP, Option.filter]
  cases q with
  | point p =>
    rw [Copying.wants, Copying.wants, hFilter, h.definition]
    refine if_congr ?_ rfl rfl
    rw [h.points_eq_none_iff]
    exact and_right_comm
  | parameter k =>
    rw [Copying.wants, Copying.wants, hFilter]
    refine if_congr ?_ rfl rfl
    rw [h.args_eq_none_iff, h.points_eq_none_iff]
    constructor
    · rintro ⟨⟨hArgs, -⟩, hSource, hNot⟩
      exact ⟨⟨hArgs, hSource⟩, hNot⟩
    · rintro ⟨⟨hArgs, hSource⟩, hNot⟩
      -- had the parameter been asked for, its declaring point would have a counterpart
      exact ⟨⟨hArgs, fun hk => h.exists_source hk hArgs (h.points_eq_none_iff.mpr ⟨hSource, hNot⟩)⟩,
        hSource, hNot⟩

/-- **What later queries make comes behind what the first ones have made.** -/
theorem Asked.news_append (h : s.Asked b qs s') (qs' : List Query) :
    s.news b (qs ++ qs') = s.news b qs ++ s'.news b qs' := by
  have hRest : (qs'.filterMap (s.wants b)).removeAll (qs.filterMap (s.wants b)) =
      qs'.filterMap (s'.wants b) := by
    rw [List.removeAll, List.filter_filterMap]
    refine List.filterMap_congr fun q _ => ?_
    rw [h.wants]
    refine congrArg (Option.filter · (s.wants b q)) (funext fun p => ?_)
    rw [news, Bool.eq_iff_iff]
    simp
  rw [news, List.filterMap_append, List.eraseDups_append, hRest]
  rfl

/-- No queries change nothing. -/
theorem Asked.refl (b : Arena) (s : Copying) : s.Asked b [] s where
  source := rfl
  definition := rfl
  grown := .refl
  size := rfl
  copies i p h := by simp [news] at h
  points p := by simp [news]
  args k := by simp

/-- **Queries may be asked one after the other.** -/
theorem Asked.trans (h : s.Asked b qs s') (h' : s'.Asked b qs' s'') :
    s.Asked b (qs ++ qs') s'' where
  source := h'.source.trans h.source
  definition := h'.definition.trans h.definition
  grown := h.grown.trans h'.grown
  size := by
    rw [h'.size, h.size, h.news_append, List.length_append, Nat.add_assoc]
  copies i p hp := by
    rw [h.news_append] at hp
    rcases Nat.lt_or_ge i (s.news b qs).length with hFirst | hLater
    · rw [List.getElem?_append_left hFirst] at hp
      exact h'.grown.isCopy (h.copies i p hp)
    · rw [List.getElem?_append_right hLater] at hp
      have hCopy := h'.copies _ p hp
      rw [h.size, h.source, Nat.add_assoc, Nat.add_sub_cancel' hLater] at hCopy
      exact hCopy
  points p := by
    -- the later copies are numbered from where the first ones end
    have hShift : (fun i : Nat => (⟨s.arena.size + i⟩ : Point)) ∘ (· + (s.news b qs).length) =
        fun i => ⟨s'.arena.size + i⟩ := by
      funext i
      rw [h.size, Function.comp_apply, Nat.add_comm i, Nat.add_assoc]
    rw [h'.points, h.points, h.news_append, Option.or_assoc]
    unfold List.idxOf?
    rw [List.findIdx?_append, Option.map_or, Option.map_map, hShift]
  args k := by
    rw [h'.args, h.args]
    simp only [List.mem_append]
    cases hNew : s.copier.args[k]? with
    | some t => simp only [Option.some_or]
    | none =>
      by_cases hk : .parameter k ∈ qs
      · obtain ⟨q, hq⟩ := Option.ne_none_iff_exists'.mp (h.exists_source hk hNew)
        have hLater := h'.kept.points k.source q hq
        simp only [hk, if_true, true_or, Option.none_or, Option.some_or, Copier.onPoint_eq hq,
          Copier.onPoint_eq hLater]
      · simp only [hk, if_false, false_or, Option.none_or]

-- ---------------------------------------------------------------------------
-- One query
-- ---------------------------------------------------------------------------

/-- One query makes at most one copy. -/
theorem news_singleton (b : Arena) (s : Copying) (q : Query) :
    s.news b [q] = (s.wants b q).toList := by
  unfold news
  cases hWants : s.wants b q <;> simp [hWants, List.eraseDups_cons]

/-- A query that is answered without a copy. -/
theorem asked_of_none {q : Query} {args : Substitution} (hWants : s.wants b q = none)
    (hArgs : ∀ k, args[k]? = s.copier.args[k]?.or
      (if .parameter k ∈ [q] then some (.point (s.copier.onPoint k.source)) else none)) :
    s.Asked b [q] { s with copier := { s.copier with args } } where
  source := rfl
  definition := rfl
  grown := .refl
  size := by simp [news_singleton, hWants]
  copies i p h := by simp [news_singleton, hWants] at h
  points p := by simp [news_singleton, hWants]
  args := hArgs

/-- A query that is answered by a copy. -/
theorem asked_of_copy {q : Query} {p x : Point} {arena : Arena} {args : Substitution}
    (hWants : s.wants b q = some p) (hNew : s.copier.points[p]? = none)
    (hCopy : s.arena.copy p s.copier.source = .ok (x, arena))
    (hArgs : ∀ k, args[k]? = s.copier.args[k]?.or (if .parameter k ∈ [q] then
      some (.point ((s.copier.points.insert p x)[k.source]?.getD k.source)) else none)) :
    s.Asked b [q] ⟨{ s.copier with points := s.copier.points.insert p x, args }, arena⟩ where
  source := rfl
  definition := rfl
  grown := .single ⟨p, s.copier.source, x, hCopy⟩
  size := by
    rw [news_singleton, hWants]
    exact Arena.Copies.size ⟨p, s.copier.source, x, hCopy⟩
  copies i p' h := by
    rw [news_singleton, hWants, Option.toList_some, List.getElem?_singleton] at h
    split at h
    · rename_i hFirst
      obtain rfl := Option.some.inj h
      obtain ⟨st, hSite, -⟩ := Arena.copy_eq_ok_iff.mp hCopy
      have hHeld := Arena.holds_of_site hSite
      have hSame := (Arena.Copies.site_eq ⟨p, s.copier.source, x, hCopy⟩ hHeld).trans hSite
      rw [hFirst, Nat.add_zero, ← Arena.copy_fst hCopy]
      exact ⟨st, hSame, Arena.site_of_copy hCopy hSite⟩
    · cases h
  points p' := by
    rw [news_singleton, hWants, Option.toList_some, PointMap.getElem?_insert, List.idxOf?_cons,
      Arena.copy_fst hCopy]
    by_cases hEq : p' = p
    · simp [hEq, hNew]
    · simp [hEq, Ne.symm hEq]
  args := hArgs

end Copying

namespace CopyM

variable {b : Arena} {s s' : Copying}

/-- A query for a point. -/
theorem asked_point {p q : Point} (hRun : outcome (point p) s = (.ok q, s'))
    (hGrown : s'.arena.Grown b) : s.Asked b [.point p] s' := by
  have hArgs : ∀ (k : Parameter) (t : Ty), s.copier.args[k]? = s.copier.args[k]?.or
      (if .parameter k ∈ [Query.point p] then some t else none) := by simp
  rcases point_cases hRun with ⟨hFound, rfl⟩ | ⟨hNew, hHeld, ⟨hOwns, hFresh⟩ | ⟨hOther, -, rfl⟩⟩
  · exact Copying.asked_of_none (if_neg fun h => by simp [hFound] at h) fun k => hArgs k _
  · rcases fresh_cases hFresh with ⟨hFound, -⟩ | ⟨-, arena, hCopy, rfl⟩
    · rw [hNew] at hFound
      cases hFound
    · have hLater : s.arena.Grown b := .head ⟨p, _, q, hCopy⟩ hGrown
      exact Copying.asked_of_copy (if_pos ⟨hNew, (hLater.owns_iff hHeld).mpr hOwns⟩) hNew hCopy
        fun k => hArgs k _
  · -- a point of something else stands for itself, which leaves no trace
    refine Copying.asked_of_none (if_neg fun h => ?_) fun k => hArgs k _
    exact hOther ((hGrown.owns_iff hHeld).mp h.2)

/-- A query for a parameter. -/
theorem asked_parameter (b : Arena) {k : Parameter} {t : Ty}
    (hRun : outcome (parameter k) s = (.ok t, s')) : s.Asked b [.parameter k] s' := by
  -- a parameter that has no type yet is the only one that gets one
  have hArgs : ∀ (f : Parameter → Ty) (j : Parameter), s.copier.args[k]? = none →
      (s.copier.args.insert k (f k))[j]? = s.copier.args[j]?.or
        (if .parameter j ∈ [Query.parameter k] then some (f j) else none) := by
    intro f j hNew
    simp only [Std.ExtTreeMap.getElem?_insert, Std.LawfulEqOrd.compare_eq_iff_eq]
    by_cases hEq : k = j
    · subst hEq
      simp [hNew]
    · simp [hEq, Ne.symm hEq]
  rcases parameter_cases hRun with ⟨hFound, rfl⟩ | ⟨hNew, p, v, hFresh, -, rfl⟩
  · refine Copying.asked_of_none (if_neg fun h => by simp [hFound] at h) fun j => ?_
    by_cases hEq : j = k
    · subst hEq
      simp [hFound]
    · simp [hEq]
  · rcases fresh_cases hFresh with ⟨hFound, rfl⟩ | ⟨hSource, arena, hCopy, rfl⟩
    · rw [← Copier.onPoint_eq hFound]
      exact Copying.asked_of_none (if_neg fun h => by simp [hFound] at h)
        fun j => hArgs (fun j => .point (v.copier.onPoint j.source)) j hNew
    · have hChosen : (s.copier.points.insert k.source p)[k.source]?.getD k.source = p := by simp
      refine Copying.asked_of_copy (if_pos ⟨hNew, hSource⟩) hSource hCopy fun j => ?_
      rw [← hArgs (fun j => .point ((s.copier.points.insert k.source p)[j.source]?.getD j.source))
        j hNew, hChosen]

/-- **The step lemma.** -/
theorem asked_reply {q : Query} {r : Reply} (hRun : outcome (reply q) s = (.ok r, s'))
    (hGrown : s'.arena.Grown b) : s.Asked b [q] s' := by
  cases q with
  | point p =>
    obtain ⟨q, v, hFirst, hOk⟩ := outcome_bind_eq_ok.mp hRun
    obtain ⟨-, rfl⟩ := Prod.mk.inj hOk
    exact asked_point hFirst hGrown
  | parameter k =>
    obtain ⟨t, v, hFirst, hOk⟩ := outcome_bind_eq_ok.mp hRun
    obtain ⟨-, rfl⟩ := Prod.mk.inj hOk
    exact asked_parameter b hFirst

/-- **The run lemma**: what the copier and the arena are when the queries have been answered. -/
theorem asked_ask : ∀ (qs : List Query) {s s' : Copying} {replies : List Reply},
    outcome (ask qs) s = (.ok replies, s') → s'.arena.Grown b → s.Asked b qs s'
  | [], s, _, _, hRun, _ => by
    obtain ⟨-, rfl⟩ := Prod.mk.inj hRun
    exact .refl b s
  | q :: rest, s, _, _, hRun, hGrown => by
    obtain ⟨r, v, hFirst, hRun⟩ := outcome_bind_eq_ok.mp hRun
    obtain ⟨replies, v', hRest, hRun⟩ := outcome_bind_eq_ok.mp hRun
    obtain ⟨-, rfl⟩ := Prod.mk.inj hRun
    have hLater := asked_ask rest hRest hGrown
    exact (asked_reply hFirst (hLater.grown.trans hGrown)).trans hLater

/-- The run lemma for a program, by the queries that it asks. -/
theorem Asks.asked {α : Type} {x : CopyM α} {qs : List Query} {F : (Reply → Prop) → α → Prop}
    (h : Asks x qs F) {v : α} (hRun : outcome x s = (.ok v, s')) (hGrown : s'.arena.Grown b) :
    s.Asked b qs s' := by
  obtain ⟨replies, hAsk, -⟩ := h.exists_replies hRun
  exact asked_ask qs hAsk hGrown

/-- **Queries about points that are allocated are answered.** -/
theorem exists_ask : ∀ (qs : List Query) {s : Copying}, (∀ p, .point p ∈ qs → s.arena.Holds p) →
    (∀ k, .parameter k ∈ qs → s.copier.args[k]? = none → s.arena.Holds k.source) →
    ∃ replies s', outcome (ask qs) s = (.ok replies, s')
  | [], s, _, _ => ⟨[], s, rfl⟩
  | q :: rest, s, hPoints, hParameters => by
    have hFirst : ∃ r v, outcome (reply q) s = (.ok r, v) := by
      cases q with
      | point p =>
        obtain ⟨x, v, hRun⟩ := exists_point (hPoints p List.mem_cons_self)
        exact ⟨_, v, outcome_bind_ok hRun⟩
      | parameter k =>
        obtain ⟨t, v, hRun⟩ := exists_parameter (hParameters k List.mem_cons_self)
        exact ⟨_, v, outcome_bind_ok hRun⟩
    obtain ⟨r, v, hFirst⟩ := hFirst
    have hAsked := asked_reply hFirst .refl
    -- what is left to answer is still allocated when the first query has been answered
    obtain ⟨replies, s', hRest⟩ := exists_ask rest (s := v)
      (fun p hp => hAsked.grown.holds _ (hPoints p (List.mem_cons_of_mem _ hp)))
      fun k hk hNone => hAsked.grown.holds _ (hParameters k (List.mem_cons_of_mem _ hk)
        (hAsked.args_eq_none_iff.mp hNone).1)
    exact ⟨r :: replies, s', (outcome_bind_ok hFirst).trans (outcome_bind_ok hRest)⟩

/-- A program has a result if the points that it asks for are allocated. -/
theorem Asks.exists_outcome {α : Type} {x : CopyM α} {qs : List Query}
    {F : (Reply → Prop) → α → Prop} (h : Asks x qs F)
    (hPoints : ∀ p, .point p ∈ qs → s.arena.Holds p)
    (hParameters : ∀ k, .parameter k ∈ qs → s.copier.args[k]? = none →
      s.arena.Holds k.source) : ∃ v s', outcome x s = (.ok v, s') := by
  obtain ⟨replies, s', hAsk⟩ := exists_ask qs hPoints hParameters
  obtain ⟨v, hRun, -⟩ := h.answered hAsk
  exact ⟨v, s', hRun⟩

end CopyM

end TraitInference
