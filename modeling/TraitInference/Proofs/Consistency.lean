import TraitInference.Proofs.Copies

/-!
# TraitInference — whether a copier answers alike

A copier may be asked for the same thing twice, with anything asked in between. This module
says when the two answers agree:

* `CopyM.Request`, `CopyM.serveAll` — the uses of a copier, and a list of them in a row.
* `Copying.Repeats` — a program runs twice on one copier. `CopyM.agree_point`,
  `CopyM.agree_type` compare what it gives.
* `CopyM.answers_agree_iff` — the answers agree unless a point was **unsteady**.

A point of the definition is steady: once copied, it keeps its copy. So does a parameter. A
point that belongs to something else is answered by itself, which is not remembered; if it
declares a parameter, and the parameter is replaced later on, then the point has a copy from
there on, and is answered by the copy.
-/

namespace TraitInference

-- ---------------------------------------------------------------------------
-- Points that are steady
-- ---------------------------------------------------------------------------

namespace Copying

/-- Once the queries are answered a point of something else has a counterpart: it had one
before, or it declares a parameter for which a type had to be found. -/
def Settles (s : Copying) (qs : List Query) (p : Point) : Prop :=
  s.copier.points[p]? ≠ none ∨
    ∃ k : Parameter, .parameter k ∈ qs ∧ s.copier.args[k]? = none ∧ k.source = p

/-- Whatever point the queries `asked` mention, the definition owns it, or it gets no
counterpart between the two moments at which they are made: behind `qs`, and behind `qs'`. -/
def Steady (b : Arena) (s : Copying) (qs qs' asked : List Query) : Prop :=
  ∀ pre p post, asked = pre ++ .point p :: post →
    b.Owns s.copier.definition p ∨ (s.Settles (qs' ++ pre) p → s.Settles (qs ++ pre) p)

variable {b : Arena} {s u u' v v' : Copying} {qs qs' xs ys : List Query}

/-- A point of something else gets a counterpart in no other way. -/
theorem Asked.ne_none_iff_settles (h : s.Asked b qs v) {p : Point}
    (hOther : ¬ b.Owns s.copier.definition p) :
    v.copier.points[p]? ≠ none ↔ s.Settles qs p := by
  rw [Ne, h.points_eq_none_iff, mem_news, not_and, not_not, Settles, Ne, imp_iff_not_or]
  refine or_congr_right' fun hNone => ?_
  rw [not_not] at hNone
  constructor
  · rintro ⟨q, hq, hWants⟩
    cases q with
    | point x =>
      obtain ⟨hOwns, hSame⟩ := Option.ite_none_right_eq_some.mp hWants
      exact absurd (Option.some.inj hSame ▸ hOwns.2) hOther
    | parameter k =>
      obtain ⟨hNew, hSource⟩ := Option.ite_none_right_eq_some.mp hWants
      exact ⟨k, hq, hNew.1, Option.some.inj hSource⟩
  · rintro ⟨k, hk, hNew, rfl⟩
    exact ⟨_, hk, if_pos ⟨hNew, hNone⟩⟩

theorem steady_nil (b : Arena) (s : Copying) (qs qs' : List Query) : s.Steady b qs qs' [] := by
  intro pre p post h
  simp at h

/-- Whether a point that is asked for alone is steady. -/
theorem steady_point_iff {p : Point} : s.Steady b qs qs' [.point p] ↔
    b.Owns s.copier.definition p ∨ (s.Settles qs' p → s.Settles qs p) := by
  constructor
  · intro h
    simpa using h [] p [] rfl
  · intro h pre p' post hSplit
    cases pre with
    | nil =>
      obtain rfl := Query.point.inj (List.cons.inj hSplit).1
      simpa using h
    | cons q pre => simp at hSplit

/-- A parameter is always steady. -/
theorem steady_parameter (b : Arena) (s : Copying) (qs qs' : List Query) (k : Parameter) :
    s.Steady b qs qs' [.parameter k] := by
  intro pre p post h
  cases pre <;> simp at h

/-- Queries in a row are steady if each part is, from where the one before it ends. -/
theorem steady_append_iff : s.Steady b qs qs' (xs ++ ys) ↔
    s.Steady b qs qs' xs ∧ s.Steady b (qs ++ xs) (qs' ++ xs) ys := by
  constructor
  · intro h
    constructor
    · intro pre p post hSplit
      exact h pre p (post ++ ys) (by simp [hSplit])
    · intro pre p post hSplit
      have hWhole := h (xs ++ pre) p post (by simp [hSplit])
      rwa [← List.append_assoc, ← List.append_assoc] at hWhole
  · rintro ⟨hFirst, hRest⟩ pre p post hSplit
    -- the point is mentioned behind the cut, or in front of it
    rcases List.append_eq_append_iff.mp hSplit with ⟨mid, rfl, hMid⟩ | ⟨mid, rfl, hMid⟩
    · rw [← List.append_assoc, ← List.append_assoc]
      exact hRest mid p post hMid
    · cases mid with
      | nil =>
        simpa using hRest [] p post hMid.symm
      | cons q mid =>
        obtain ⟨rfl, -⟩ := List.cons.inj hMid
        exact hFirst pre p mid rfl

-- ---------------------------------------------------------------------------
-- Running a program twice
-- ---------------------------------------------------------------------------

/-- The program runs twice on the copier of `s`: behind the queries `qs` it gives `r`, and
later, behind `qs'`, it gives `r'`. -/
def Repeats {α : Type} (b : Arena) (s : Copying) (qs qs' : List Query) (x : CopyM α)
    (r r' : α) : Prop :=
  ∃ u u' v v' between, s.Asked b qs u ∧ outcome x u = (.ok r, u') ∧ u'.Asked b between v ∧
    s.Asked b qs' v ∧ outcome x v = (.ok r', v') ∧ v'.arena.Grown b

variable {α β γ : Type} {x : CopyM α} {y : CopyM β} {F : (Reply → Prop) → α → Prop}
  {G : (Reply → Prop) → β → Prop}

/-- A function of a result is repeated if the result is. -/
theorem Repeats.of_map {f : α → β} {r r' : β}
    (h : s.Repeats b qs qs' (do return f (← x)) r r') :
    ∃ a a', s.Repeats b qs qs' x a a' ∧ f a = r ∧ f a' = r' := by
  obtain ⟨u, u', v, v', between, hFirst, hRun, hBetween, hLater, hRun', hGrown⟩ := h
  obtain ⟨a, w, hx, hOk⟩ := outcome_bind_eq_ok.mp hRun
  obtain ⟨a', w', hx', hOk'⟩ := outcome_bind_eq_ok.mp hRun'
  obtain ⟨hEq, rfl⟩ := Prod.mk.inj hOk
  obtain ⟨hEq', rfl⟩ := Prod.mk.inj hOk'
  exact ⟨a, a', ⟨u, w, v, w', between, hFirst, hx, hBetween, hLater, hx', hGrown⟩,
    Except.ok.inj hEq, Except.ok.inj hEq'⟩

/-- Two programs in a row are repeated one by one. -/
theorem Repeats.of_seq {f : α → β → γ} {r r' : γ} (hx : CopyM.Asks x xs F)
    (hy : CopyM.Asks y ys G)
    (h : s.Repeats b qs qs' (do let a ← x; return f a (← y)) r r') :
    ∃ a a' c c', s.Repeats b qs qs' x a a' ∧ s.Repeats b (qs ++ xs) (qs' ++ xs) y c c' ∧
      f a c = r ∧ f a' c' = r' := by
  obtain ⟨u, u', v, v', between, hFirst, hRun, hBetween, hLater, hRun', hGrown⟩ := h
  obtain ⟨a, w, hRunX, hRest⟩ := outcome_bind_eq_ok.mp hRun
  obtain ⟨c, w₁, hRunY, hOk⟩ := outcome_bind_eq_ok.mp hRest
  obtain ⟨hEq, rfl⟩ := Prod.mk.inj hOk
  obtain ⟨a', w', hRunX', hRest'⟩ := outcome_bind_eq_ok.mp hRun'
  obtain ⟨c', w₁', hRunY', hOk'⟩ := outcome_bind_eq_ok.mp hRest'
  obtain ⟨hEq', rfl⟩ := Prod.mk.inj hOk'
  -- from the last run back to the first: each needs to know that its arena grows into `b`
  have hY' := hy.asked hRunY' hGrown
  have hX' := hx.asked hRunX' (hY'.grown.trans hGrown)
  have hBefore := hBetween.grown.trans (hX'.grown.trans (hY'.grown.trans hGrown))
  have hY := hy.asked hRunY hBefore
  have hX := hx.asked hRunX (hY.grown.trans hBefore)
  exact ⟨a, a', c, c',
    ⟨u, w, v, w', ys ++ between, hFirst, hRunX, hY.trans hBetween, hLater, hRunX',
      hY'.grown.trans hGrown⟩,
    ⟨w, w₁, w', w₁', between ++ xs, hFirst.trans hX, hRunY, hBetween.trans hX', hLater.trans hX',
      hRunY', hGrown⟩,
    Except.ok.inj hEq, Except.ok.inj hEq'⟩

end Copying

namespace CopyM

open Copying

variable {b : Arena} {s : Copying} {qs qs' : List Query}

/-- **Two answers for a point agree exactly if the point is steady.** -/
theorem agree_point {p q q' : Point} (h : s.Repeats b qs qs' (point p) q q') :
    q = q' ↔ s.Steady b qs qs' [.point p] := by
  obtain ⟨u, u', v, v', between, hFirst, hRun, hBetween, hLater, hRun', hGrown⟩ := h
  have hGrownV := ((asks_point p).asked hRun' hGrown).grown.trans hGrown
  have hGrownU := hBetween.grown.trans hGrownV
  have hGrownU' := ((asks_point p).asked hRun hGrownU).grown.trans hGrownU
  rw [steady_point_iff]
  -- what the first answer left in the table is still there
  have hSame : u'.copier.points[p]? = some q → q = q' := by
    intro hFound
    have hStill := hBetween.kept.points p q hFound
    rcases point_cases hRun' with ⟨hFound', -⟩ | ⟨hNone, -⟩
    · rw [hFound'] at hStill
      exact (Option.some.inj hStill).symm
    · rw [hNone] at hStill
      cases hStill
  rcases point_cases hRun with ⟨hFound, rfl⟩ | ⟨hNone, hHeld, hCases⟩
  · refine iff_of_true (hSame hFound) (or_iff_not_imp_left.mpr fun hOther _ => ?_)
    exact (hFirst.ne_none_iff_settles hOther).mp (by simp [hFound])
  · rw [← Arena.Grown.owns_iff hGrownU' hHeld, hFirst.definition] at hCases
    -- a point of the definition is entered in the table; one of something else is not
    rcases hCases with ⟨hOwns, hFresh⟩ | ⟨hOther, rfl, rfl⟩
    · exact iff_of_true (hSame (found_of_fresh hFresh)) (.inl hOwns)
    · rw [or_iff_right hOther, ← hFirst.ne_none_iff_settles hOther,
        ← hLater.ne_none_iff_settles hOther]
      rcases point_cases hRun' with ⟨hFound, -⟩ | ⟨hNone', hHeld', hCases'⟩
      · refine iff_of_false ?_ fun h => h (by simp [hFound]) hNone
        -- the copy was made later, and so it is another point
        rw [hBetween.points, hNone, Option.none_or, Option.map_eq_some_iff] at hFound
        obtain ⟨i, -, rfl⟩ := hFound
        intro hEq
        have hIndex := congrArg Point.index hEq
        simp only [Arena.Holds] at hHeld hIndex
        omega
      · rw [← Arena.Grown.owns_iff hGrownV hHeld', hLater.definition] at hCases'
        rcases hCases' with ⟨hOwns, -⟩ | ⟨-, rfl, -⟩
        · exact absurd hOwns hOther
        · exact iff_of_true rfl fun h => absurd hNone' h

/-- Two answers for a parameter always agree. -/
theorem agree_parameter {k : Parameter} {t t' : Ty} (h : s.Repeats b qs qs' (parameter k) t t') :
    t = t' := by
  obtain ⟨u, u', v, v', between, hFirst, hRun, hBetween, hLater, hRun', hGrown⟩ := h
  have hStill := (hBetween.trans ((asks_parameter k).asked hRun' hGrown)).kept.args k t
    (found_of_parameter hRun)
  rw [found_of_parameter hRun'] at hStill
  exact (Option.some.inj hStill).symm

mutual

/-- **Two answers for a type agree exactly if the points that it mentions are steady.** -/
theorem agree_type : ∀ (t : Ty) {qs qs' : List Query} {t₁ t₂ : Ty},
    s.Repeats b qs qs' (type t) t₁ t₂ → (t₁ = t₂ ↔ s.Steady b qs qs' t.queries)
  | .point p, qs, qs', t₁, t₂, h => by
    obtain ⟨q, q', hPoint, rfl, rfl⟩ := h.of_map
    rw [Ty.point.injEq]
    exact agree_point hPoint
  | .con tag children emit, qs, qs', t₁, t₂, h => by
    cases tag with
    | parameter k => exact iff_of_true (agree_parameter h) (steady_parameter b s qs qs' k)
    | _ =>
      obtain ⟨ts, ts', hTypes, rfl, rfl⟩ := Repeats.of_map h
      simp only [Ty.con.injEq, true_and, and_true]
      exact agree_types children hTypes

theorem agree_types : ∀ (ts : List Ty) {qs qs' : List Query} {ts₁ ts₂ : List Ty},
    s.Repeats b qs qs' (types ts) ts₁ ts₂ →
      (ts₁ = ts₂ ↔ s.Steady b qs qs' (Ty.queriesOfAll ts))
  | [], qs, qs', ts₁, ts₂, h => by
    obtain ⟨u, u', v, v', between, -, hRun, -, -, hRun', -⟩ := h
    have hFirst := Except.ok.inj (Prod.mk.inj hRun).1
    have hLater := Except.ok.inj (Prod.mk.inj hRun').1
    exact iff_of_true (hFirst.symm.trans hLater) (steady_nil b s qs qs')
  | t :: ts, qs, qs', ts₁, ts₂, h => by
    obtain ⟨t₁, t₂, rest₁, rest₂, hHead, hTail, rfl, rfl⟩ :=
      Repeats.of_seq (asks_type t) (asks_types ts) h
    rw [List.cons.injEq, agree_type t hHead, agree_types ts hTail]
    exact steady_append_iff.symm

end

-- ---------------------------------------------------------------------------
-- Sequences of requests
-- ---------------------------------------------------------------------------

/-- The uses of a copier. -/
inductive Request
  | point (p : Point)
  | parameter (k : Parameter)
  | type (t : Ty)
  | substitution (s : Substitution)
  | constraint (c : Constraint)

/-- What a copier gives back. -/
inductive Answer
  | point (p : Point)
  | type (t : Ty)
  | substitution (s : Substitution)
  /-- There is no counterpart of a constraint that is confined to its definition. -/
  | constraint (c : Option Constraint)

namespace Request

/-- The answer of a copier to a request. -/
def serve : Request → CopyM Answer
  | .point p => return .point (← CopyM.point p)
  | .parameter k => return .type (← CopyM.parameter k)
  | .type t => return .type (← CopyM.type t)
  | .substitution s => return .substitution (← CopyM.substitution s)
  | .constraint c => return .constraint (← CopyM.constraint c)

/-- The queries that a request makes. -/
def queries : Request → List Query
  | .point p => [.point p]
  | .parameter k => [.parameter k]
  | .type t => t.queries
  | .substitution s => s.queries
  | .constraint c => c.queries

theorem asks_serve : ∀ r : Request, Asks r.serve r.queries fun _ _ => True
  | .point p => (asks_point p).map fun _ _ _ => trivial
  | .parameter k => (asks_parameter k).map fun _ _ _ => trivial
  | .type t => (asks_type t).map fun _ _ _ => trivial
  | .substitution s => (asks_substitution s).map fun _ _ _ => trivial
  | .constraint c => (asks_constraint c).map fun _ _ _ => trivial

end Request

/-- The answers to a list of requests, the first one first. -/
def serveAll : List Request → CopyM (List Answer)
  | [] => return []
  | r :: rest => return (← r.serve) :: (← serveAll rest)

theorem asks_serveAll : ∀ requests : List Request,
    Asks (serveAll requests) (requests.flatMap Request.queries) fun _ _ => True
  | [] => .pure fun _ => trivial
  | r :: rest => r.asks_serve.seq (asks_serveAll rest) fun _ _ _ _ _ => trivial

/-- A run is cut in front of and behind one of its requests. -/
theorem exists_serve {r : Request} {s' : Copying} : ∀ (requests : List Request) {s : Copying}
    {answers : List Answer} {i : Nat}, outcome (serveAll requests) s = (.ok answers, s') →
    requests[i]? = some r → ∃ answer u v rest, answers[i]? = some answer ∧
      outcome (serveAll (requests.take i)) s = (.ok (answers.take i), u) ∧
      outcome r.serve u = (.ok answer, v) ∧
      outcome (serveAll (requests.drop (i + 1))) v = (.ok rest, s')
  | [], s, answers, i, _, hi => by simp at hi
  | r' :: requests, s, answers, i, hRun, hi => by
    obtain ⟨answer, w, hFirst, hRest⟩ := outcome_bind_eq_ok.mp hRun
    obtain ⟨rest, w', hTail, hOk⟩ := outcome_bind_eq_ok.mp hRest
    obtain ⟨hAnswers, rfl⟩ := Prod.mk.inj hOk
    obtain rfl := Except.ok.inj hAnswers
    cases i with
    | zero =>
      obtain rfl := Option.some.inj hi
      exact ⟨answer, s, w, rest, rfl, rfl, hFirst, hTail⟩
    | succ i =>
      obtain ⟨answer', u, v, rest', hAnswer, hBefore, hServe, hAfter⟩ :=
        exists_serve requests hTail hi
      refine ⟨answer', u, v, rest', hAnswer, ?_, hServe, hAfter⟩
      exact outcome_bind_eq_ok.mpr ⟨answer, w, hFirst, outcome_bind_eq_ok.mpr ⟨_, u, hBefore, rfl⟩⟩

/-- A request that is made twice is a program that runs twice. -/
theorem repeats_serve {requests : List Request} {answers : List Answer} {s' : Copying}
    (hRun : outcome (serveAll requests) s = (.ok answers, s')) {i j : Nat} (hij : i < j)
    {r : Request} (hi : requests[i]? = some r) (hj : requests[j]? = some r) :
    ∃ answer answer', answers[i]? = some answer ∧ answers[j]? = some answer' ∧
      s.Repeats s'.arena ((requests.take i).flatMap Request.queries)
        ((requests.take j).flatMap Request.queries) r.serve answer answer' := by
  obtain ⟨answer', v, v', rest, hAnswer', hBefore, hServe', hAfter⟩ :=
    exists_serve requests hRun hj
  obtain ⟨answer, u, u', between, hAnswer, hFirst, hServe, hBetween⟩ :=
    exists_serve (requests.take j) hBefore (by rwa [List.getElem?_take_of_lt hij])
  rw [List.getElem?_take_of_lt hij] at hAnswer
  rw [List.take_take, Nat.min_eq_left hij.le] at hFirst
  -- all arenas on the way grow into the last one, in which owners are looked up
  have hGrownV' := ((asks_serveAll _).asked hAfter .refl).grown
  have hGrownV := (r.asks_serve.asked hServe' hGrownV').grown.trans hGrownV'
  have hAskedBetween := (asks_serveAll _).asked hBetween hGrownV
  have hGrownU' := hAskedBetween.grown.trans hGrownV
  have hGrownU := (r.asks_serve.asked hServe hGrownU').grown.trans hGrownU'
  exact ⟨answer, answer', hAnswer, hAnswer', u, u', v, v', _,
    (asks_serveAll _).asked hFirst hGrownU, hServe, hAskedBetween,
    (asks_serveAll _).asked hBefore hGrownV, hServe', hGrownV'⟩

/-- **When a copier answers alike.** Whatever copier serves whatever requests, two answers for
one point agree exactly if the point is steady between the two requests, and two answers for
one type exactly if the points are that it mentions. -/
theorem answers_agree_iff {requests : List Request} {answers : List Answer} {s' : Copying}
    (hRun : outcome (serveAll requests) s = (.ok answers, s')) {i j : Nat} (hij : i < j) :
    (∀ p, requests[i]? = some (.point p) → requests[j]? = some (.point p) →
      (answers[i]? = answers[j]? ↔
        s.Steady s'.arena ((requests.take i).flatMap Request.queries)
          ((requests.take j).flatMap Request.queries) [.point p])) ∧
    ∀ t, requests[i]? = some (.type t) → requests[j]? = some (.type t) →
      (answers[i]? = answers[j]? ↔
        s.Steady s'.arena ((requests.take i).flatMap Request.queries)
          ((requests.take j).flatMap Request.queries) t.queries) := by
  constructor
  · intro p hi hj
    obtain ⟨answer, answer', hAnswer, hAnswer', hRepeats⟩ := repeats_serve hRun hij hi hj
    obtain ⟨q, q', hPoint, rfl, rfl⟩ := hRepeats.of_map
    rw [hAnswer, hAnswer', Option.some.injEq, Answer.point.injEq]
    exact agree_point hPoint
  · intro t hi hj
    obtain ⟨answer, answer', hAnswer, hAnswer', hRepeats⟩ := repeats_serve hRun hij hi hj
    obtain ⟨t₁, t₂, hType, rfl, rfl⟩ := hRepeats.of_map
    rw [hAnswer, hAnswer', Option.some.injEq, Answer.type.injEq]
    exact agree_type t hType

/-- A parameter that the third point declares. -/
def element : Parameter :=
  { id := 0, name := "T", source := ⟨2⟩, infer := false }

/-- The first of three points is called at the second one; no point belongs to it. -/
def callOfFirst : Copying where
  copier := { source := ⟨1⟩, definition := ⟨0⟩ }
  arena := ⟨(List.replicate 3 { span := ⟨0, 0⟩, source := "" }).toArray⟩

/-- A point that declares a parameter stands for itself first, and for the parameter once the
parameter was replaced. So a type that mentions both has two counterparts. -/
theorem answers_differ_declaring_point :
    (∃ s', outcome (serveAll [.point ⟨2⟩, .parameter element, .point ⟨2⟩]) callOfFirst =
      (.ok [.point ⟨2⟩, .type (.point ⟨3⟩), .point ⟨3⟩], s')) ∧
    ∃ s', outcome (serveAll (List.replicate 2
        (.type (.con .tuple [.point ⟨2⟩, .con (.parameter element) [] none] none)))) callOfFirst =
      (.ok [.type (.con .tuple [.point ⟨2⟩, .point ⟨3⟩] none),
        .type (.con .tuple [.point ⟨3⟩, .point ⟨3⟩] none)], s') :=
  ⟨⟨_, rfl⟩, _, rfl⟩

/-- The point is not steady, as its two answers differ. -/
theorem answers_agree_iff_declaring_point : ∃ s',
    outcome (serveAll [.point ⟨2⟩, .parameter element, .point ⟨2⟩]) callOfFirst =
      (.ok [.point ⟨2⟩, .type (.point ⟨3⟩), .point ⟨3⟩], s') ∧
    ¬ callOfFirst.Steady s'.arena [] [.point ⟨2⟩, .parameter element] [.point ⟨2⟩] := by
  refine ⟨_, rfl, fun hSteady => ?_⟩
  have hAgree := ((answers_agree_iff
    (show outcome (serveAll [.point ⟨2⟩, .parameter element, .point ⟨2⟩]) callOfFirst = _ from rfl)
    (show 0 < 2 by decide)).1 ⟨2⟩ rfl rfl).mpr hSteady
  cases hAgree

end CopyM

end TraitInference
