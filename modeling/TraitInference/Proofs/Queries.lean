import Mathlib.Data.List.Forall2
import TraitInference.Proofs.Copying

/-!
# TraitInference — what copying asks for

Whatever is copied, a type, a substitution or a constraint, the copier is only asked for
counterparts of points and for types in place of parameters, from left to right; the rest
of a copy is what it is a copy of, with the answers filled in. `CopyM.Asks` says both, the
list of **queries** and how the answers are filled in, and every function of copying has
its lemma, up to `CopyM.asks_constraints`.

So nothing else has to look at these functions. What holds along all copies follows from
what holds of one query about a point and of one about a parameter (`CopyM.Asks.yields`,
`CopyM.Asks.attains`), and what then holds of a copy from the way it is filled in.

* `Query`, `Reply` — what a copier is asked for, and what it answers.
* `queries` — what the copy of something asks for.
* `Filled` — a copy, in which all that replaces something was the answer to a query.
-/

namespace TraitInference

/-- What a copier is asked for. -/
inductive Query
  /-- The counterpart of a point. -/
  | point (p : Point)
  /-- The type in place of a parameter. -/
  | parameter (k : Parameter)
deriving DecidableEq

/-- A query with its answer. -/
inductive Reply
  | point (p q : Point)
  | parameter (k : Parameter) (t : Ty)

/-- What was asked for. -/
def Reply.query : Reply → Query
  | .point p _ => .point p
  | .parameter k _ => .parameter k

-- ---------------------------------------------------------------------------
-- The queries of types and constraints
-- ---------------------------------------------------------------------------

namespace Ty

mutual

/-- What the copy of a type asks for. The children of a parameter are not looked at. -/
def queries : Ty → List Query
  | .point p => [.point p]
  | .con (.parameter k) _ _ => [.parameter k]
  | .con _ children _ => queriesOfAll children

/-- What the copies of a row of types ask for. -/
def queriesOfAll : List Ty → List Query
  | [] => []
  | t :: ts => t.queries ++ queriesOfAll ts

end

end Ty

def Substitution.queries (s : Substitution) : List Query :=
  s.toList.flatMap fun entry => entry.2.queries

def Ascription.queries (a : Ascription) : List Query :=
  .point a.node :: a.type.queries

def Bound.queries (b : Bound) : List Query :=
  .point b.source :: b.args.queries

/-- The definition and the counterparts that a call fixes are not asked for. -/
def Call.queries (c : Call) : List Query :=
  .point c.source :: c.args.queries

/-- What the copy of a constraint asks for: nothing, if it is confined to its definition. -/
def Constraint.queries : Constraint → List Query
  | .ascribe a | .fallback a => a.queries
  | .call c => c.queries
  | .require b => b.queries
  | .scoped _ => []

-- ---------------------------------------------------------------------------
-- Queries about some points only
-- ---------------------------------------------------------------------------

section Over

variable {T D : Point → Prop}

/-- `T` holds of the point that is asked for, or `D` of the point that declares the
parameter. -/
def Query.Over (T D : Point → Prop) : Query → Prop
  | .point p => T p
  | .parameter k => D k.source

mutual

/-- A type over some points asks for these points only. -/
theorem Ty.Over.queries : ∀ {t : Ty}, t.Over T D → ∀ q ∈ t.queries, q.Over T D
  | .point _, h, _, hq => List.mem_singleton.mp hq ▸ h
  | .con tag children emit, h, q, hq => by
    cases tag with
    | parameter k => exact List.mem_singleton.mp hq ▸ h.1
    | _ => exact Ty.OverAll.queries h.2 q hq

theorem Ty.OverAll.queries : ∀ {ts : List Ty}, Ty.OverAll T D ts →
    ∀ q ∈ Ty.queriesOfAll ts, q.Over T D
  | [], _, _, hq => absurd hq List.not_mem_nil
  | _ :: _, h, q, hq =>
    (List.mem_append.mp hq).elim (h.1.queries q) (Ty.OverAll.queries h.2 q)

end

theorem Substitution.Over.queries {s : Substitution} (h : s.Over T D) :
    ∀ q ∈ s.queries, q.Over T D := by
  intro q hq
  obtain ⟨⟨k, t⟩, hEntry, ht⟩ := List.mem_flatMap.mp hq
  exact (h k t (Std.ExtTreeMap.mem_toList_iff_getElem?_eq_some.mp hEntry)).queries q ht

theorem Ascription.Over.queries {a : Ascription} (h : a.Over T D) :
    ∀ q ∈ a.queries, q.Over T D :=
  List.forall_mem_cons.mpr ⟨h.node, h.type.queries⟩

/-- A constraint over some points asks for these points only. -/
theorem Constraint.Over.queries : ∀ {c : Constraint}, c.Over T D → ∀ q ∈ c.queries, q.Over T D
  | .ascribe _, h | .fallback _, h => Ascription.Over.queries h
  | .call _, h => List.forall_mem_cons.mpr ⟨h.source, Substitution.Over.queries h.args⟩
  | .require _, h => List.forall_mem_cons.mpr ⟨h.source, Substitution.Over.queries h.args⟩
  | .scoped _, _ => fun _ hq => absurd hq List.not_mem_nil

theorem Constraint.queries_over {cs : List Constraint} (h : ∀ c ∈ cs, c.Over T D) :
    ∀ q ∈ cs.flatMap Constraint.queries, q.Over T D := by
  intro q hq
  obtain ⟨c, hc, hq⟩ := List.mem_flatMap.mp hq
  exact (h c hc).queries q hq

end Over

-- ---------------------------------------------------------------------------
-- Copies
-- ---------------------------------------------------------------------------

section Filled

variable (A : Reply → Prop)

namespace Ty

mutual

/-- The second type is a copy of the first: `A` holds of what takes the place of points and
parameters, and all else is as it was. -/
def Filled : Ty → Ty → Prop
  | .point p, t => ∃ q, A (.point p q) ∧ t = .point q
  | .con (.parameter k) _ _, t => A (.parameter k t)
  | .con tag children emit, t => ∃ ts, FilledAll children ts ∧ t = .con tag ts emit

/-- The same of rows of types. -/
def FilledAll : List Ty → List Ty → Prop
  | [], ts => ts = []
  | t :: ts, ts' => ∃ copy copies, t.Filled copy ∧ FilledAll ts copies ∧ ts' = copy :: copies

end

end Ty

/-- A copy of a substitution is for the same parameters. -/
def Substitution.Filled (s s' : Substitution) : Prop :=
  ∀ q : Parameter, Option.Rel (Ty.Filled A) s[q]? s'[q]?

/-- A copied ascription is marked as such, and keeps what else it carries. -/
def Ascription.Filled (x x' : Ascription) : Prop :=
  ∃ node type, A (.point x.node node) ∧ x.type.Filled A type ∧
    x' = { x with node, type, copied := true }

/-- So is a copied bound. -/
def Bound.Filled (b b' : Bound) : Prop :=
  ∃ source args, A (.point b.source source) ∧ b.args.Filled A args ∧
    b' = { b with source, args, copied := true }

/-- The copy of a call fixes the counterpart of its definition only. -/
def Call.Filled (c c' : Call) : Prop :=
  ∃ source args, A (.point c.source source) ∧ c.args.Filled A args ∧
    c' = .ofSource source c.definition args

/-- A constraint that is confined to its definition has no copy. -/
def Constraint.Filled : Constraint → Option Constraint → Prop
  | .ascribe x, copy => ∃ x', x.Filled A x' ∧ copy = some (.ascribe x')
  | .call c, copy => ∃ c', c.Filled A c' ∧ copy = some (.call c')
  | .require b, copy => ∃ b', b.Filled A b' ∧ copy = some (.require b')
  | .fallback x, copy => ∃ x', x.Filled A x' ∧ copy = some (.fallback x')
  | .scoped _, copy => copy = none

/-- The copies of a row of constraints, without those that have none. -/
def Constraint.FilledAll : List Constraint → List Constraint → Prop
  | [], copies => copies = []
  | c :: cs, copies => ∃ copy rest, c.Filled A copy ∧ FilledAll cs rest ∧
      copies = copy.toList ++ rest

variable {A}

/-- The type that a copied substitution gives for a parameter is a copy. -/
theorem Substitution.Filled.exists_of_getElem? {s s' : Substitution} (h : s.Filled A s')
    {q : Parameter} {t' : Ty} (hFound : s'[q]? = some t') :
    ∃ t, s[q]? = some t ∧ t.Filled A t' := by
  have hq := h q
  rw [hFound] at hq
  generalize s[q]? = found at hq ⊢
  cases hq with
  | some ht => exact ⟨_, rfl, ht⟩

/-- Exactly the parameters of a substitution have a type in its copy. -/
theorem Substitution.Filled.contains_eq {s s' : Substitution} (h : s.Filled A s')
    (q : Parameter) : s'.contains q = s.contains q := by
  have hq := h q
  rw [Std.ExtTreeMap.contains_eq_isSome_getElem?, Std.ExtTreeMap.contains_eq_isSome_getElem?]
  generalize s[q]? = found at hq ⊢
  generalize s'[q]? = found' at hq ⊢
  cases hq <;> rfl

/-- Each constraint among the copies is the copy of one. -/
theorem Constraint.FilledAll.exists_of_mem : ∀ {cs copies : List Constraint},
    FilledAll A cs copies → ∀ {c' : Constraint}, c' ∈ copies → ∃ c ∈ cs, c.Filled A (some c')
  | [], _, h, c', hc' => by
    rw [h] at hc'
    cases hc'
  | c :: cs, _, h, c', hc' => by
    obtain ⟨copy, rest, hFirst, hRest, rfl⟩ := h
    rcases List.mem_append.mp hc' with hHere | hLater
    · exact ⟨c, List.mem_cons_self, Option.mem_toList.mp hHere ▸ hFirst⟩
    · obtain ⟨d, hd, hFilled⟩ := hRest.exists_of_mem hLater
      exact ⟨d, List.mem_cons_of_mem c hd, hFilled⟩

/-- Copies entry by entry keep the parameters in their places, and each entry has its copy. -/
theorem Entries.filled_cases {l l' : List (Parameter × Ty)}
    (h : l.Forall₂ (fun x x' => x'.1 = x.1 ∧ x.2.Filled A x'.2) l') :
    l'.map Prod.fst = l.map Prod.fst ∧ ∀ q t, (q, t) ∈ l → ∃ t', (q, t') ∈ l' ∧ t.Filled A t' := by
  induction h with
  | nil => exact ⟨rfl, fun q t hMem => absurd hMem List.not_mem_nil⟩
  | @cons x x' l l' hHead _ ih =>
    obtain ⟨hKey, hFilled⟩ := hHead
    refine ⟨by rw [List.map_cons, List.map_cons, hKey, ih.1], fun q t hMem => ?_⟩
    rcases List.mem_cons.mp hMem with rfl | hMem
    · exact ⟨x'.2, List.mem_cons.mpr (.inl (Prod.ext hKey.symm rfl)), hFilled⟩
    · obtain ⟨t', hMem', hFilled'⟩ := ih.2 q t hMem
      exact ⟨t', List.mem_cons_of_mem x' hMem', hFilled'⟩

/-- The copy of a substitution is made of copies of its entries. -/
theorem Substitution.filled_ofList {s : Substitution} {l : List (Parameter × Ty)}
    (h : s.toList.Forall₂ (fun x x' => x'.1 = x.1 ∧ x.2.Filled A x'.2) l) :
    s.Filled A (.ofList l) := by
  obtain ⟨hKeys, hCopies⟩ := Entries.filled_cases h
  intro q
  cases hFound : s[q]? with
  -- no entry, so no copy of one
  | none =>
    have hNone : (Std.ExtTreeMap.ofList l compare)[q]? = none := by
      apply Std.ExtTreeMap.getElem?_ofList_of_contains_eq_false
      rw [hKeys, Std.ExtTreeMap.map_fst_toList_eq_keys, Std.ExtTreeMap.contains_keys,
        Std.ExtTreeMap.contains_eq_isSome_getElem?, hFound]
      rfl
    rw [hNone]
    exact .none
  -- the keys are the same and distinct, so the copy of the entry is the one that is found
  | some t =>
    have hDistinct : l.Pairwise fun x y => ¬ compare x.1 y.1 = .eq := by
      have hSorted := Std.ExtTreeMap.distinct_keys_toList (t := s)
      rw [← List.pairwise_map (f := Prod.fst) (R := fun k k' => ¬ compare k k' = .eq)] at hSorted ⊢
      rwa [hKeys]
    obtain ⟨t', hMem, hFilled⟩ :=
      hCopies q t (Std.ExtTreeMap.mem_toList_iff_getElem?_eq_some.mpr hFound)
    rw [Std.ExtTreeMap.getElem?_ofList_of_mem Std.ReflCmp.compare_self hDistinct hMem]
    exact .some hFilled

end Filled

-- ---------------------------------------------------------------------------
-- Programs that ask
-- ---------------------------------------------------------------------------

namespace CopyM

variable {α β : Type} {x : CopyM α} {qs qs' : List Query}

/-- Asks for one thing. -/
def reply : Query → CopyM Reply
  | .point p => return .point p (← point p)
  | .parameter k => return .parameter k (← parameter k)

/-- Asks for one thing after the other. -/
def ask : List Query → CopyM (List Reply)
  | [] => return []
  | q :: qs => return (← reply q) :: (← ask qs)

/-- Asking for two rows of queries is asking for the one and then for the other. -/
theorem ask_append (qs qs' : List Query) :
    ask (qs ++ qs') = (do let replies ← ask qs; return replies ++ (← ask qs')) := by
  induction qs with
  | nil => simp [ask]
  | cons q qs ih => simp [ask, ih]

/-- The program does what asking for `qs` does, and gives a result exactly when all queries
are answered. If `A` holds of the replies then `F A` holds of the result. -/
structure Asks (x : CopyM α) (qs : List Query) (F : (Reply → Prop) → α → Prop) : Prop where
  answered : ∀ {s s' : Copying} {replies : List Reply}, outcome (ask qs) s = (.ok replies, s') →
    ∃ v, outcome x s = (.ok v, s') ∧ ∀ A : Reply → Prop, (∀ r ∈ replies, A r) → F A v
  faulty : ∀ {s s' : Copying} {e : Fault}, outcome (ask qs) s = (.error e, s') →
    outcome x s = (.error e, s')

variable {F : (Reply → Prop) → α → Prop} {H : (Reply → Prop) → β → Prop}

theorem Asks.pure {v : α} (h : ∀ A, F A v) : Asks (pure v) [] F where
  answered hRun := by
    obtain ⟨-, rfl⟩ := Prod.mk.inj hRun
    exact ⟨v, rfl, fun A _ => h A⟩
  faulty hRun := by cases (Prod.mk.inj hRun).1

/-- A program whose queries do not depend on earlier answers asks for one row after the other.
-/
theorem Asks.bind {k : α → CopyM β} {G : α → (Reply → Prop) → β → Prop} (hx : Asks x qs F)
    (hk : ∀ v, Asks (k v) qs' (G v)) (hBoth : ∀ A v r, F A v → G v A r → H A r) :
    Asks (x >>= k) (qs ++ qs') H where
  answered {s s' replies} hRun := by
    rw [ask_append] at hRun
    obtain ⟨first, u, hFirst, hRun⟩ := outcome_bind_eq_ok.mp hRun
    obtain ⟨rest, u', hRest, hRun⟩ := outcome_bind_eq_ok.mp hRun
    obtain ⟨hReplies, rfl⟩ := Prod.mk.inj hRun
    obtain ⟨v, hRunX, hF⟩ := hx.answered hFirst
    obtain ⟨r, hRunK, hG⟩ := (hk v).answered hRest
    refine ⟨r, (outcome_bind_ok hRunX).trans hRunK, fun A hA => ?_⟩
    rw [← Except.ok.inj hReplies, List.forall_mem_append] at hA
    exact hBoth A v r (hF A hA.1) (hG A hA.2)
  faulty {s s' e} hRun := by
    rw [ask_append] at hRun
    rcases hFirst : outcome (ask qs) s with ⟨e' | first, u⟩
    · -- the first row already fails
      rw [outcome_bind_error hFirst] at hRun
      exact outcome_bind_error (hx.faulty (hFirst.trans hRun))
    · -- the first row is answered, and the second one fails
      rw [outcome_bind_ok hFirst] at hRun
      obtain ⟨v, hRunX, -⟩ := hx.answered hFirst
      refine (outcome_bind_ok hRunX).trans ((hk v).faulty ?_)
      rcases hRest : outcome (ask qs') u with ⟨e' | rest, u'⟩
      · rwa [outcome_bind_error hRest] at hRun
      · rw [outcome_bind_ok hRest] at hRun
        cases (Prod.mk.inj hRun).1

theorem Asks.map {f : α → β} (hx : Asks x qs F) (hf : ∀ A v, F A v → H A (f v)) :
    Asks (do return f (← x)) qs H := by
  have hBind := hx.bind (G := fun v A r => F A v → H A r) (H := H)
    (fun v => .pure fun A => hf A v) fun A v r hF hG => hG hF
  rwa [List.append_nil] at hBind

/-- Two programs in a row, whose results are put together. -/
theorem Asks.seq {γ : Type} {y : CopyM γ} {f : α → γ → β} {G : (Reply → Prop) → γ → Prop}
    (hx : Asks x qs F) (hy : Asks y qs' G) (hf : ∀ A v w, F A v → G A w → H A (f v w)) :
    Asks (do let v ← x; return f v (← y)) (qs ++ qs') H :=
  hx.bind (G := fun v A r => F A v → H A r)
    (fun v => hy.map fun A w hG hF => hf A v w hF hG) fun _ _ _ hF hH => hH hF

/-- A program that asks for one thing. -/
theorem Asks.of_reply {q : Query} {f : α → Reply} (hReply : reply q = (do return f (← x)))
    (hF : ∀ A v, A (f v) → F A v) : Asks x [q] F where
  answered {s s' replies} hRun := by
    obtain ⟨r, u, hOne, hRun⟩ := outcome_bind_eq_ok.mp hRun
    rw [hReply] at hOne
    obtain ⟨v, u', hRunX, hOk⟩ := outcome_bind_eq_ok.mp hOne
    obtain ⟨hEq, rfl⟩ := Prod.mk.inj hOk
    obtain ⟨hReplies, rfl⟩ := Prod.mk.inj hRun
    refine ⟨v, hRunX, fun A hA => hF A v ?_⟩
    rw [Except.ok.inj hEq]
    exact hA r (Except.ok.inj hReplies ▸ List.mem_cons_self)
  faulty {s s' e} hRun := by
    rcases hRunX : outcome x s with ⟨e' | v, u⟩
    · have hReplied : outcome (reply q) s = (.error e', u) := by
        rw [hReply]
        exact outcome_bind_error hRunX
      rw [ask, outcome_bind_error hReplied] at hRun
      obtain ⟨hError, rfl⟩ := Prod.mk.inj hRun
      rw [Except.error.inj hError]
    · have hReplied : outcome (reply q) s = (.ok (f v), u) := by
        rw [hReply]
        exact outcome_bind_ok hRunX
      rw [ask, outcome_bind_ok hReplied] at hRun
      cases (Prod.mk.inj hRun).1

theorem asks_point (p : Point) : Asks (point p) [.point p] fun A q => A (.point p q) :=
  .of_reply (f := Reply.point p) rfl fun _ _ => id

theorem asks_parameter (k : Parameter) :
    Asks (parameter k) [.parameter k] fun A t => A (.parameter k t) :=
  .of_reply (f := Reply.parameter k) rfl fun _ _ => id

mutual

/-- A type is copied by asking for its points and parameters from left to right. -/
theorem asks_type : ∀ t : Ty, Asks (type t) t.queries fun A => t.Filled A
  | .point p => (asks_point p).map fun _ q hq => ⟨q, hq, rfl⟩
  | .con (.parameter k) _ _ => asks_parameter k
  | .con (.named _) children _ | .con .function children _ | .con .tuple children _
  | .con .block children _ | .con .intrinsic children _ | .con (.message _) children _ =>
    (asks_types children).map fun _ ts hts => ⟨ts, hts, rfl⟩

theorem asks_types : ∀ ts : List Ty,
    Asks (types ts) (Ty.queriesOfAll ts) fun A => Ty.FilledAll A ts
  | [] => .pure fun _ => rfl
  | t :: ts => (asks_type t).seq (asks_types ts) fun _ copy copies hCopy hCopies =>
      ⟨copy, copies, hCopy, hCopies, rfl⟩

end

/-- The parameters of a substitution are taken over as they are. -/
theorem asks_entries : ∀ l : List (Parameter × Ty),
    Asks (entries l) (l.flatMap fun entry => entry.2.queries) fun A =>
      l.Forall₂ fun x x' => x'.1 = x.1 ∧ x.2.Filled A x'.2
  | [] => .pure fun _ => .nil
  | (_, t) :: rest => (asks_type t).seq (asks_entries rest) fun _ _ _ hCopy hCopies =>
      .cons ⟨rfl, hCopy⟩ hCopies

theorem asks_substitution (s : Substitution) :
    Asks (substitution s) s.queries fun A => s.Filled A :=
  (asks_entries s.toList).map fun _ _ => Substitution.filled_ofList

theorem asks_ascription (x : Ascription) : Asks (ascription x) x.queries fun A => x.Filled A :=
  (asks_point x.node).seq (asks_type x.type) fun _ node type hNode hType =>
    ⟨node, type, hNode, hType, rfl⟩

theorem asks_bound (b : Bound) : Asks (bound b) b.queries fun A => b.Filled A :=
  (asks_point b.source).seq (asks_substitution b.args) fun _ source args hSource hArgs =>
    ⟨source, args, hSource, hArgs, rfl⟩

theorem asks_call (c : Call) : Asks (call c) c.queries fun A => c.Filled A :=
  (asks_point c.source).seq (asks_substitution c.args) fun _ source args hSource hArgs =>
    ⟨source, args, hSource, hArgs, rfl⟩

/-- One case per kind of constraint: each asks for what it mentions. -/
theorem asks_constraint : ∀ c : Constraint, Asks (constraint c) c.queries fun A => c.Filled A
  | .ascribe x => (asks_ascription x).map fun _ x' hx' => ⟨x', hx', rfl⟩
  | .call c => (asks_call c).map fun _ c' hc' => ⟨c', hc', rfl⟩
  | .require b => (asks_bound b).map fun _ b' hb' => ⟨b', hb', rfl⟩
  | .fallback x => (asks_ascription x).map fun _ x' hx' => ⟨x', hx', rfl⟩
  | .scoped _ => .pure fun _ => rfl

/-- **A definition is copied by asking for what its constraints mention**, and by filling in
the answers. -/
theorem asks_constraints : ∀ cs : List Constraint,
    Asks (constraints cs) (cs.flatMap Constraint.queries) fun A => Constraint.FilledAll A cs
  | [] => .pure fun _ => rfl
  | c :: cs => (asks_constraint c).seq (asks_constraints cs) fun _ copy rest hCopy hRest =>
      ⟨copy, rest, hCopy, hRest, rfl⟩

-- ---------------------------------------------------------------------------
-- What holds along a copy
-- ---------------------------------------------------------------------------

/-- What a result was made of. -/
theorem Asks.exists_replies (hx : Asks x qs F) {s s' : Copying} {v : α}
    (hRun : outcome x s = (.ok v, s')) :
    ∃ replies, outcome (ask qs) s = (.ok replies, s') ∧
      ∀ A : Reply → Prop, (∀ r ∈ replies, A r) → F A v := by
  rcases hAsk : outcome (ask qs) s with ⟨e | replies, u⟩
  · rw [hx.faulty hAsk] at hRun
    cases (Prod.mk.inj hRun).1
  · obtain ⟨v', hRun', hF⟩ := hx.answered hAsk
    obtain ⟨hSame, rfl⟩ := Prod.mk.inj (hRun'.symm.trans hRun)
    exact ⟨replies, rfl, Except.ok.inj hSame ▸ hF⟩

/-- Whatever was answered, a copy has the form of what it is a copy of. -/
theorem Asks.form (hx : Asks x qs F) {s s' : Copying} {v : α}
    (hRun : outcome x s = (.ok v, s')) : F (fun _ => True) v := by
  obtain ⟨replies, -, hF⟩ := hx.exists_replies hRun
  exact hF _ fun _ _ => trivial

/-- What is said of an answer, `A`, stays true while copying goes on, which is what `K` says
of two states. -/
structure Lasting (K : Copying → Copying → Prop) (A : Copying → Reply → Prop) : Prop where
  refl  : ∀ s, K s s
  trans : ∀ {s s' s''}, K s s' → K s' s'' → K s s''
  keeps : ∀ {s s' r}, K s s' → A s r → A s' r

section Lasting

variable {P : Query → Prop} {I : Copying → Prop} {K : Copying → Copying → Prop}
  {A : Copying → Reply → Prop} {s : Copying}

/-- The queries were answered: `I` still holds, and `A` holds of every reply. -/
structure Answered (I : Copying → Prop) (K : Copying → Copying → Prop)
    (A : Copying → Reply → Prop) (s : Copying) (qs : List Query) (replies : List Reply)
    (s' : Copying) : Prop where
  holds   : I s'
  kept    : K s s'
  queries : replies.map Reply.query = qs
  facts   : ∀ r ∈ replies, A s' r

theorem Answered.nil (hLasting : Lasting K A) (h : I s) : Answered I K A s [] [] s :=
  ⟨h, hLasting.refl s, rfl, fun _ hr => absurd hr List.not_mem_nil⟩

/-- What was answered first is still true after the later answers. -/
theorem Answered.cons (hLasting : Lasting K A) {s' s'' : Copying} {r : Reply}
    {replies : List Reply} (hKept : K s s') (hr : A s' r)
    (h : Answered I K A s' qs replies s'') :
    Answered I K A s (r.query :: qs) (r :: replies) s'' where
  holds := h.holds
  kept := hLasting.trans hKept h.kept
  queries := by rw [List.map_cons, h.queries]
  facts := List.forall_mem_cons.mpr ⟨hLasting.keeps h.kept hr, h.facts⟩

/-- Every query has its answer. -/
theorem Answered.exists_reply {replies : List Reply} {s' : Copying}
    (h : Answered I K A s qs replies s') : ∀ q ∈ qs, ∃ r, r.query = q ∧ A s' r := by
  intro q hq
  rw [← h.queries] at hq
  obtain ⟨r, hr, rfl⟩ := List.mem_map.mp hq
  exact ⟨r, rfl, h.facts r hr⟩

/-- **A course of copying**: `I` is kept by every query of which `P` holds, if it is answered,
and `A` holds of the answer from then on. -/
structure Course (P : Query → Prop) (I : Copying → Prop) (K : Copying → Copying → Prop)
    (A : Copying → Reply → Prop) : Prop extends Lasting K A where
  point : ∀ {p : Point} {s : Copying}, P (.point p) → I s →
    Yields (point p) s fun q s' => I s' ∧ K s s' ∧ A s' (.point p q)
  parameter : ∀ {k : Parameter} {s : Copying}, P (.parameter k) → I s →
    Yields (parameter k) s fun t s' => I s' ∧ K s s' ∧ A s' (.parameter k t)

/-- A course on which every query is answered. -/
structure SureCourse (P : Query → Prop) (I : Copying → Prop) (K : Copying → Copying → Prop)
    (A : Copying → Reply → Prop) : Prop extends Lasting K A where
  point : ∀ {p : Point} {s : Copying}, P (.point p) → I s →
    Attains (point p) s fun q s' => I s' ∧ K s s' ∧ A s' (.point p q)
  parameter : ∀ {k : Parameter} {s : Copying}, P (.parameter k) → I s →
    Attains (parameter k) s fun t s' => I s' ∧ K s s' ∧ A s' (.parameter k t)

/-- The run lemma of a course: what one answer gives, all answers give. -/
theorem Course.yields_ask (h : Course P I K A) : ∀ (qs : List Query) {s : Copying},
    (∀ q ∈ qs, P q) → I s → Yields (ask qs) s fun replies s' => Answered I K A s qs replies s'
  | [], s, _, hs => .pure (.nil h.toLasting hs)
  | q :: qs, s, hqs, hs => by
    obtain ⟨hq, hRest⟩ := List.forall_mem_cons.mp hqs
    have hReply : Yields (reply q) s fun r s' => r.query = q ∧ I s' ∧ K s s' ∧ A s' r := by
      cases q with
      | point p => exact (h.point hq hs).map fun _ _ hAnswer => ⟨rfl, hAnswer⟩
      | parameter k => exact (h.parameter hq hs).map fun _ _ hAnswer => ⟨rfl, hAnswer⟩
    -- what holds of the first reply lasts while the others are given
    refine hReply.bind ?_
    rintro r s' ⟨rfl, hs', hKept, hr⟩
    exact (h.yields_ask qs hRest hs').map fun _ _ hLater => .cons h.toLasting hKept hr hLater

/-- The same, with the answers being given. -/
theorem SureCourse.attains_ask (h : SureCourse P I K A) : ∀ (qs : List Query) {s : Copying},
    (∀ q ∈ qs, P q) → I s → Attains (ask qs) s fun replies s' => Answered I K A s qs replies s'
  | [], s, _, hs => .pure (.nil h.toLasting hs)
  | q :: qs, s, hqs, hs => by
    obtain ⟨hq, hRest⟩ := List.forall_mem_cons.mp hqs
    have hReply : Attains (reply q) s fun r s' => r.query = q ∧ I s' ∧ K s s' ∧ A s' r := by
      cases q with
      | point p => exact (h.point hq hs).map fun _ _ hAnswer => ⟨rfl, hAnswer⟩
      | parameter k => exact (h.parameter hq hs).map fun _ _ hAnswer => ⟨rfl, hAnswer⟩
    refine hReply.bind ?_
    rintro r s' ⟨rfl, hs', hKept, hr⟩
    exact (h.attains_ask qs hRest hs').map fun _ _ hLater => .cons h.toLasting hKept hr hLater

/-- **What holds of every answer holds of what a copy is filled with.** -/
theorem Asks.yields (hx : Asks x qs F) (h : Course P I K A) (hqs : ∀ q ∈ qs, P q) (hs : I s) :
    Yields x s fun v s' => I s' ∧ K s s' ∧ F (A s') v := by
  intro v s' hRun
  obtain ⟨replies, hAsk, hF⟩ := hx.exists_replies hRun
  have hAnswered := h.yields_ask qs hqs hs replies s' hAsk
  exact ⟨hAnswered.holds, hAnswered.kept, hF _ hAnswered.facts⟩

/-- **A copy is made if every query is answered.** -/
theorem Asks.attains (hx : Asks x qs F) (h : SureCourse P I K A) (hqs : ∀ q ∈ qs, P q)
    (hs : I s) : Attains x s fun v s' =>
      I s' ∧ K s s' ∧ (∀ q ∈ qs, ∃ r, r.query = q ∧ A s' r) ∧ F (A s') v := by
  obtain ⟨replies, s', hAsk, hAnswered⟩ := h.attains_ask qs hqs hs
  obtain ⟨v, hRun, hF⟩ := hx.answered hAsk
  exact ⟨v, s', hRun, hAnswered.holds, hAnswered.kept, hAnswered.exists_reply,
    hF _ hAnswered.facts⟩

end Lasting

end CopyM

end TraitInference
