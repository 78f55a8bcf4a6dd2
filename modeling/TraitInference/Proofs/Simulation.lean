import Mathlib.Logic.Relation
import TraitInference.Arena

/-!
# TraitInference — runs, and how two of them compare

Copying and solving are programs with a state that outlives errors. What is said
of one run is put together along the text of the program: `Yields` says what holds
if there is a result, and `Attains` says that there is one.

Two programs are compared by a **simulation**: from twin states, the second gives
the result of the first up to some map, and leaves a twin state. The first run may
be asked to stay **inside** some bound; as its state only grows, a run that ends
inside has been inside all the time.

* `Sim` — simulations. They are put together along the text of a program
  (`Sim.bind`, `Sim.map`, `Sim.mapM`).
* `Arena.Grown` — all that ever happens to an arena: points are copied, one after
  the other.
-/

namespace TraitInference

-- ---------------------------------------------------------------------------
-- Programs with a state that outlives errors
-- ---------------------------------------------------------------------------

section Outcome

variable {σ ε α β : Type}

/-- The result of a program and the state it leaves. Copying and solving are both
of this kind. -/
def outcome (x : ExceptT ε (StateM σ) α) (s : σ) : Except ε α × σ :=
  (ExceptT.run x).run s

@[simp]
theorem outcome_get (s : σ) : outcome (get : ExceptT ε (StateM σ) σ) s = (.ok s, s) :=
  rfl

/-- A program goes on from where its first part has left the state. -/
theorem outcome_bind_ok {x : ExceptT ε (StateM σ) α} {k : α → ExceptT ε (StateM σ) β} {s s' : σ}
    {a : α} (h : outcome x s = (.ok a, s')) : outcome (x >>= k) s = outcome (k a) s' := by
  have hRun : (ExceptT.run x).run s = (.ok a, s') := h
  show ((ExceptT.run x).run s |> fun (r, s') => (ExceptT.bindCont k r).run s') = _
  rw [hRun]
  rfl

/-- An error ends a program; the state is kept. -/
theorem outcome_bind_error {x : ExceptT ε (StateM σ) α} {k : α → ExceptT ε (StateM σ) β}
    {s s' : σ} {e : ε} (h : outcome x s = (.error e, s')) :
    outcome (x >>= k) s = (.error e, s') := by
  have hRun : (ExceptT.run x).run s = (.error e, s') := h
  show ((ExceptT.run x).run s |> fun (r, s') => (ExceptT.bindCont k r).run s') = _
  rw [hRun]
  rfl

/-- A program made of two gives a result exactly when both do. -/
theorem outcome_bind_eq_ok {x : ExceptT ε (StateM σ) α} {k : α → ExceptT ε (StateM σ) β}
    {s s'' : σ} {b : β} : outcome (x >>= k) s = (.ok b, s'') ↔
      ∃ a s', outcome x s = (.ok a, s') ∧ outcome (k a) s' = (.ok b, s'') := by
  rcases hFirst : outcome x s with ⟨_ | a, s'⟩
  · -- no result of the first part, so none at all
    rw [outcome_bind_error hFirst]
    simp
  · rw [outcome_bind_ok hFirst]
    constructor
    · intro hSecond
      exact ⟨a, s', rfl, hSecond⟩
    · rintro ⟨_, _, ⟨⟩, hSecond⟩
      exact hSecond

end Outcome

-- ---------------------------------------------------------------------------
-- Results of programs
-- ---------------------------------------------------------------------------

section Results

variable {σ ε α β : Type} {x : ExceptT ε (StateM σ) α} {s : σ}

/-- If the program gives a result, `Q` holds of it and of the state it leaves. -/
def Yields (x : ExceptT ε (StateM σ) α) (s : σ) (Q : α → σ → Prop) : Prop :=
  ∀ a s', outcome x s = (.ok a, s') → Q a s'

/-- Rules for `Yields` and `Attains`, one for each way to put programs together. -/
theorem Yields.pure {a : α} {Q : α → σ → Prop} (h : Q a s) :
    Yields (pure a : ExceptT ε (StateM σ) α) s Q := by
  intro b s' hRun
  obtain ⟨hOk, rfl⟩ := Prod.mk.inj hRun
  exact Except.ok.inj hOk ▸ h

/-- What the second part may assume is what the first one yields. -/
theorem Yields.bind {k : α → ExceptT ε (StateM σ) β} {P : α → σ → Prop} {Q : β → σ → Prop}
    (hx : Yields x s P) (hk : ∀ a s', P a s' → Yields (k a) s' Q) : Yields (x >>= k) s Q := by
  intro b s'' hRun
  obtain ⟨a, s', hFirst, hSecond⟩ := outcome_bind_eq_ok.mp hRun
  exact hk a s' (hx a s' hFirst) b s'' hSecond

theorem Yields.map {f : α → β} {P : α → σ → Prop} {Q : β → σ → Prop}
    (hx : Yields x s P) (hf : ∀ a s', P a s' → Q (f a) s') : Yields (do return f (← x)) s Q :=
  hx.bind fun a s' hP => .pure (hf a s' hP)

/-- The program gives a result, and `Q` holds of it and of the state it leaves. -/
def Attains (x : ExceptT ε (StateM σ) α) (s : σ) (Q : α → σ → Prop) : Prop :=
  ∃ a s', outcome x s = (.ok a, s') ∧ Q a s'

theorem Attains.pure {a : α} {Q : α → σ → Prop} (h : Q a s) :
    Attains (pure a : ExceptT ε (StateM σ) α) s Q :=
  ⟨a, s, rfl, h⟩

/-- A program gives one result. -/
theorem Attains.yields {Q : α → σ → Prop} (h : Attains x s Q) : Yields x s Q := by
  obtain ⟨a, s', hRun, hQ⟩ := h
  intro a' s'' hRun'
  obtain ⟨hSame, rfl⟩ := Prod.mk.inj (hRun.symm.trans hRun')
  exact Except.ok.inj hSame ▸ hQ

/-- Both parts have to give a result. -/
theorem Attains.bind {k : α → ExceptT ε (StateM σ) β} {P : α → σ → Prop} {Q : β → σ → Prop}
    (hx : Attains x s P) (hk : ∀ a s', P a s' → Attains (k a) s' Q) : Attains (x >>= k) s Q := by
  obtain ⟨a, s', hFirst, hP⟩ := hx
  obtain ⟨b, s'', hSecond, hQ⟩ := hk a s' hP
  exact ⟨b, s'', (outcome_bind_ok hFirst).trans hSecond, hQ⟩

theorem Attains.map {f : α → β} {P : α → σ → Prop} {Q : β → σ → Prop}
    (hx : Attains x s P) (hf : ∀ a s', P a s' → Q (f a) s') :
    Attains (do return f (← x)) s Q :=
  hx.bind fun a s' hP => .pure (hf a s' hP)

end Results

-- ---------------------------------------------------------------------------
-- Simulations
-- ---------------------------------------------------------------------------

/-- What two runs that are compared have in common. -/
structure Setting (σ : Type) where
  /-- How the state of the first run can change. -/
  grows : σ → σ → Prop
  grows_refl : ∀ s, grows s s
  grows_trans : ∀ {s s' s''}, grows s s' → grows s' s'' → grows s s''
  /-- How far the first run is followed. -/
  inside : σ → Prop
  inside_of_grows : ∀ {s s'}, grows s s' → inside s' → inside s
  /-- What holds between the states of the two runs. -/
  twin : σ → σ → Prop

section Sim

variable {σ ε α β γ δ : Type} {S : Setting σ}

/-- The program `x'` does in the second run what `x` does in the first, up to `f`. -/
structure Sim (S : Setting σ) (f : α → β) (x : ExceptT ε (StateM σ) α)
    (x' : ExceptT ε (StateM σ) β) : Prop where
  grows : ∀ s, S.grows s (outcome x s).2
  result : ∀ {s s'}, S.twin s s' → S.inside (outcome x s).2 →
    (outcome x' s').1 = (outcome x s).1.map f
  twin : ∀ {s s'}, S.twin s s' → S.inside (outcome x s).2 →
    S.twin (outcome x s).2 (outcome x' s').2

namespace Sim

variable {f : α → β} {g : γ → δ}

/-- Rules for `Sim`, one for each way to put programs together. -/
theorem pure (a : α) : Sim S f (pure a : ExceptT ε (StateM σ) α) (pure (f a)) where
  grows := S.grows_refl
  result _ _ := rfl
  twin h _ := h

theorem throw (e : ε) : Sim S f (throw e : ExceptT ε (StateM σ) α) (throw e) where
  grows := S.grows_refl
  result _ _ := rfl
  twin h _ := h

/-- Programs put together of parts that correspond correspond. -/
theorem bind {x : ExceptT ε (StateM σ) α} {x' : ExceptT ε (StateM σ) β}
    {k : α → ExceptT ε (StateM σ) γ} {k' : β → ExceptT ε (StateM σ) δ}
    (hx : Sim S f x x') (hk : ∀ a, Sim S g (k a) (k' (f a))) :
    Sim S g (x >>= k) (x' >>= k') := by
  -- the first part ends inside the bound, because what follows only grows
  have hCases : ∀ s, (∃ e, outcome x s = (.error e, (outcome x s).2) ∧
        outcome (x >>= k) s = (.error e, (outcome x s).2)) ∨
      ∃ a, outcome x s = (.ok a, (outcome x s).2) ∧
        outcome (x >>= k) s = outcome (k a) (outcome x s).2 := by
    intro s
    rcases hFirst : outcome x s with ⟨e | a, v⟩
    · exact .inl ⟨e, rfl, outcome_bind_error hFirst⟩
    · exact .inr ⟨a, rfl, outcome_bind_ok hFirst⟩
  have hGrows : ∀ s, S.grows (outcome x s).2 (outcome (x >>= k) s).2 := by
    intro s
    rcases hCases s with ⟨e, -, hBind⟩ | ⟨a, -, hBind⟩
    · rw [hBind]
      exact S.grows_refl _
    · rw [hBind]
      exact (hk a).grows _
  have hBoth : ∀ {s s'}, S.twin s s' → S.inside (outcome (x >>= k) s).2 →
      (outcome (x' >>= k') s').1 = (outcome (x >>= k) s).1.map g ∧
        S.twin (outcome (x >>= k) s).2 (outcome (x' >>= k') s').2 := by
    intro s s' hTwin hInside
    have hMiddle := S.inside_of_grows (hGrows s) hInside
    have hResult := hx.result hTwin hMiddle
    have hNext := hx.twin hTwin hMiddle
    -- an error of the first part ends both runs, with states that are twins
    rcases hCases s with ⟨e, hFirst, hBind⟩ | ⟨a, hFirst, hBind⟩
    · rw [hFirst] at hResult
      have hBind' : outcome (x' >>= k') s' = (.error e, (outcome x' s').2) :=
        outcome_bind_error (Prod.ext hResult rfl)
      rw [hBind, hBind']
      exact ⟨rfl, hNext⟩
    · rw [hFirst] at hResult
      have hBind' : outcome (x' >>= k') s' = outcome (k' (f a)) (outcome x' s').2 :=
        outcome_bind_ok (Prod.ext hResult rfl)
      rw [hBind] at hInside ⊢
      rw [hBind']
      exact ⟨(hk a).result hNext hInside, (hk a).twin hNext hInside⟩
  exact {
    grows := fun s => S.grows_trans (hx.grows s) (hGrows s)
    result := fun hTwin hInside => (hBoth hTwin hInside).1
    twin := fun hTwin hInside => (hBoth hTwin hInside).2 }

/-- A result that is passed on through functions that agree up to the renaming. -/
theorem map {x : ExceptT ε (StateM σ) α} {x' : ExceptT ε (StateM σ) β} {h : α → γ} {h' : β → δ}
    (hx : Sim S f x x') (hEq : ∀ a, h' (f a) = g (h a)) :
    Sim S g (do return h (← x)) (do return h' (← x')) := by
  refine hx.bind fun a => ?_
  rw [hEq a]
  exact .pure (h a)

/-- Item by item. -/
theorem mapM {k : α → ExceptT ε (StateM σ) γ} {k' : β → ExceptT ε (StateM σ) δ} (as : List α)
    (hk : ∀ a ∈ as, Sim S g (k a) (k' (f a))) :
    Sim S (List.map g) (as.mapM k) ((as.map f).mapM k') := by
  induction as with
  | nil => exact .pure []
  | cons a as ih =>
    rw [List.map_cons, List.mapM_cons, List.mapM_cons]
    refine (hk a List.mem_cons_self).bind fun c => ?_
    exact (ih fun b hb => hk b (List.mem_cons_of_mem a hb)).map fun cs => rfl

end Sim

end Sim

-- ---------------------------------------------------------------------------
-- Arenas that grow
-- ---------------------------------------------------------------------------

namespace Arena

/-- An arena holds the points that it has allocated. -/
def Holds (a : Arena) (p : Point) : Prop :=
  p.index < a.size

instance (a : Arena) (p : Point) : Decidable (a.Holds p) :=
  inferInstanceAs (Decidable (p.index < a.size))

/-- Only an allocated point has data. -/
theorem holds_of_site {a : Arena} {p : Point} {st : Site} (h : a.site p = .ok st) : a.Holds p := by
  unfold site at h
  split at h
  · rename_i hFound
    exact (Array.getElem?_eq_some_iff.mp hFound).1
  · cases h

/-- Every allocated point has data. -/
theorem exists_site {a : Arena} {p : Point} (hp : a.Holds p) : ∃ s, a.site p = .ok s := by
  have hSize : p.index < a.sites.size := hp
  exact ⟨a.sites[p.index], by simp [site, hSize]⟩

/-- One point was copied. -/
def Copies (a a' : Arena) : Prop :=
  ∃ template site p, a.copy template site = .ok (p, a')

/-- Some points were copied, one after the other. -/
def Grown : Arena → Arena → Prop :=
  Relation.ReflTransGen Copies

/-- What a copy is: it has the data of its template, and remembers template and call site. -/
theorem copy_eq_ok_iff {a a' : Arena} {template site p : Point} :
    a.copy template site = .ok (p, a') ↔
      ∃ s, a.site template = .ok s ∧
        (p, a') = a.alloc { s with copiedFrom := some template, copiedBy := some site } := by
  unfold copy
  cases hSite : a.site template with
  | error e => simp [Functor.map, Except.map]
  | ok s => simp [Functor.map, Except.map, eq_comm]

/-- A point cannot be copied exactly if it is not allocated. -/
theorem copy_eq_error_iff {a : Arena} {template site : Point} {e : Fault} :
    a.copy template site = .error e ↔ a.site template = .error e := by
  unfold copy
  cases hSite : a.site template with
  | error e => simp [Functor.map, Except.map]
  | ok s => simp [Functor.map, Except.map]

/-- A copy gets the next number. -/
theorem copy_fst {a a' : Arena} {template site p : Point}
    (h : a.copy template site = .ok (p, a')) : p = ⟨a.size⟩ := by
  obtain ⟨s, -, hAlloc⟩ := copy_eq_ok_iff.mp h
  exact (Prod.mk.inj hAlloc).1

/-- The data of a copy. -/
theorem site_of_copy {a a' : Arena} {template site p : Point} {st : Site}
    (hCopy : a.copy template site = .ok (p, a')) (h : a.site template = .ok st) :
    a'.site p = .ok { st with copiedFrom := some template, copiedBy := some site } := by
  obtain ⟨known, hKnown, hAlloc⟩ := copy_eq_ok_iff.mp hCopy
  obtain rfl := Except.ok.inj (hKnown.symm.trans h)
  have hNew := site_alloc_self a { known with copiedFrom := some template, copiedBy := some site }
  rw [← hAlloc] at hNew
  exact hNew

/-- Whether a point can be copied does not depend on whom the copy is for. -/
theorem exists_copy {a : Arena} {template : Point} {s : Site} (h : a.site template = .ok s)
    (site : Point) : ∃ a', a.copy template site = .ok (⟨a.size⟩, a') :=
  ⟨_, copy_eq_ok_iff.mpr ⟨s, h, rfl⟩⟩

/-- Copying a point allocates one. -/
theorem Copies.size {a a' : Arena} (h : Copies a a') : a'.size = a.size + 1 := by
  obtain ⟨template, site, p, hCopy⟩ := h
  obtain ⟨s, -, hAlloc⟩ := copy_eq_ok_iff.mp hCopy
  rw [(Prod.mk.inj hAlloc).2]
  exact size_alloc a _

/-- A copy is the only point that is new. -/
theorem eq_of_copy {a a' : Arena} {template site p q : Point}
    (hCopy : a.copy template site = .ok (p, a')) (hq : a'.Holds q) (hNew : ¬ a.Holds q) :
    q = p := by
  have hSize := Copies.size ⟨template, site, p, hCopy⟩
  have hLast : q.index < a'.size := hq
  have hFirst : ¬ q.index < a.size := hNew
  have hIndex : q.index = a.size := by omega
  rw [copy_fst hCopy, ← hIndex]

/-- Copying changes no point that was there. -/
theorem Copies.site_eq {a a' : Arena} (h : Copies a a') {p : Point} (hp : p.index < a.size) :
    a'.site p = a.site p := by
  obtain ⟨template, site, q, hCopy⟩ := h
  obtain ⟨s, -, hAlloc⟩ := copy_eq_ok_iff.mp hCopy
  rw [(Prod.mk.inj hAlloc).2]
  exact site_alloc_of_lt _ hp

/-- Arenas do not shrink. -/
theorem Grown.size_le {a a' : Arena} (h : Grown a a') : a.size ≤ a'.size := by
  induction h with
  | refl => exact Nat.le_refl _
  | tail _ hCopies ih =>
    have hSize := hCopies.size
    omega

/-- What was allocated stays allocated. -/
theorem Grown.holds {a a' : Arena} (h : Grown a a') (p : Point) (hp : a.Holds p) : a'.Holds p :=
  Nat.lt_of_lt_of_le hp h.size_le

/-- What was allocated stays as it was. -/
theorem Grown.site_eq {a a' : Arena} (h : Grown a a') {p : Point} (hp : p.index < a.size) :
    a'.site p = a.site p := by
  induction h with
  | refl => rfl
  | tail hGrown hCopies ih =>
    have hSize := Grown.size_le hGrown
    -- the last copy is behind `p`, like all copies before it
    rw [hCopies.site_eq (by omega), ih]

end Arena

end TraitInference
