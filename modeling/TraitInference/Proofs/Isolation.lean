import Mathlib.Data.List.Forall2
import TraitInference.Proofs.Equations
import TraitInference.Proofs.Support

/-!
# TraitInference — candidates are tried in isolation

All candidates for a bound share one arena, which grows with every trial, so what
a later trial allocates is numbered otherwise than if it were the only one. It
makes no other difference: whether a candidate fits is decided by trying it alone,
in the world as it was before the search, and the session in which the search ends
is, up to a renaming of the points it has allocated, the one that accepting the
winner of such a trial leads to (`execute_bound_eq_alone`).
-/

namespace TraitInference

-- ---------------------------------------------------------------------------
-- A run in a larger arena
-- ---------------------------------------------------------------------------

/-- Exchanges the `k` numbers from `n` on with the `d` numbers after them. -/
def exchange (n k d i : Nat) : Nat :=
  if i < n then i
  else if i < n + k then i + d
  else if i < n + k + d then i - k
  else i

/-- To exchange the two blocks again undoes it. -/
theorem exchange_exchange (n k d i : Nat) : exchange n d k (exchange n k d i) = i := by
  unfold exchange
  split_ifs <;> omega

/-- The points that a run allocates, `k` of them from `n` on, and their numbers in
an arena that has `d` points more. -/
def shift (n k d : Nat) : Equiv.Perm Point where
  toFun p := ⟨exchange n k d p.index⟩
  invFun p := ⟨exchange n d k p.index⟩
  left_inv p := congrArg Point.mk (exchange_exchange n k d p.index)
  right_inv p := congrArg Point.mk (exchange_exchange n d k p.index)

theorem shift_of_lt {n k d : Nat} {p : Point} (h : p.index < n) : shift n k d p = p := by
  show Point.mk (exchange n k d p.index) = p
  rw [exchange, if_pos h]

theorem shift_of_mem {n k d : Nat} {p : Point} (h : n ≤ p.index) (h' : p.index < n + k) :
    shift n k d p = ⟨p.index + d⟩ := by
  show Point.mk (exchange n k d p.index) = _
  rw [exchange, if_neg (by omega), if_pos h']

theorem shift_of_le {n k d : Nat} {p : Point} (h : n + k + d ≤ p.index) : shift n k d p = p := by
  show Point.mk (exchange n k d p.index) = p
  rw [exchange, if_neg (by omega), if_neg (by omega), if_neg (by omega)]

/-- The renaming that permutes points and keeps all templates. -/
def Renaming.ofPerm (ρ : Equiv.Perm Point) : Renaming where
  point := ρ

/-- An arena that holds some points compared with one that has `d` more, as long
as no more than `k` are allocated. -/
def Mirror.shift (n k d : Nat) : Mirror (.ofPerm (shift n k d)) where
  template p := p.index < n
  point_eq h := shift_of_lt h
  inside a := a.size ≤ n + k
  inside_of_copies hCopies hInside := by
    have hSize := hCopies.size
    omega
  twin a a' := n ≤ a.size ∧ a'.size = a.size + d ∧ ∀ p, p.index < n → a'.site p = a.site p
  site_eq hTwin hp := hTwin.2.2 _ hp
  copy_eq := by
    rintro a a' b p site q ⟨hLow, hSize, hSites⟩ hp hCopy hInside
    have hCopies : a.Copies b := ⟨p, site, q, hCopy⟩
    have hNext := hCopies.size
    obtain ⟨s, hSite, -⟩ := Arena.copy_eq_ok_iff.mp hCopy
    rw [← hSites p hp] at hSite
    obtain ⟨b', hCopy'⟩ := Arena.exists_copy hSite ((TraitInference.shift n k d) site)
    have hCopies' : a'.Copies b' := ⟨p, _, _, hCopy'⟩
    have hNext' := hCopies'.size
    -- the next point of the one arena and that of the other are `d` apart
    have hMoved : TraitInference.shift n k d ⟨a.size⟩ = ⟨a.size + d⟩ :=
      shift_of_mem hLow (by dsimp only; omega)
    refine ⟨b', ?_, by omega, by omega, ?_⟩
    · rw [Arena.copy_fst hCopy]
      show _ = Except.ok (TraitInference.shift n k d ⟨a.size⟩, b')
      rw [hMoved, ← hSize]
      exact hCopy'
    · intro p' hp'
      rw [hCopies.site_eq (by omega), hCopies'.site_eq (by omega), hSites p' hp']

/-- The permutation leaves alone all points but those from `low` up to `high`. -/
def MovesOnly (ρ : Equiv.Perm Point) (low high : Nat) : Prop :=
  ∀ p, ρ p ≠ p → low ≤ p.index ∧ p.index < high

theorem MovesOnly.mono {ρ : Equiv.Perm Point} {low high high' : Nat} (h : MovesOnly ρ low high)
    (hLe : high ≤ high') : MovesOnly ρ low high' := by
  intro p hp
  obtain ⟨hLow, hHigh⟩ := h p hp
  exact ⟨hLow, by omega⟩

/-- A permutation of points beyond the arena leaves alone what the arena holds. -/
theorem MovesOnly.fixes {ρ : Equiv.Perm Point} {a : Arena} {high : Nat}
    (h : MovesOnly ρ a.size high) : (Renaming.ofPerm ρ).Fixes a.Holds where
  point {p} hp := by
    by_contra hMoved
    have hLow := (h p hMoved).1
    have hHolds : p.index < a.size := hp
    omega
  template := rfl

/-- The shift moves the two blocks and nothing else. -/
theorem movesOnly_shift (n k d : Nat) : MovesOnly (shift n k d) n (n + k + d) := by
  intro p hMoved
  constructor
  · by_contra hLow
    exact hMoved (shift_of_lt (by omega))
  · by_contra hHigh
    exact hMoved (shift_of_le (by omega))

-- ---------------------------------------------------------------------------
-- Trials
-- ---------------------------------------------------------------------------

namespace Session

/-- The trial of an instance in a search under the given limits. -/
def trial (program : Program) (limits : Limits) (b : Bound) (s : Session) (tier : Tier)
    (i : Instance) : SolveM (Option Candidate) :=
  s.attempt limits.depth program (runBefore program limits.depth (some .bound) limits.steps) b
    tier i

/-- What trying an instance alone gives, in the world as it is. -/
def tryAlone (program : Program) (limits : Limits) (b : Bound) (s : Session) (w : World)
    (tier : Tier) (i : Instance) : Option Candidate :=
  match ((s.trial program limits b tier i).runIn w).1 with
  | .ok found => found
  | .error _ => none

/-- The candidates of a tier that fit, each tried alone. -/
def fitting (program : Program) (limits : Limits) (b : Bound) (s : Session) (w : World)
    (x : Tier × List Instance) : List Candidate :=
  x.2.filterMap (s.tryAlone program limits b w x.1)

/-- Every point that the search comes across at first is allocated. -/
structure Allocated (program : Program) (b : Bound) (s : Session) (a : Arena) : Prop where
  program : program.Over a.Holds a.Holds
  bound   : b.Over a.Holds a.Holds
  session : s.Over a.Holds

variable {program : Program} {limits : Limits} {b : Bound} {s : Session} {w w' : World}

/-- The instances that a tier offers for a bound: those that are assumed, the known ones that
are no defaults, or the known ones that are. -/
def Offers (program : Program) (b : Bound) (s : Session) (i : Instance) : Tier → Prop
  | .implied => i ∈ s.implied ∧ i.trait = b.trait
  | .ordinary => i ∈ program.instancesOf b.trait ∧ i.isDefault = false
  | .default => i ∈ program.instancesOf b.trait ∧ i.isDefault = true

/-- **Which instances are tried, and in which order**: what is assumed comes first, defaults
come last. -/
theorem tiers_spec (program : Program) (b : Bound) (s : Session) :
    (s.tiers program b).map Prod.fst = [.implied, .ordinary, .default] ∧
      ∀ x ∈ s.tiers program b, ∀ i, i ∈ x.2 ↔ s.Offers program b i x.1 := by
  refine ⟨rfl, fun x hx i => ?_⟩
  simp only [tiers, List.mem_cons, List.not_mem_nil, or_false] at hx
  rcases hx with rfl | rfl | rfl
  · simp [Offers, List.mem_filter]
  · simp [Offers, List.mem_filter]
  · simp [Offers, List.mem_filter]

/-- The candidates are made of allocated points, whichever tier they are from. -/
theorem Allocated.candidate (h : Allocated program b s w.arena) {x : Tier × List Instance}
    (hx : x ∈ s.tiers program b) {i : Instance} (hi : i ∈ x.2) :
    i.Over w.arena.Holds w.arena.Holds := by
  have hOffers := ((tiers_spec program b s).2 x hx i).mp hi
  cases hTier : x.1 with
  | implied =>
    rw [hTier] at hOffers
    exact h.session.implied i hOffers.1
  | ordinary | default =>
    rw [hTier] at hOffers
    exact h.program.instancesOf hOffers.1

/-- Trials in twin arenas correspond. -/
theorem sim_trial {φ : Renaming} (M : Mirror φ) (hOver : program.Over M.template M.template)
    (tier : Tier) {i : Instance} (hInstance : i.Over M.template M.template) :
    Sim M.solving (Option.map (Candidate.rename φ)) (s.trial program limits b tier i)
      ((s.rename φ).trial (program.rename φ) limits (b.rename φ) tier (i.rename φ)) :=
  sim_attempt M limits.depth hOver (sim_runBefore M limits.depth hOver limits.steps _) b
    (fun _ => hInstance) s

/-- **A trial that ends when made alone ends after other trials too, with the same
result up to the numbers of the points it allocates.** -/
theorem trial_of_grown (h : Allocated program b s w.arena) (hGrown : w.arena.Grown w'.arena)
    {x : Tier × List Instance} (hx : x ∈ s.tiers program b) {i : Instance} (hi : i ∈ x.2)
    {found : Option Candidate}
    (hAlone : ((s.trial program limits b x.1 i).runIn w).1 = .ok found) :
    w'.arena.Grown ((s.trial program limits b x.1 i).runIn w').2.arena ∧
      ∃ ρ, MovesOnly ρ w.arena.size ((s.trial program limits b x.1 i).runIn w').2.arena.size ∧
        ((s.trial program limits b x.1 i).runIn w').1 =
          .ok (found.map (Candidate.rename (.ofPerm ρ))) := by
  have hInstance := h.candidate hx hi
  -- how far the trial gets alone decides how many points are shifted
  let last := (outcome (s.trial program limits b x.1 i) w).2
  have hSize := hGrown.size_le
  let n := w.arena.size
  let k := last.arena.size - n
  let d := w'.arena.size - n
  let M := Mirror.shift n k d
  have hSim : Sim M.solving _ (s.trial program limits b x.1 i) _ :=
    sim_trial M h.program x.1 hInstance
  have hLast : w.arena.size ≤ last.arena.size := (hSim.grows w).size_le
  have hTwin : M.solving.twin w w' := by
    refine ⟨Nat.le_refl _, ?_, fun p hp => hGrown.site_eq hp⟩
    show w'.arena.size = w.arena.size + (w'.arena.size - w.arena.size)
    omega
  have hInside : M.solving.inside last := by
    show last.arena.size ≤ w.arena.size + (last.arena.size - w.arena.size)
    omega
  -- what is there before the trial is the same on both sides
  have hFixes : (Renaming.ofPerm (shift n k d)).Fixes w.arena.Holds :=
    (movesOnly_shift n k d).fixes
  have hResult := hSim.result hTwin hInside
  have hEnd := hSim.twin hTwin hInside
  rw [Session.rename_eq_self hFixes h.session, Program.rename_eq_self hFixes h.program,
    Bound.rename_eq_self hFixes h.bound, Instance.rename_eq_self hFixes hInstance]
    at hResult hEnd
  have hSame : (outcome (s.trial program limits b x.1 i) w).1 = .ok found := hAlone
  rw [hSame] at hResult
  refine ⟨hSim.grows w', shift n k d, ?_, hResult⟩
  have hFinal : ((s.trial program limits b x.1 i).runIn w').2.arena.size = last.arena.size + d :=
    hEnd.2.1
  refine (movesOnly_shift n k d).mono ?_
  rw [hFinal]
  show w.arena.size + (last.arena.size - w.arena.size) + d ≤ last.arena.size + d
  omega

/-- A candidate that differs from `c` in the points allocated since `w` only. -/
def Variant (w : World) (high : Nat) (c c' : Candidate) : Prop :=
  ∃ ρ, MovesOnly ρ w.arena.size high ∧ c' = c.rename (.ofPerm ρ)

/-- The trials of a tier, one after the other: the candidates that fit are those
that fit alone. -/
theorem trials_of_grown (h : Allocated program b s w.arena) {x : Tier × List Instance}
    (hx : x ∈ s.tiers program b)
    (hEnds : ∀ i ∈ x.2, ∃ found, ((s.trial program limits b x.1 i).runIn w).1 = .ok found)
    (instances : List Instance) (hAll : ∀ i ∈ instances, i ∈ x.2) {w' : World}
    (hGrown : w.arena.Grown w'.arena) :
    ∃ results w'', (instances.mapM (s.trial program limits b x.1)).runIn w' =
        (.ok results, w'') ∧ w'.arena.Grown w''.arena ∧
      List.Forall₂ (Variant w w''.arena.size)
        (instances.filterMap (s.tryAlone program limits b w x.1)) results.reduceOption := by
  induction instances generalizing w' with
  | nil => exact ⟨[], w', rfl, .refl, .nil⟩
  | cons i instances ih =>
    obtain ⟨found, hAlone⟩ := hEnds i (hAll i List.mem_cons_self)
    obtain ⟨hGrows, ρ, hMoves, hResult⟩ :=
      trial_of_grown h hGrown hx (hAll i List.mem_cons_self) hAlone
    have hTried : s.tryAlone program limits b w x.1 i = found := by
      rw [tryAlone, hAlone]
    have hFirst : outcome (s.trial program limits b x.1 i) w' =
        (.ok (found.map (Candidate.rename (.ofPerm ρ))),
          ((s.trial program limits b x.1 i).runIn w').2) := Prod.ext hResult rfl
    -- the other trials are made in the arena that this one has left
    obtain ⟨results, w'', hRest, hLast, hFits⟩ :=
      ih (fun j hj => hAll j (List.mem_cons_of_mem i hj)) (hGrown.trans hGrows)
    refine ⟨found.map (Candidate.rename (.ofPerm ρ)) :: results, w'', ?_, hGrows.trans hLast, ?_⟩
    · rw [List.mapM_cons]
      exact (outcome_bind_ok hFirst).trans (outcome_bind_ok hRest)
    · rw [List.filterMap_cons, hTried]
      cases found with
      | none => exact hFits
      | some c => exact .cons ⟨ρ, hMoves.mono hLast.size_le, rfl⟩ hFits

/-- One tier of a search: if it has exactly one candidate that fits, the search
ends with it, and otherwise goes on. -/
theorem firstUnique_cons (h : Allocated program b s w.arena) {x : Tier × List Instance}
    (hx : x ∈ s.tiers program b)
    (hEnds : ∀ i ∈ x.2, ∃ found, ((s.trial program limits b x.1 i).runIn w).1 = .ok found)
    (rest : List (Tier × List Instance)) {w' : World} (hGrown : w.arena.Grown w'.arena) :
    ∃ w'', w'.arena.Grown w''.arena ∧
      ((s.fitting program limits b w x).length ≠ 1 →
        (firstUnique (s.trial program limits b) (x :: rest)).runIn w' =
          (firstUnique (s.trial program limits b) rest).runIn w'') ∧
      ∀ c, s.fitting program limits b w x = [c] →
        ∃ c', Variant w w''.arena.size c c' ∧
          (firstUnique (s.trial program limits b) (x :: rest)).runIn w' =
            (.ok (some (x.1, c')), w'') := by
  obtain ⟨results, v, hTrials, hGrows, hFits⟩ :=
    trials_of_grown h hx hEnds x.2 (fun i hi => hi) hGrown
  have hLength : (s.fitting program limits b w x).length = results.reduceOption.length :=
    hFits.length_eq
  have hRun : (firstUnique (s.trial program limits b) (x :: rest)).runIn w' = _ :=
    outcome_bind_ok hTrials
  refine ⟨{ v with log := .event (.tried x.1 results.reduceOption.length) v.arena.size :: v.log },
    hGrows, ?_, ?_⟩
  · -- as many candidates fit one after the other as fit alone, and the search looks at their
    -- number
    intro hMany
    rw [hLength] at hMany
    rw [hRun]
    dsimp only
    generalize results.reduceOption = fitting at hMany
    rcases fitting with _ | ⟨c, _ | ⟨d, others⟩⟩
    · rfl
    · exact absurd rfl hMany
    · rfl
  · intro c hOne
    rw [show (x.2.filterMap (s.tryAlone program limits b w x.1)) = [c] from hOne] at hFits
    obtain ⟨c', others, hVariant, hNil, hReduced⟩ := List.forall₂_cons_left_iff.mp hFits
    obtain rfl := List.forall₂_nil_left_iff.mp hNil
    refine ⟨c', hVariant, ?_⟩
    rw [hRun]
    dsimp only
    rw [hReduced]
    rfl

/-- A search ends with the candidate of the first tier that has exactly one. -/
theorem firstUnique_found (h : Allocated program b s w.arena)
    {before after : List (Tier × List Instance)} {x : Tier × List Instance} {c : Candidate}
    (hTiers : ∀ y ∈ before ++ x :: after, y ∈ s.tiers program b)
    (hEnds : ∀ y ∈ s.tiers program b, ∀ i ∈ y.2, ∃ found,
      ((s.trial program limits b y.1 i).runIn w).1 = .ok found)
    (hBefore : ∀ y ∈ before, (s.fitting program limits b w y).length ≠ 1)
    (hOne : s.fitting program limits b w x = [c]) {w' : World}
    (hGrown : w.arena.Grown w'.arena) :
    ∃ c' w'', Variant w w''.arena.size c c' ∧ w'.arena.Grown w''.arena ∧
      (firstUnique (s.trial program limits b) (before ++ x :: after)).runIn w' =
        (.ok (some (x.1, c')), w'') := by
  induction before generalizing w' with
  | nil =>
    have hx := hTiers x List.mem_cons_self
    obtain ⟨w'', hGrows, -, hFound⟩ := firstUnique_cons h hx (hEnds x hx) after hGrown
    obtain ⟨c', hVariant, hRun⟩ := hFound c hOne
    exact ⟨c', w'', hVariant, hGrows, hRun⟩
  -- a tier without exactly one candidate is passed over, and leaves its copies behind
  | cons y before ih =>
    have hy := hTiers y List.mem_cons_self
    obtain ⟨v, hGrows, hSkipped, -⟩ :=
      firstUnique_cons h hy (hEnds y hy) (before ++ x :: after) hGrown
    obtain ⟨c', w'', hVariant, hLater, hRun⟩ :=
      ih (fun z hz => hTiers z (List.mem_cons_of_mem y hz))
        (fun z hz => hBefore z (List.mem_cons_of_mem y hz)) (hGrown.trans hGrows)
    refine ⟨c', w'', hVariant, hGrows.trans hLater, ?_⟩
    exact (hSkipped (hBefore y List.mem_cons_self)).trans hRun

/-- Without such a tier it finds nothing. -/
theorem firstUnique_none (h : Allocated program b s w.arena)
    (hEnds : ∀ y ∈ s.tiers program b, ∀ i ∈ y.2, ∃ found,
      ((s.trial program limits b y.1 i).runIn w).1 = .ok found)
    (tiers : List (Tier × List Instance)) (hTiers : ∀ y ∈ tiers, y ∈ s.tiers program b)
    (hMany : ∀ y ∈ tiers, (s.fitting program limits b w y).length ≠ 1) {w' : World}
    (hGrown : w.arena.Grown w'.arena) :
    ∃ w'', (firstUnique (s.trial program limits b) tiers).runIn w' = (.ok none, w'') := by
  induction tiers generalizing w' with
  | nil => exact ⟨w', rfl⟩
  | cons y tiers ih =>
    have hy := hTiers y List.mem_cons_self
    obtain ⟨v, hGrows, hSkipped, -⟩ := firstUnique_cons h hy (hEnds y hy) tiers hGrown
    obtain ⟨w'', hRun⟩ := ih (fun z hz => hTiers z (List.mem_cons_of_mem y hz))
      (fun z hz => hMany z (List.mem_cons_of_mem y hz)) (hGrown.trans hGrows)
    exact ⟨w'', (hSkipped (hMany y List.mem_cons_self)).trans hRun⟩

-- ---------------------------------------------------------------------------
-- The search
-- ---------------------------------------------------------------------------

/-- Where nothing is copied, the arena does not matter. -/
def anyArena (φ : Renaming) : Mirror φ where
  template _ := False
  point_eq h := h.elim
  inside _ := True
  inside_of_copies _ _ := trivial
  twin _ _ := True
  site_eq _ h := h.elim
  copy_eq _ h := h.elim

/-- What accepting a candidate leads to depends on the candidate alone. -/
theorem accept_variant (h : Allocated program b s w.arena) {tier : Tier} {c c' : Candidate}
    {high : Nat} {ρ : Equiv.Perm Point} (hMoves : MovesOnly ρ w.arena.size high)
    (hVariant : c' = c.rename (.ofPerm ρ)) (w' : World) :
    ((s.accept limits.depth b tier c').runIn w').1 =
      ((s.accept limits.depth b tier c).runIn w).1.map (rename (.ofPerm ρ)) := by
  have hSim := sim_accept (anyArena (.ofPerm ρ)) limits.depth b tier c s
  have hFixes := hMoves.fixes
  rw [Session.rename_eq_self hFixes h.session, Bound.rename_eq_self hFixes h.bound,
    ← hVariant] at hSim
  exact hSim.result trivial trivial

/-- Working off a bound that is not skipped: what the search finds decides how it
goes on. -/
theorem execute_bound_cases (hOwn : (b.source == b.trait && !b.copied) = false)
    (hHypothesis : b.isHypothesis = false) :
    ∃ w' : World, w'.arena = w.arena ∧
      (∀ v, (firstUnique (s.trial program limits b) (s.tiers program b)).runIn w' =
          (.ok none, v) →
        ((s.execute program limits (.require b)).runIn w).1 =
          .ok (s.close b (some .unresolved))) ∧
      ∀ tier c v, (firstUnique (s.trial program limits b) (s.tiers program b)).runIn w' =
          (.ok (some (tier, c)), v) →
        ((s.execute program limits (.require b)).runIn w).1 =
            ((s.accept limits.depth b tier c).runIn v).1 ∧
          v.arena.Grown ((s.execute program limits (.require b)).runIn w).2.arena := by
  -- a bound that is not skipped is sought, within its span
  have hExecute : s.execute program limits (.require b) = SolveM.within (.bound b.source)
      (s.seek limits.depth program
        (runBefore program limits.depth (some .bound) limits.steps) b) := by
    show s.resolve limits.depth program _ b = _
    unfold resolve
    rw [hOwn, hHypothesis]
    rfl
  have hRun := within_runIn (.bound b.source) (s.seek limits.depth program
    (runBefore program limits.depth (some .bound) limits.steps) b) w
  rw [← hExecute] at hRun
  let w' : World := { w with
    log := .event (.seek b) w.arena.size :: .enter (.bound b.source) :: w.log }
  refine ⟨w', rfl, ?_, ?_⟩
  · intro v hNone
    have hSeek : (s.seek limits.depth program
        (runBefore program limits.depth (some .bound) limits.steps) b).runIn
          { w with log := .enter (.bound b.source) :: w.log } =
        outcome (do
          SolveM.emit .unresolved
          return s.close b (some .unresolved)) v := outcome_bind_ok hNone
    rw [hRun.1, hSeek]
    rfl
  · -- accepting copies nothing, so the arena is that of the search
    intro tier c v hSome
    have hSeek : (s.seek limits.depth program
        (runBefore program limits.depth (some .bound) limits.steps) b).runIn
          { w with log := .enter (.bound b.source) :: w.log } =
        outcome (s.accept limits.depth b tier c) v := outcome_bind_ok hSome
    have hGrows := (sim_accept (anyArena (.ofPerm (.refl _))) limits.depth b tier c s).grows v
    rw [hRun.1, hRun.2, hSeek]
    exact ⟨rfl, hGrows⟩

/-- **What is kept of a bound that was worked off**: its types, behind those of the bounds
before it, and what became of it, if that is to be recorded, with their place. -/
theorem close_eq (b : Bound) (outcome : Option Outcome) (s : Session) :
    s.close b outcome =
      { s with
        unification := { s.unification with deferred := s.unification.deferred ++ [b.args] }
        resolutions := s.resolutions ++
          (outcome.map fun o => ⟨b, s.unification.deferred.length, o⟩).toList } :=
  rfl

/--
**Resolving a bound is testing each candidate in isolation.** Let a bound be worked
off that is not skipped, with all points allocated, and let every trial of a
candidate, made alone in the world as it is, end.

* If `tier` is the first tier in which exactly one candidate fits when each is tried
  alone, and `c` is that candidate, the result is that of committing the fork of `c`
  and adopting what it has found, up to a permutation of the points allocated by the
  search.
* If there is no such tier, the bound is recorded as unresolved and nothing else
  changes.

Which instances make up the tiers, and which tier is the first, is said by `tiers_spec`; what
is recorded of a bound, by `close_eq`.
-/
theorem execute_bound_eq_alone (hOwn : (b.source == b.trait && !b.copied) = false)
    (hHypothesis : b.isHypothesis = false) (hAllocated : Allocated program b s w.arena)
    (hEnds : ∀ x ∈ s.tiers program b, ∀ i ∈ x.2, ∃ found,
      ((s.trial program limits b x.1 i).runIn w).1 = .ok found) :
    (∀ before tier instances after c,
      s.tiers program b = before ++ (tier, instances) :: after →
      (∀ x ∈ before, (s.fitting program limits b w x).length ≠ 1) →
      s.fitting program limits b w (tier, instances) = [c] →
      ∃ ρ : Equiv.Perm Point,
        MovesOnly ρ w.arena.size
          ((s.execute program limits (.require b)).runIn w).2.arena.size ∧
        ((s.execute program limits (.require b)).runIn w).1 =
          ((s.accept limits.depth b tier c).runIn w).1.map (rename (.ofPerm ρ))) ∧
    ((∀ x ∈ s.tiers program b, (s.fitting program limits b w x).length ≠ 1) →
      ((s.execute program limits (.require b)).runIn w).1 =
        .ok (s.close b (some .unresolved))) := by
  obtain ⟨w', hArena, hNone, hSome⟩ := execute_bound_cases hOwn hHypothesis
  have hGrown : w.arena.Grown w'.arena := by
    rw [hArena]
    exact .refl
  constructor
  · intro before tier instances after c hTiers hBefore hOne
    obtain ⟨c', v, ⟨ρ, hMoves, hVariant⟩, -, hRun⟩ :=
      firstUnique_found hAllocated (fun y hy => hTiers ▸ hy) hEnds hBefore hOne hGrown
    rw [← hTiers] at hRun
    obtain ⟨hResult, hGrows⟩ := hSome tier c' v hRun
    refine ⟨ρ, hMoves.mono hGrows.size_le, ?_⟩
    rw [hResult]
    exact accept_variant hAllocated hMoves hVariant v
  · intro hMany
    obtain ⟨v, hRun⟩ := firstUnique_none hAllocated hEnds _ (fun y hy => hy) hMany hGrown
    exact hNone v hRun

-- Two instances of the trait at point 0, the first of which does not fit: its trial
-- takes the next number for the copy of its own point 3, so that the copy of point 4,
-- which the second one makes, is numbered otherwise than if it were alone.

/-- The parameter of the trait at point 0. -/
def wanted : Parameter :=
  ⟨0, "wanted", ⟨0⟩, false⟩

/-- An instance for tuples and one for blocks. -/
def rivals : List Instance :=
  [⟨⟨1⟩, ⟨0⟩, (∅ : Substitution).insert wanted (.con .tuple [.point ⟨3⟩] none), false, false⟩,
    ⟨⟨2⟩, ⟨0⟩, (∅ : Substitution).insert wanted (.con .block [.point ⟨4⟩] none), false, false⟩]

def rivalry : Program where
  instances := (∅ : PointMap (List Instance)).insert ⟨0⟩ rivals

/-- Asks for the trait of a block. -/
def blockWanted : Bound :=
  ⟨⟨6⟩, ⟨0⟩, (∅ : Substitution).insert wanted (.con .block [.point ⟨5⟩] none), false, false⟩

/-- Seven points, of which the fourth and the fifth belong to the two instances. -/
def beforeRivalry : World where
  arena := ⟨([none, none, none, some ⟨1⟩, some ⟨2⟩, none, none].map fun owner =>
    { span := ⟨0, 0⟩, source := "", owner }).toArray⟩

theorem over_child {T : Point → Prop} {q : Parameter} {tag : Tag} {p : Point} (hTag : tag.Over T)
    (hp : T p) :
    Substitution.Over T T ((∅ : Substitution).insert q (.con tag [.point p] none)) := by
  intro q' t' hFound
  rw [Std.ExtTreeMap.getElem?_insert] at hFound
  split at hFound
  · obtain rfl := Option.some.inj hFound
    exact ⟨hTag, hp, trivial⟩
  · simp at hFound

theorem allocated_rivalry : Allocated rivalry blockWanted {} beforeRivalry.arena where
  program := by
    refine ⟨by simp [rivalry], by simp [rivalry], fun trait is hFound => ?_⟩
    rw [rivalry, PointMap.getElem?_insert] at hFound
    split at hFound
    · obtain rfl := Option.some.inj hFound
      rename_i hTrait
      have hHolds : beforeRivalry.arena.Holds ⟨0⟩ := by decide
      refine ⟨hTrait ▸ hHolds, fun i hi => ?_⟩
      simp only [rivals, List.mem_cons, List.not_mem_nil, or_false] at hi
      rcases hi with rfl | rfl
      · exact ⟨hHolds, over_child trivial (by decide)⟩
      · exact ⟨hHolds, over_child trivial (by decide)⟩
    · simp at hFound
  bound := ⟨by decide, by decide, over_child trivial (by decide)⟩
  session := by
    refine ⟨⟨?_, ?_, ?_, ?_⟩, ?_, ?_, ?_⟩
    · simp
    · simp
    · simp
    · simp
    · intro c hc
      cases hc
    · simp
    · simp

theorem execute_bound_eq_alone_rivalry :
    ∃ c ρ, fitting rivalry ⟨1, 3⟩ blockWanted {} beforeRivalry (.ordinary, rivals) = [c] ∧
      MovesOnly ρ 7 9 ∧
      ((execute rivalry ⟨1, 3⟩ (.require blockWanted) {}).runIn beforeRivalry).1 =
        ((accept 3 blockWanted .ordinary c {}).runIn beforeRivalry).1.map
          (rename (.ofPerm ρ)) := by
  have hEnds : ∀ x ∈ tiers rivalry blockWanted {}, ∀ i ∈ x.2, ∃ found,
      ((trial rivalry ⟨1, 3⟩ blockWanted {} x.1 i).runIn beforeRivalry).1 = .ok found := by
    have hAll : (tiers rivalry blockWanted {}).all (fun x => x.2.all fun i =>
        ((trial rivalry ⟨1, 3⟩ blockWanted {} x.1 i).runIn beforeRivalry).1.isOk) = true := by
      decide +kernel
    intro x hx i hi
    have hOk := List.all_eq_true.mp (List.all_eq_true.mp hAll x hx) i hi
    cases hRun : ((trial rivalry ⟨1, 3⟩ blockWanted {} x.1 i).runIn beforeRivalry).1 with
    | ok found => exact ⟨found, rfl⟩
    | error e =>
      rw [hRun] at hOk
      cases hOk
  have hOne : (fitting rivalry ⟨1, 3⟩ blockWanted {} beforeRivalry (.ordinary, rivals)).length =
      1 := by decide +kernel
  obtain ⟨c, hFits⟩ := List.length_eq_one_iff.mp hOne
  have hTiers : tiers rivalry blockWanted {} =
      [(.implied, [])] ++ (.ordinary, rivals) :: [(.default, [])] := rfl
  obtain ⟨ρ, hMoves, hResult⟩ :=
    (execute_bound_eq_alone (by decide) (by decide) allocated_rivalry hEnds).1
      [(.implied, [])] .ordinary rivals [(.default, [])] c hTiers
      (by intro x hx; simp only [List.mem_singleton] at hx; rw [hx]; decide) hFits
  have hLow : beforeRivalry.arena.size = 7 := rfl
  have hHigh : ((execute rivalry ⟨1, 3⟩ (.require blockWanted) {}).runIn
      beforeRivalry).2.arena.size = 9 := by decide +kernel
  rw [hLow, hHigh] at hMoves
  exact ⟨c, ρ, hFits, hMoves, hResult⟩

end Session

end TraitInference
