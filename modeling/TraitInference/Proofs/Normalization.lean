import TraitInference.Proofs.Locality
import TraitInference.Proofs.Termination

/-!
# TraitInference — reading types off a state

The normal form of a type is computed within two bounds: one on how far a climb to a
representative may go, one on how many classes are unfolded inside each other. `Reads` is
the same reading of a type without any bound. A derivation of `u.Reads [] t t'` is a
reading of `t` that comes to an end, and `t'` is what it gives.

All that is asked of the state is that every climb ends. Its types may be recursive, and
its classes may have several types.

* `reads_iff` — **every reading comes to an end**, and what it gives is the normal form.
  The classes that are left folded are what bounds it (`reads_expand`).
* `Reads.free_of_mem` — on an acyclic state no class is left folded that has types, so the
  points that are left stand for unknown types.
* `apply_normal_form` — besides, a type and its normal form have one value in every
  solution, and on an acyclic state a normal form is read as itself.
-/

namespace TraitInference.Unification

variable {u : Unification}

-- ---------------------------------------------------------------------------
-- Readings
-- ---------------------------------------------------------------------------

mutual

/-- The type `t` reads as `t'`, with the classes in `visiting` left folded: a point gives way
to the root of its class, and that to the first type of the class, which is read with this
class left folded as well. -/
inductive Reads (u : Unification) : List Point → Ty → Ty → Prop
  | folded {visiting : List Point} {n : Nat} {p r : Point}
      (hClimb : UnionFind.Climbs u.classes.parents n p r) (hFolded : r ∈ visiting) :
      Reads u visiting (.point p) (.point r)
  | free {visiting : List Point} {n : Nat} {p r : Point}
      (hClimb : UnionFind.Climbs u.classes.parents n p r) (hNew : r ∉ visiting)
      (hOpen : u.typesAt r = []) : Reads u visiting (.point p) (.point r)
  | first {visiting : List Point} {n : Nat} {p r : Point} {t t' : Ty}
      (hClimb : UnionFind.Climbs u.classes.parents n p r) (hNew : r ∉ visiting)
      (hHead : (u.typesAt r).head? = some t) (hRest : Reads u (r :: visiting) t t') :
      Reads u visiting (.point p) t'
  | con {visiting : List Point} {tag : Tag} {children children' : List Ty}
      {emit : Option String} (hChildren : ReadsAll u visiting children children') :
      Reads u visiting (.con tag children emit) (.con tag children' emit)

/-- The types read as the other types, one by one. -/
inductive ReadsAll (u : Unification) : List Point → List Ty → List Ty → Prop
  | nil {visiting : List Point} : ReadsAll u visiting [] []
  | cons {visiting : List Point} {t t' : Ty} {ts ts' : List Ty} (hType : Reads u visiting t t')
      (hTypes : ReadsAll u visiting ts ts') : ReadsAll u visiting (t :: ts) (t' :: ts')

end

mutual

/-- There is one way to read a type. -/
theorem Reads.unique {visiting : List Point} {t t₁ t₂ : Ty} :
    u.Reads visiting t t₁ → u.Reads visiting t t₂ → t₁ = t₂
  | .folded hClimb hFolded, h₂ => by
    cases h₂ with
    | folded hClimb' _ => rw [(hClimb.unique hClimb').2]
    | free hClimb' _ _ => rw [(hClimb.unique hClimb').2]
    | first hClimb' hNew' _ _ => exact absurd ((hClimb.unique hClimb').2 ▸ hFolded) hNew'
  | .free hClimb hNew hOpen, h₂ => by
    cases h₂ with
    | folded hClimb' _ => rw [(hClimb.unique hClimb').2]
    | free hClimb' _ _ => rw [(hClimb.unique hClimb').2]
    | first hClimb' _ hHead' _ =>
      obtain rfl := (hClimb.unique hClimb').2
      simp [hOpen] at hHead'
  | .first hClimb hNew hHead hRest, h₂ => by
    cases h₂ with
    | folded hClimb' hFolded' => exact absurd ((hClimb.unique hClimb').2 ▸ hFolded') hNew
    | free hClimb' _ hOpen' =>
      obtain rfl := (hClimb.unique hClimb').2
      simp [hOpen'] at hHead
    | first hClimb' _ hHead' hRest' =>
      obtain rfl := (hClimb.unique hClimb').2
      obtain rfl := Option.some.inj (hHead.symm.trans hHead')
      exact hRest.unique hRest'
  | .con hChildren, .con hChildren' => by rw [hChildren.unique hChildren']

theorem ReadsAll.unique {visiting : List Point} {ts ts₁ ts₂ : List Ty} :
    u.ReadsAll visiting ts ts₁ → u.ReadsAll visiting ts ts₂ → ts₁ = ts₂
  | .nil, .nil => rfl
  | .cons hType hTypes, .cons hType' hTypes' => by
    rw [hType.unique hType', hTypes.unique hTypes']

end

-- ---------------------------------------------------------------------------
-- Every reading ends
-- ---------------------------------------------------------------------------

mutual

/-- A type is read by reading its points. -/
theorem reads_bind {visiting : List Point} {f : Point → Ty} : ∀ t : Ty,
    (∀ p ∈ t.points, u.Reads visiting (.point p) (f p)) → u.Reads visiting t (t.bind f)
  | .point p, h => h p List.mem_cons_self
  | .con _ children _, h => .con (readsAll_bindAll children h)

theorem readsAll_bindAll {visiting : List Point} {f : Point → Ty} : ∀ ts : List Ty,
    (∀ p ∈ Ty.pointsOfAll ts, u.Reads visiting (.point p) (f p)) →
      u.ReadsAll visiting ts (Ty.bindAll f ts)
  | [], _ => .nil
  | t :: ts, h => .cons (reads_bind t fun p hp => h p (List.mem_append_left _ hp))
      (readsAll_bindAll ts fun p hp => h p (List.mem_append_right _ hp))

end

/-- **Reading a point ends**, at the latest when every typed class is left folded. -/
theorem reads_expand (hEnds : ∀ p, ∃ n r, UnionFind.Climbs u.classes.parents n p r) {fuel : Nat}
    {visiting : List Point} (hFuel : (u.folded visiting).length ≤ fuel) (p : Point) :
    u.Reads visiting (.point p) (u.expand fuel visiting p) := by
  induction fuel generalizing visiting p with
  | zero =>
    obtain ⟨n, r, hClimb⟩ := hEnds p
    have hRoot : u.representative p = r := UnionFind.representative_eq hClimb
    rw [expand, hRoot]
    by_cases hFolded : r ∈ visiting
    · exact .folded hClimb hFolded
    · -- no fuel is left, so all typed classes are folded, and this one is not
      refine .free hClimb hFolded ?_
      by_contra hTyped
      have hPos := List.length_pos_of_mem (mem_folded hTyped hFolded)
      omega
  | succ fuel ih =>
    obtain ⟨n, r, hClimb⟩ := hEnds p
    obtain rfl : u.representative p = r := UnionFind.representative_eq hClimb
    by_cases hFolded : u.representative p ∈ visiting
    · rw [expand, if_pos hFolded]
      exact .folded hClimb hFolded
    · cases hHead : (u.typesAt (u.representative p)).head? with
      | none =>
        have hOpen := List.head?_eq_none_iff.mp hHead
        rw [expand_open hOpen]
        exact .free hClimb hFolded hOpen
      | some t =>
        have hTyped := List.ne_nil_of_mem (List.mem_of_head? hHead)
        have hLess := length_folded_cons (mem_folded hTyped hFolded)
        rw [expand_pinned hHead hFolded]
        -- inside the type one typed class more is left folded, so less fuel suffices
        exact .first hClimb hFolded hHead (reads_bind t fun q _ => ih (by omega) q)

/-- **A reading of a type comes to an end, and gives the normal form.** -/
theorem reads_iff (hEnds : ∀ p, ∃ n r, UnionFind.Climbs u.classes.parents n p r) {t t' : Ty} :
    u.Reads [] t t' ↔ t' = u.apply t := by
  have hApply : u.Reads [] t (u.apply t) :=
    reads_bind t fun p _ => reads_expand hEnds (u.length_folded_le []) p
  constructor
  · intro h
    exact h.unique hApply
  · rintro rfl
    exact hApply

-- ---------------------------------------------------------------------------
-- Acyclic states
-- ---------------------------------------------------------------------------

mutual

/-- **What is left after reading on an acyclic state are roots of classes without types**, if
nothing that is left folded lies behind the points of the type. -/
theorem Reads.free_of_mem (hAcyclic : u.Acyclic) {visiting : List Point} {t t' : Ty} :
    u.Reads visiting t t' →
    (∀ p ∈ t.points, ∀ r ∈ visiting, ¬ u.Reaches (u.representative p) r) →
    ∀ q ∈ t'.points, u.representative q = q ∧ u.typesAt q = []
  | .folded (p := p) (r := r) hClimb hFolded, hBehind => by
    have hRoot : u.representative p = r := UnionFind.representative_eq hClimb
    exact absurd (hRoot ▸ .refl) (hBehind p List.mem_cons_self r hFolded)
  | .free hClimb _ hOpen, _ => by
    intro q hq
    obtain rfl := List.mem_singleton.mp hq
    exact ⟨UnionFind.representative_of_root hClimb.root_of_end, hOpen⟩
  | .first (p := p) (r := r) (t := t) hClimb _ hHead hRest, hBehind => by
    have hRoot : u.representative p = r := UnionFind.representative_eq hClimb
    refine hRest.free_of_mem hAcyclic fun q hq x hx hReach => ?_
    have hLink : u.Links r (u.representative q) :=
      ⟨q, mem_pointsAt.mpr ⟨t, List.mem_of_head? hHead, hq⟩, rfl⟩
    -- behind `q` lies only what lies behind `p`, and the class of `p` is not met again
    rcases List.mem_cons.mp hx with hx | hx
    · exact hAcyclic r (.head' hLink (hx ▸ hReach))
    · exact hBehind p List.mem_cons_self x hx (hRoot ▸ hReach.head hLink)
  | .con hChildren, hBehind => hChildren.free_of_mem hAcyclic hBehind

theorem ReadsAll.free_of_mem (hAcyclic : u.Acyclic) {visiting : List Point}
    {ts ts' : List Ty} : u.ReadsAll visiting ts ts' →
    (∀ p ∈ Ty.pointsOfAll ts, ∀ r ∈ visiting, ¬ u.Reaches (u.representative p) r) →
    ∀ q ∈ Ty.pointsOfAll ts', u.representative q = q ∧ u.typesAt q = []
  | .nil, _ => by simp [Ty.pointsOfAll]
  | .cons hType hTypes, hBehind => by
    intro q hq
    rcases List.mem_append.mp hq with hq | hq
    · exact hType.free_of_mem hAcyclic (fun p hp => hBehind p (List.mem_append_left _ hp)) q hq
    · exact hTypes.free_of_mem hAcyclic (fun p hp => hBehind p (List.mem_append_right _ hp)) q hq

end

mutual

/-- A type whose points read as themselves reads as itself. -/
theorem reads_self : ∀ t : Ty, (∀ p ∈ t.points, u.Reads [] (.point p) (.point p)) → u.Reads [] t t
  | .point p, h => h p List.mem_cons_self
  | .con _ children _, h => .con (readsAll_self children h)

theorem readsAll_self : ∀ ts : List Ty,
    (∀ p ∈ Ty.pointsOfAll ts, u.Reads [] (.point p) (.point p)) → u.ReadsAll [] ts ts
  | [], _ => .nil
  | t :: ts, h => .cons (reads_self t fun p hp => h p (List.mem_append_left _ hp))
      (readsAll_self ts fun p hp => h p (List.mem_append_right _ hp))

end

/-- **The points that are left in a normal form stand for unknown types**, if the state is
acyclic. -/
theorem open_of_mem_apply (hEnds : ∀ p, ∃ n r, UnionFind.Climbs u.classes.parents n p r)
    (hAcyclic : u.Acyclic) (t : Ty) :
    ∀ p ∈ (u.apply t).points, u.representative p = p ∧ u.typesOf p = [] := by
  intro p hp
  have hReads : u.Reads [] t (u.apply t) := (reads_iff hEnds).mpr rfl
  obtain ⟨hRoot, hOpen⟩ := hReads.free_of_mem hAcyclic (by simp) p hp
  exact ⟨hRoot, by rw [typesOf, hRoot, hOpen]⟩

/--
**Normal forms are total, keep the meaning, and are final.** For every state in which all
climbs to a representative end, and every type:

* reading the type ends, with the normal form as its only result, whether or not the types
  of the state are recursive;
* the type and its normal form have one value in every solution;
* if no class is reachable from its own types, every point left in the normal form is the
  representative of a class without types, and a normal form is its own normal form, with
  its templates.
-/
theorem apply_normal_form
    (hEnds : ∀ p, ∃ n r, UnionFind.Climbs u.classes.parents n p r) (t : Ty) :
    (∀ t', u.Reads [] t t' ↔ t' = u.apply t) ∧
    (∀ σ : Assignment, Solves σ u → (u.apply t).value σ = t.value σ) ∧
    (u.Acyclic →
      (∀ p ∈ (u.apply t).points, u.representative p = p ∧ u.typesOf p = []) ∧
      u.apply (u.apply t) = u.apply t) := by
  refine ⟨fun _ => reads_iff hEnds, fun σ hSolves => eval_apply hSolves t, fun hAcyclic => ?_⟩
  have hLeft := open_of_mem_apply hEnds hAcyclic t
  -- what is left reads as itself, so the whole does
  refine ⟨hLeft, ((reads_iff hEnds).mp (reads_self _ fun p hp => ?_)).symm⟩
  obtain ⟨hRoot, hOpen⟩ := hLeft p hp
  obtain ⟨n, r, hClimb⟩ := hEnds p
  obtain rfl : p = r := hRoot.symm.trans (UnionFind.representative_eq hClimb)
  rw [typesOf, hRoot] at hOpen
  exact .free hClimb List.not_mem_nil hOpen

/-- Point 0 is a list, with a template, of point 1, a pair of point 2 with itself. Where point
0 is a list of lists of its own class instead, reading it ends as well, but what it gives can
be read on. -/
theorem apply_normal_form_list :
    (∃ (u : Unification) (σ : Assignment),
      (∀ p, ∃ n r, UnionFind.Climbs u.classes.parents n p r) ∧ u.Acyclic ∧ Solves σ u ∧
      u.apply (.point ⟨0⟩) =
        .con .block [.con .tuple [.point ⟨2⟩, .point ⟨2⟩] none] (some "list") ∧
      u.Reads [] (.point ⟨0⟩) (u.apply (.point ⟨0⟩)) ∧
      (u.apply (.point ⟨0⟩)).value σ = σ ⟨0⟩ ∧
      (∀ p ∈ (u.apply (.point ⟨0⟩)).points, u.representative p = p ∧ u.typesOf p = []) ∧
      u.apply (u.apply (.point ⟨0⟩)) = u.apply (.point ⟨0⟩)) ∧
    ∃ u : Unification, (∀ p, ∃ n r, UnionFind.Climbs u.classes.parents n p r) ∧ ¬ u.Acyclic ∧
      u.Reads [] (.point ⟨0⟩) (.con .block [.con .block [.point ⟨0⟩] none] none) ∧
      u.apply (u.apply (.point ⟨0⟩)) ≠ u.apply (.point ⟨0⟩) := by
  constructor
  · let pair : Ty := .con .tuple [.point ⟨2⟩, .point ⟨2⟩] none
    let leaf : Tree := .node .block []
    let σ : Assignment := fun p =>
      if p = ⟨0⟩ then .node .block [.node .tuple [leaf, leaf]]
      else if p = ⟨1⟩ then .node .tuple [leaf, leaf] else leaf
    have hRun : ({} : Unification).unify 3 (.con .tuple [.point ⟨0⟩, .point ⟨1⟩] none)
        (.con .tuple [.con .block [.point ⟨1⟩] (some "list"), pair] none) = some ([], _) := rfl
    have hReachable := Reachable.unify .empty hRun
    have hSolves := (solves_empty σ).unify .empty hRun rfl
    have hEnds := hReachable.wellFormed.forest.ends
    obtain ⟨hReads, hValue, hFinal⟩ := apply_normal_form hEnds (.point ⟨0⟩)
    obtain ⟨hFree, hAgain⟩ := hFinal (hasCycle_eq_false_iff.mp (by decide +kernel))
    exact ⟨_, σ, hEnds, hasCycle_eq_false_iff.mp (by decide +kernel), hSolves, rfl,
      (hReads _).mpr rfl, hValue σ hSolves, hFree, hAgain⟩
  · have hRun : ({} : Unification).unify 3 (.con .tuple [.point ⟨0⟩, .point ⟨0⟩] none)
        (.con .tuple [.con .block [.con .block [.point ⟨1⟩] none] none, .point ⟨1⟩] none) =
        some ([], _) := rfl
    have hEnds := (Reachable.unify .empty hRun).wellFormed.forest.ends
    obtain ⟨hReads, -, -⟩ := apply_normal_form hEnds (.point ⟨0⟩)
    refine ⟨_, hEnds, ?_, (hReads _).mpr rfl, fun hAgain => ?_⟩
    · rw [← hasCycle_eq_false_iff, Bool.not_eq_false]
      decide +kernel
    · exact absurd (congrArg sizeOf hAgain) (by decide +kernel)

end TraitInference.Unification
