import TraitInference.Proofs.Reachability
import TraitInference.Proofs.Steps
import Mathlib.Data.Set.Finite.Basic

/-!
# TraitInference — looking for a class depth first

The occurs check runs within two bounds: one on how far a climb to a representative may go,
one on how many classes are opened. `Seeks` is the same question asked without any bound, by
a search that goes down into a type child by child, and from a class into its types one by
one. It stops at the first hit, and what it has entered stays entered for all that comes
later, to the side as well as below. A derivation of `u.Seeks target ∅ t found seen` is a
search that comes to an end, with the answer `found`.

All that is asked of the state is that no chain of parents runs in a circle
(`UnionFind.Acyclic`). Its types may be recursive, and its classes may have several types.

* `acyclic_iff` — without such circles every climb ends, and the other way round.
* `exists_seeks` — **every search ends**, at the latest when every typed class is entered.
* `Seeks.reaches`, `Seeks.explores` — a hit is reachable. After a miss, whatever was entered
  *on the way* has all its links inside of what is entered now. Nothing is said of the
  classes that were entered before: they may still be under way further up.
* `occurs_decides_reachability` — the search ends in one way only. Its answer is that of the
  occurs check, and tells whether the class can be reached.
-/

namespace TraitInference

-- ---------------------------------------------------------------------------
-- Parents without circles
-- ---------------------------------------------------------------------------

namespace UnionFind

open Relation

variable {u : UnionFind}

/-- The parent of `p` is `q`, another point. -/
def Below (u : UnionFind) (p q : Point) : Prop :=
  u.parents[p]? = some q ∧ q ≠ p

/-- No way up through the parents leads back to where it began. -/
def Acyclic (u : UnionFind) : Prop :=
  ∀ p, ¬ TransGen u.Below p p

/-- The climb from the parent is what is left of a climb. -/
theorem Climbs.of_below {n : Nat} {p q r : Point} (hBelow : u.Below p q)
    (h : Climbs u.parents n p r) : ∃ m, n = m + 1 ∧ Climbs u.parents m q r := by
  obtain ⟨hParent, hNe⟩ := hBelow
  cases h with
  | root hRoot => exact absurd (hRoot q hParent) hNe
  | @up m _ q' _ hParent' _ hRest =>
    obtain rfl : q' = q := Option.some.inj (hParent'.symm.trans hParent)
    exact ⟨m, rfl, hRest⟩

/-- Whoever goes up is closer to the root. -/
theorem Climbs.of_transGen {n : Nat} {p q r : Point} (hUp : TransGen u.Below p q)
    (h : Climbs u.parents n p r) : ∃ m, m < n ∧ Climbs u.parents m q r := by
  induction hUp with
  | single hBelow =>
    obtain ⟨m, rfl, hRest⟩ := h.of_below hBelow
    exact ⟨m, Nat.lt_succ_self m, hRest⟩
  | tail _ hBelow ih =>
    obtain ⟨m, hLess, hClimb⟩ := ih
    obtain ⟨k, rfl, hRest⟩ := hClimb.of_below hBelow
    exact ⟨k, by omega, hRest⟩

/-- Going up among finitely many recorded points is well-founded. -/
theorem Acyclic.wellFounded (h : u.Acyclic) :
    WellFounded fun q p : { p // p ∈ u.points } => TransGen u.Below p.1 q.1 := by
  have : Finite { p // p ∈ u.points } := (List.finite_toSet u.points).to_subtype
  have : IsTrans { p // p ∈ u.points } fun q p => TransGen u.Below p.1 q.1 :=
    ⟨fun _ _ _ hUpper hLower => hLower.trans hUpper⟩
  have : Std.Irrefl fun q p : { p // p ∈ u.points } => TransGen u.Below p.1 q.1 :=
    ⟨fun p => h p.1⟩
  exact Finite.wellFounded_of_trans_of_irrefl _

/-- Without circles every climb ends. -/
theorem Acyclic.ends (h : u.Acyclic) (p : Point) : ∃ n r, Climbs u.parents n p r := by
  have hUnrecorded : ∀ q, q ∉ u.points → Climbs u.parents 0 q q := by
    intro q hq
    refine .root fun q' hParent => absurd (mem_points.mpr ?_) hq
    rw [contains_eq_isSome, hParent, Option.isSome_some]
  have hRecorded : ∀ q : { p // p ∈ u.points }, ∃ n r, Climbs u.parents n q.1 r := by
    intro q
    induction q using h.wellFounded.induction with
    | _ q ih =>
      -- up one parent, and on from there, unless the point is a root
      by_cases hRoot : ∀ q', u.parents[q.1]? = some q' → q' = q.1
      · exact ⟨0, q.1, .root hRoot⟩
      · push Not at hRoot
        obtain ⟨q', hParent, hNe⟩ := hRoot
        by_cases hMem : q' ∈ u.points
        · obtain ⟨n, r, hRest⟩ := ih ⟨q', hMem⟩ (.single ⟨hParent, hNe⟩)
          exact ⟨n + 1, r, .up hParent hNe hRest⟩
        · exact ⟨1, q', .up hParent hNe (hUnrecorded q' hMem)⟩
  by_cases hMem : p ∈ u.points
  · exact hRecorded ⟨p, hMem⟩
  · exact ⟨0, p, hUnrecorded p hMem⟩

/-- **Every climb ends exactly if no parents run in a circle.** -/
theorem acyclic_iff : u.Acyclic ↔ ∀ p, ∃ n r, Climbs u.parents n p r := by
  refine ⟨Acyclic.ends, fun hEnds p hCircle => ?_⟩
  obtain ⟨n, r, hClimb⟩ := hEnds p
  obtain ⟨m, hLess, hAgain⟩ := hClimb.of_transGen hCircle
  have hSame := (hAgain.unique hClimb).1
  omega

end UnionFind

namespace Unification

variable {u : Unification} {target : Point}

-- ---------------------------------------------------------------------------
-- The search
-- ---------------------------------------------------------------------------

mutual

/-- Looking for the class `target` in a type, when the classes in `seen` have been entered,
ends with the answer `found` and the classes in `seen'` entered. A class that was entered
before is passed by. -/
inductive Seeks (u : Unification) (target : Point) : PointSet → Ty → Bool → PointSet → Prop
  | hit {seen : PointSet} {n : Nat} {p : Point}
      (hClimb : UnionFind.Climbs u.classes.parents n p target) :
      Seeks u target seen (.point p) true seen
  | passed {seen : PointSet} {n : Nat} {p r : Point}
      (hClimb : UnionFind.Climbs u.classes.parents n p r) (hNe : r ≠ target) (hSeen : r ∈ seen) :
      Seeks u target seen (.point p) false seen
  | entered {seen seen' : PointSet} {n : Nat} {p r : Point} {found : Bool}
      (hClimb : UnionFind.Climbs u.classes.parents n p r) (hNe : r ≠ target) (hNew : r ∉ seen)
      (hTypes : SeeksAny u target (seen.insert r) (u.typesAt r) found seen') :
      Seeks u target seen (.point p) found seen'
  | con {seen seen' : PointSet} {tag : Tag} {children : List Ty} {emit : Option String}
      {found : Bool} (hChildren : SeeksAny u target seen children found seen') :
      Seeks u target seen (.con tag children emit) found seen'

/-- Looking for the class `target` in a row of types, up to the first hit. -/
inductive SeeksAny (u : Unification) (target : Point) :
    PointSet → List Ty → Bool → PointSet → Prop
  | nil {seen : PointSet} : SeeksAny u target seen [] false seen
  | here {seen seen' : PointSet} {t : Ty} {ts : List Ty}
      (hType : Seeks u target seen t true seen') : SeeksAny u target seen (t :: ts) true seen'
  | later {seen seen' seen'' : PointSet} {t : Ty} {ts : List Ty} {found : Bool}
      (hType : Seeks u target seen t false seen')
      (hTypes : SeeksAny u target seen' ts found seen'') :
      SeeksAny u target seen (t :: ts) found seen''

end

mutual

/-- A search has one answer, and enters the same classes each time. -/
theorem Seeks.unique {seen seen₁ seen₂ : PointSet} {t : Ty} {found₁ found₂ : Bool} :
    u.Seeks target seen t found₁ seen₁ → u.Seeks target seen t found₂ seen₂ →
      found₁ = found₂ ∧ seen₁ = seen₂
  | .hit hClimb, h₂ => by
    cases h₂ with
    | hit _ => exact ⟨rfl, rfl⟩
    | passed hClimb' hNe' _ => exact absurd (hClimb'.unique hClimb).2 hNe'
    | entered hClimb' hNe' _ _ => exact absurd (hClimb'.unique hClimb).2 hNe'
  | .passed hClimb hNe hSeen, h₂ => by
    cases h₂ with
    | hit hClimb' => exact absurd (hClimb.unique hClimb').2 hNe
    | passed _ _ _ => exact ⟨rfl, rfl⟩
    | entered hClimb' _ hNew' _ => exact absurd ((hClimb.unique hClimb').2 ▸ hSeen) hNew'
  | .entered hClimb hNe hNew hTypes, h₂ => by
    cases h₂ with
    | hit hClimb' => exact absurd (hClimb.unique hClimb').2 hNe
    | passed hClimb' _ hSeen' => exact absurd ((hClimb'.unique hClimb).2 ▸ hSeen') hNew
    | entered hClimb' _ _ hTypes' =>
      obtain rfl := (hClimb.unique hClimb').2
      exact hTypes.unique hTypes'
  | .con hChildren, .con hChildren' => hChildren.unique hChildren'

theorem SeeksAny.unique {seen seen₁ seen₂ : PointSet} {ts : List Ty} {found₁ found₂ : Bool} :
    u.SeeksAny target seen ts found₁ seen₁ → u.SeeksAny target seen ts found₂ seen₂ →
      found₁ = found₂ ∧ seen₁ = seen₂
  | .nil, .nil => ⟨rfl, rfl⟩
  | .here hType, h₂ => by
    cases h₂ with
    | here hType' => exact hType.unique hType'
    | later hType' _ => exact absurd (hType.unique hType').1 (by simp)
  | .later hType hTypes, h₂ => by
    cases h₂ with
    | here hType' => exact absurd (hType.unique hType').1 (by simp)
    | later hType' hTypes' =>
      obtain rfl := (hType.unique hType').2
      exact hTypes.unique hTypes'

end

-- ---------------------------------------------------------------------------
-- A hit
-- ---------------------------------------------------------------------------

-- The answer stays a variable of these lemmas, with an equation for it: only so can they
-- recur on the derivation.

mutual

/-- **What is found can be reached**, whatever was entered before. -/
theorem Seeks.reaches {seen seen' : PointSet} {t : Ty} {found : Bool} :
    u.Seeks target seen t found seen' → found = true →
      ∃ p ∈ t.points, u.Reaches (u.representative p) target
  | .hit (p := p) hClimb, _ => by
    have hRoot : u.representative p = target := UnionFind.representative_eq hClimb
    exact ⟨p, List.mem_cons_self, hRoot ▸ .refl⟩
  | .entered (p := p) (r := r) hClimb _ _ hTypes, hFound => by
    have hRoot : u.representative p = r := UnionFind.representative_eq hClimb
    obtain ⟨q, hq, hReach⟩ := hTypes.reaches hFound
    rw [Ty.pointsOfAll_eq] at hq
    exact ⟨p, List.mem_cons_self, hRoot ▸ .head ⟨q, hq, rfl⟩ hReach⟩
  | .con hChildren, hFound => hChildren.reaches hFound

theorem SeeksAny.reaches {seen seen' : PointSet} {ts : List Ty} {found : Bool} :
    u.SeeksAny target seen ts found seen' → found = true →
      ∃ p ∈ Ty.pointsOfAll ts, u.Reaches (u.representative p) target
  | .here hType, hFound => by
    obtain ⟨p, hp, hReach⟩ := hType.reaches hFound
    exact ⟨p, List.mem_append_left _ hp, hReach⟩
  | .later _ hTypes, hFound => by
    obtain ⟨p, hp, hReach⟩ := hTypes.reaches hFound
    exact ⟨p, List.mem_append_right _ hp, hReach⟩

end

-- ---------------------------------------------------------------------------
-- A miss
-- ---------------------------------------------------------------------------

/-- What a search for `target` from `points` has done when it ends without a hit. The classes
entered on the way are done with: all that they link to is entered. Those in `seen` need not
be, since the search may have been started from inside their types. -/
structure Explores (u : Unification) (target : Point) (seen : PointSet) (points : List Point)
    (seen' : PointSet) : Prop where
  grows  : ∀ r ∈ seen, r ∈ seen'
  avoids : target ∈ seen' → target ∈ seen
  covers : ∀ p ∈ points, u.representative p ∈ seen'
  done   : ∀ r ∈ seen', r ∉ seen → ∀ r', u.Links r r' → r' ∈ seen'

/-- A search that enters nothing has done nothing, if all its points were entered before. -/
theorem Explores.rest {seen : PointSet} {points : List Point}
    (hCovers : ∀ p ∈ points, u.representative p ∈ seen) :
    u.Explores target seen points seen where
  grows _ hr := hr
  avoids hTarget := hTarget
  covers := hCovers
  done _ hr hNew := absurd hr hNew

/-- One search after another. -/
theorem Explores.append {seen seen' seen'' : PointSet} {ps qs : List Point}
    (h : u.Explores target seen ps seen') (h' : u.Explores target seen' qs seen'') :
    u.Explores target seen (ps ++ qs) seen'' where
  grows r hr := h'.grows r (h.grows r hr)
  avoids hTarget := h.avoids (h'.avoids hTarget)
  covers p hp := by
    rcases List.mem_append.mp hp with hp | hp
    · exact h'.grows _ (h.covers p hp)
    · exact h'.covers p hp
  done r hr hNew r' hLink := by
    -- entered by the first search or by the second
    by_cases hFirst : r ∈ seen'
    · exact h'.grows r' (h.done r hFirst hNew r' hLink)
    · exact h'.done r hr hFirst r' hLink

/-- Entering a class and searching its types. -/
theorem Explores.enter {seen seen' : PointSet} {p : Point}
    (hNe : u.representative p ≠ target)
    (h : u.Explores target (seen.insert (u.representative p))
      (u.pointsAt (u.representative p)) seen') : u.Explores target seen [p] seen' where
  grows r hr := h.grows r (PointSet.mem_insert.mpr (.inr hr))
  avoids hTarget := (PointSet.mem_insert.mp (h.avoids hTarget)).resolve_left hNe.symm
  covers q hq := by
    rw [List.mem_singleton.mp hq]
    exact h.grows _ (PointSet.mem_insert.mpr (.inl rfl))
  done r hr hNew r' hLink := by
    by_cases hRoot : r = u.representative p
    · -- the class itself is done with, for its types were searched to the end
      obtain ⟨q, hq, rfl⟩ := hLink
      exact h.covers q (hRoot ▸ hq)
    · refine h.done r hr (fun hMem => ?_) r' hLink
      exact (PointSet.mem_insert.mp hMem).elim hRoot hNew

mutual

/-- **A search that ends without a hit has done with all that it entered.** -/
theorem Seeks.explores {seen seen' : PointSet} {t : Ty} {found : Bool} :
    u.Seeks target seen t found seen' → found = false → u.Explores target seen t.points seen'
  | .passed (p := p) (r := r) hClimb _ hSeen, _ => by
    have hRoot : u.representative p = r := UnionFind.representative_eq hClimb
    refine .rest fun q hq => ?_
    rw [List.mem_singleton.mp hq, hRoot]
    exact hSeen
  | .entered (p := p) (r := r) hClimb hNe _ hTypes, hMissed => by
    -- before the root is replaced, for then `hTypes` is still a part of the derivation
    have hInside := hTypes.explores hMissed
    rw [Ty.pointsOfAll_eq] at hInside
    obtain rfl : u.representative p = r := UnionFind.representative_eq hClimb
    exact hInside.enter hNe
  | .con hChildren, hMissed => hChildren.explores hMissed

theorem SeeksAny.explores {seen seen' : PointSet} {ts : List Ty} {found : Bool} :
    u.SeeksAny target seen ts found seen' → found = false →
      u.Explores target seen (Ty.pointsOfAll ts) seen'
  | .nil, _ => .rest (by simp [Ty.pointsOfAll])
  | .later hType hTypes, hMissed => (hType.explores rfl).append (hTypes.explores hMissed)

end

/-- Where nothing was entered before, nothing is left to be reached. -/
theorem Explores.not_reaches {points : List Point} {seen : PointSet}
    (h : u.Explores target ∅ points seen) {p : Point} (hp : p ∈ points) :
    ¬ u.Reaches (u.representative p) target := by
  intro hReach
  -- what is entered is closed under links, so one cannot get out of it
  have hInside : ∀ r, u.Reaches (u.representative p) r → r ∈ seen := by
    intro r hWay
    induction hWay with
    | refl => exact h.covers p hp
    | tail _ hLink ih => exact h.done _ ih Std.ExtTreeSet.not_mem_empty _ hLink
  exact Std.ExtTreeSet.not_mem_empty (h.avoids (hInside target hReach))

-- ---------------------------------------------------------------------------
-- Every search ends
-- ---------------------------------------------------------------------------

/-- The more is entered, the fewer typed classes are left. -/
theorem length_unopened_le {seen seen' : PointSet} (h : ∀ r ∈ seen, r ∈ seen') :
    (u.unopened seen').length ≤ (u.unopened seen).length := by
  refine (List.monotone_filter_right _ fun r hr => ?_).length_le
  simp only [decide_eq_true_eq] at hr ⊢
  exact fun hMem => hr (h r hMem)

mutual

/-- A search ends in a type if it ends at its points, whatever has been entered by then. -/
theorem exists_seeks_of_points {bound : Nat}
    (hPoints : ∀ (seen : PointSet) (p : Point), (u.unopened seen).length ≤ bound →
      ∃ found seen', u.Seeks target seen (.point p) found seen') :
    ∀ (t : Ty) (seen : PointSet), (u.unopened seen).length ≤ bound →
      ∃ found seen', u.Seeks target seen t found seen'
  | .point p, seen, hBound => hPoints seen p hBound
  | .con _ children _, seen, hBound => by
    obtain ⟨found, seen', hChildren⟩ := exists_seeksAny_of_points hPoints children seen hBound
    exact ⟨found, seen', .con hChildren⟩

theorem exists_seeksAny_of_points {bound : Nat}
    (hPoints : ∀ (seen : PointSet) (p : Point), (u.unopened seen).length ≤ bound →
      ∃ found seen', u.Seeks target seen (.point p) found seen') :
    ∀ (ts : List Ty) (seen : PointSet), (u.unopened seen).length ≤ bound →
      ∃ found seen', u.SeeksAny target seen ts found seen'
  | [], seen, _ => ⟨false, seen, .nil⟩
  | t :: ts, seen, hBound => by
    obtain ⟨found, seen', hType⟩ := exists_seeks_of_points hPoints t seen hBound
    cases found with
    | true => exact ⟨true, seen', .here hType⟩
    | false =>
      have hLess := length_unopened_le (u := u) (hType.explores rfl).grows
      obtain ⟨found, seen'', hTypes⟩ :=
        exists_seeksAny_of_points hPoints ts seen' (by omega)
      exact ⟨found, seen'', .later hType hTypes⟩

end

/-- Looking at a point ends: a class is gone into only if it has types and was not entered
before, so inside its types there are fewer such classes left. -/
theorem exists_seeks_point (hEnds : ∀ p, ∃ n r, UnionFind.Climbs u.classes.parents n p r)
    (seen : PointSet) (p : Point) :
    ∃ found seen', u.Seeks target seen (.point p) found seen' := by
  induction hCount : (u.unopened seen).length using Nat.strong_induction_on
    generalizing seen p with
  | _ count ih =>
    obtain ⟨n, r, hClimb⟩ := hEnds p
    by_cases hTarget : r = target
    · exact ⟨true, seen, .hit (hTarget ▸ hClimb)⟩
    by_cases hSeen : r ∈ seen
    · exact ⟨false, seen, .passed hClimb hTarget hSeen⟩
    by_cases hOpen : u.typesAt r = []
    · exact ⟨false, seen.insert r, .entered hClimb hTarget hSeen (hOpen ▸ .nil)⟩
    have hLess := length_unopened_insert hOpen hSeen
    obtain ⟨found, seen', hTypes⟩ := exists_seeksAny_of_points
      (fun seen' q hBound => ih _ (by omega) seen' q rfl) (u.typesAt r) (seen.insert r) le_rfl
    exact ⟨found, seen', .entered hClimb hTarget hSeen hTypes⟩

/-- **Every search ends.** -/
theorem exists_seeks (u : Unification)
    (hEnds : ∀ p, ∃ n r, UnionFind.Climbs u.classes.parents n p r) (target : Point)
    (seen : PointSet) (t : Ty) : ∃ found seen', u.Seeks target seen t found seen' :=
  exists_seeks_of_points (fun seen p _ => exists_seeks_point hEnds seen p) t seen le_rfl

/-- The answer of a search that begins with nothing entered. -/
theorem Seeks.eq_occurs {t : Ty} {found : Bool} {seen : PointSet}
    (h : u.Seeks target ∅ t found seen) : found = u.occurs target t := by
  cases found with
  | true => exact ((occurs_iff u target t).mpr (h.reaches rfl)).symm
  | false =>
    rw [eq_comm, ← Bool.not_eq_true, occurs_iff]
    rintro ⟨p, hp, hReach⟩
    exact (h.explores rfl).not_reaches hp hReach

/--
**The occurs check decides reachability.** For every state whose parents do not run in a
circle, whether or not its types do, every class `target` and every type:

* following the parents of a point ends, at the representative of its class;
* looking for the class in the type depth first ends, in one way only, and its answer is that
  of the occurs check;
* that answer is *yes* exactly if `target` is the class of a point of the type, or can be
  reached from such a class by passing, again and again, from a class to that of any point
  in any of its types.
-/
theorem occurs_decides_reachability (hAcyclic : u.classes.Acyclic) (target : Point) (t : Ty) :
    (∀ p, ∃ n, UnionFind.Climbs u.classes.parents n p (u.representative p)) ∧
    (∃ seen, ∀ found seen',
      u.Seeks target ∅ t found seen' ↔ found = u.occurs target t ∧ seen' = seen) ∧
    (u.occurs target t = true ↔ ∃ p ∈ t.points, u.Reaches (u.representative p) target) := by
  obtain ⟨found, seen, hSeeks⟩ := u.exists_seeks hAcyclic.ends target ∅ t
  obtain rfl : found = u.occurs target t := hSeeks.eq_occurs
  refine ⟨fun p => ?_, ⟨seen, fun found' seen' => ⟨fun hAgain => hAgain.unique hSeeks, ?_⟩⟩,
    occurs_iff u target t⟩
  · obtain ⟨n, r, hClimb⟩ := hAcyclic.ends p
    obtain rfl : u.representative p = r := UnionFind.representative_eq hClimb
    exact ⟨n, hClimb⟩
  · rintro ⟨rfl, rfl⟩
    exact hSeeks

/-- Points 0 and 1 are one class with two types, a block of blocks of itself and a function
that gives point 2. Behind the circle, and only in the second type, point 2 is found; point 3
is not, and the search for it ends. -/
theorem occurs_decides_reachability_circle : ∃ u : Unification,
    u.classes.Acyclic ∧ ¬ u.Acyclic ∧
    u.typesOf ⟨1⟩ = [.con .block [.con .block [.point ⟨1⟩] none] none,
      .con .function [.point ⟨2⟩] none] ∧
    (u.occurs ⟨2⟩ (.point ⟨1⟩) = true ∧ (∃ seen, u.Seeks ⟨2⟩ ∅ (.point ⟨1⟩) true seen) ∧
      u.Reaches (u.representative ⟨1⟩) ⟨2⟩) ∧
    u.occurs ⟨3⟩ (.point ⟨1⟩) = false ∧ (∃ seen, u.Seeks ⟨3⟩ ∅ (.point ⟨1⟩) false seen) ∧
      ¬ u.Reaches (u.representative ⟨1⟩) ⟨3⟩ := by
  have hRun : ({} : Unification).unify 3 (.con .tuple [.point ⟨0⟩, .point ⟨0⟩, .point ⟨0⟩] none)
      (.con .tuple [.con .block [.con .block [.point ⟨1⟩] none] none, .point ⟨1⟩,
        .con .function [.point ⟨2⟩] none] none) = some (_, _) := rfl
  have hAcyclic := UnionFind.acyclic_iff.mpr (Reachable.unify .empty hRun).wellFormed.forest.ends
  obtain ⟨-, ⟨seen, hSeeks⟩, hFound⟩ := occurs_decides_reachability hAcyclic ⟨2⟩ (.point ⟨1⟩)
  obtain ⟨-, ⟨seen', hSeeks'⟩, hMissed⟩ := occurs_decides_reachability hAcyclic ⟨3⟩ (.point ⟨1⟩)
  simp only [Ty.points, List.mem_singleton, exists_eq_left] at hFound hMissed
  refine ⟨_, hAcyclic, ?_, rfl, ⟨rfl, ⟨seen, (hSeeks true seen).mpr ⟨rfl, rfl⟩⟩, hFound.mp rfl⟩,
    rfl, ⟨seen', (hSeeks' false seen').mpr ⟨rfl, rfl⟩⟩,
    fun hReach => absurd (hMissed.mpr hReach) (by decide +kernel)⟩
  rw [← hasCycle_eq_false_iff, Bool.not_eq_false]
  decide +kernel

end Unification

end TraitInference
