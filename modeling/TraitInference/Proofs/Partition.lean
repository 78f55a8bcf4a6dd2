import Mathlib.Data.List.Induction
import Mathlib.Logic.Relation
import TraitInference.Proofs.Forest

/-!
# TraitInference — the partition that unions generate

Disjoint sets are used through four requests: record a point and find its
representative, merge two sets, and ask for a representative or for a recorded
point without changing anything. Whatever was requested, and whatever points
were merged in whatever order, two points are in one set exactly if the merges
link them, by whole chains and in either direction:

* `Request.serve`, `serveAll` — the sets after a request, and after a list of
  them, the first one first.
* `representative_eq_iff_serveAll` — two points have one representative exactly
  if they are related by the equivalence that the merges generate.
* `serveAll_partition` — that, and what the next request will do.
-/

namespace TraitInference.UnionFind

open Relation

-- ---------------------------------------------------------------------------
-- Requests
-- ---------------------------------------------------------------------------

/-- What is asked of disjoint sets. -/
inductive Request
  | find (p : Point)
  | union (a b : Point)
  | representative (p : Point)
  | contains (p : Point)

/-- The sets after a request. -/
def Request.serve (u : UnionFind) : Request → UnionFind
  | .find p => (u.find p).2
  | .union a b => (u.union a b).2
  | .representative _ | .contains _ => u

/-- The points that a request records. -/
def Request.records : Request → List Point
  | .find p => [p]
  | .union a b => [a, b]
  | .representative _ | .contains _ => []

/-- The sets after a list of requests, from no set at all. -/
def serveAll (requests : List Request) : UnionFind :=
  requests.foldl Request.serve {}

/-- The points that some request has merged. -/
def Merged (requests : List Request) (a b : Point) : Prop :=
  .union a b ∈ requests

variable {u : UnionFind}

theorem serveAll_concat (requests : List Request) (r : Request) :
    serveAll (requests ++ [r]) = r.serve (serveAll requests) := by
  rw [serveAll, List.foldl_append]
  rfl

/-- Points that are linked agree in whatever the links do not change. -/
theorem eq_of_eqvGen {R : Point → Point → Prop} {f : Point → Point}
    (hLinks : ∀ x y, R x y → f x = f y) {p q : Point} (h : EqvGen R p q) : f p = f q :=
  congrArg (Quot.lift f hLinks) (Quot.eqvGen_sound h)

-- ---------------------------------------------------------------------------
-- One request
-- ---------------------------------------------------------------------------

/-- Every request leaves a forest. -/
theorem IsForest.serve (h : u.IsForest) (r : Request) : (r.serve u).IsForest := by
  cases r with
  | find p => exact isForest_find h p
  | union a b => exact isForest_union h a b
  | representative p => exact h
  | contains p => exact h

/-- A request records its points and no others. -/
theorem contains_serve (h : u.IsForest) (r : Request) (p : Point) :
    (r.serve u).contains p = true ↔ p ∈ r.records ∨ u.contains p = true := by
  cases r with
  | find q => simp [Request.serve, Request.records, contains_find]
  | union a b => simp [Request.serve, Request.records, contains_union h, or_assoc]
  | representative q => simp [Request.serve, Request.records]
  | contains q => simp [Request.serve, Request.records]

/-- **Merging adds one link.** If the sets are those that `R` generates, they are
afterwards those that `R` and the link between the two points generate. -/
theorem representative_union_eq_iff (h : u.IsForest) {R : Point → Point → Prop}
    (hGenerates : ∀ p q, u.representative p = u.representative q ↔ EqvGen R p q) (a b p q : Point) :
    (u.union a b).2.representative p = (u.union a b).2.representative q ↔
      EqvGen (fun x y => R x y ∨ x = a ∧ y = b) p q := by
  have hOld : ∀ {x y}, u.representative x = u.representative y →
      EqvGen (fun x y => R x y ∨ x = a ∧ y = b) x y := fun hEq =>
    EqvGen.mono (fun _ _ => .inl) _ _ ((hGenerates _ _).mp hEq)
  have hLink : EqvGen (fun x y => R x y ∨ x = a ∧ y = b) a b := .rel _ _ (.inr ⟨rfl, rfl⟩)
  have hMerged : ∀ x, u.representative x = u.representative a ∨
      u.representative x = u.representative b →
      EqvGen (fun x y => R x y ∨ x = a ∧ y = b) x a := by
    rintro x (hx | hx)
    · exact hOld hx
    · exact .trans _ _ _ (hOld hx) (.symm _ _ hLink)
  -- only a point of the two sets has the representative `a`
  have hOther : ∀ x, u.representative x = a → u.representative x = u.representative a := by
    intro x hx
    rw [← hx, representative_representative h]
  constructor
  · intro hEq
    rw [representative_union h, representative_union h] at hEq
    split at hEq <;> split at hEq
    · exact .trans _ _ _ (hMerged p ‹_›) (.symm _ _ (hMerged q ‹_›))
    · rename_i hq
      exact absurd (.inl (hOther q hEq.symm)) hq
    · rename_i hp _
      exact absurd (.inl (hOther p hEq)) hp
    · exact hOld hEq
  · -- it is enough that the two ends of one link have one representative
    refine eq_of_eqvGen fun x y hxy => ?_
    rw [representative_union h, representative_union h]
    rcases hxy with hxy | ⟨rfl, rfl⟩
    · rw [(hGenerates x y).mpr (.rel x y hxy)]
    · rw [if_pos (.inl rfl), if_pos (.inr rfl)]

-- ---------------------------------------------------------------------------
-- All requests
-- ---------------------------------------------------------------------------

/-- Whatever is requested, there is a forest. -/
theorem isForest_serveAll (requests : List Request) : (serveAll requests).IsForest := by
  induction requests using List.reverseRecOn with
  | nil => exact isForest_empty
  | append_singleton requests r ih =>
    rw [serveAll_concat]
    exact ih.serve r

/-- The points that are recorded are those of some request. -/
theorem contains_serveAll (requests : List Request) (p : Point) :
    (serveAll requests).contains p = true ↔ ∃ r ∈ requests, p ∈ r.records := by
  induction requests using List.reverseRecOn with
  | nil => simp [serveAll, contains_eq_isSome]
  | append_singleton requests r ih =>
    rw [serveAll_concat, contains_serve (isForest_serveAll requests), ih, or_comm]
    simp only [List.mem_append, List.mem_singleton, or_and_right, exists_or, exists_eq_left]

theorem merged_concat (requests : List Request) (r : Request) (a b : Point) :
    Merged (requests ++ [r]) a b ↔ Merged requests a b ∨ .union a b = r := by
  simp [Merged]

/-- A request that merges nothing adds no link. -/
theorem merged_concat_of_ne {r : Request} (h : ∀ a b, .union a b ≠ r) (requests : List Request) :
    Merged (requests ++ [r]) = Merged requests := by
  funext a b
  simp [merged_concat, h]

/-- **The sets are those that the merges generate.** -/
theorem representative_eq_iff_serveAll (requests : List Request) (p q : Point) :
    (serveAll requests).representative p = (serveAll requests).representative q ↔
      EqvGen (Merged requests) p q := by
  induction requests using List.reverseRecOn generalizing p q with
  | nil =>
    -- without a request every point is alone
    have hAlone : ∀ x, (serveAll []).representative x = x := fun x =>
      representative_of_not_contains (by simp [serveAll, contains_eq_isSome])
    rw [hAlone, hAlone]
    constructor
    · rintro rfl
      exact .refl p
    · refine eq_of_eqvGen (f := id) fun x y hxy => ?_
      exact absurd (show Request.union x y ∈ [] from hxy) List.not_mem_nil
  | append_singleton requests r ih =>
    have hForest := isForest_serveAll requests
    rw [serveAll_concat]
    cases r with
    | find x =>
      rw [merged_concat_of_ne (by simp), ← ih, Request.serve, representative_find hForest,
        representative_find hForest]
    | union a b =>
      have hMerged : Merged (requests ++ [.union a b]) =
          fun x y => Merged requests x y ∨ x = a ∧ y = b := by
        funext x y
        simp [merged_concat]
      rw [hMerged]
      exact representative_union_eq_iff hForest ih a b p q
    | representative x =>
      rw [merged_concat_of_ne (by simp)]
      exact ih p q
    | contains x =>
      rw [merged_concat_of_ne (by simp)]
      exact ih p q

/--
**Disjoint sets are the partition that the merges generate.** After any list of
requests, from no set at all:

* every climb through the parents ends, at the representative;
* two points have one representative exactly if the merges link them;
* the recorded points are those that were found or merged;
* finding a point gives its representative, records it and nothing else, and
  changes no representative;
* merging `a` with `b` gives back the two representatives, makes `a`, a root or
  not, that of every point of both sets, and leaves all other points alone.
-/
theorem serveAll_partition (requests : List Request) :
    let u := serveAll requests
    (∀ p, ∃ n, Climbs u.parents n p (u.representative p)) ∧
    (∀ p q, u.representative p = u.representative q ↔ EqvGen (Merged requests) p q) ∧
    (∀ p, p ∈ u.points ↔ ∃ r ∈ requests, p ∈ r.records) ∧
    (∀ p, (u.find p).1 = u.representative p ∧
      ∀ q, (u.find p).2.representative q = u.representative q ∧
        (q ∈ (u.find p).2.points ↔ q = p ∨ q ∈ u.points)) ∧
    ∀ a b, (u.union a b).1 = (u.representative a, u.representative b) ∧
      ∀ p, (u.union a b).2.representative p =
        if u.representative p = u.representative a ∨ u.representative p = u.representative b
          then a else u.representative p := by
  intro u
  have hForest : u.IsForest := isForest_serveAll requests
  refine ⟨hForest.climbs, representative_eq_iff_serveAll requests, fun p => ?_,
    fun p => ⟨find_fst u p, fun q => ⟨representative_find hForest p q, ?_⟩⟩,
    fun a b => ⟨union_fst hForest a b, representative_union hForest a b⟩⟩
  · rw [mem_points]
    exact contains_serveAll requests p
  · rw [mem_points, mem_points]
    simp [contains_find]

/-- The point 2 is no root when it is merged with 3, and becomes the representative
of all four points. -/
example : ((serveAll [.union ⟨0⟩ ⟨1⟩, .union ⟨0⟩ ⟨2⟩, .union ⟨2⟩ ⟨3⟩]).points.map
    (serveAll [.union ⟨0⟩ ⟨1⟩, .union ⟨0⟩ ⟨2⟩, .union ⟨2⟩ ⟨3⟩]).representative) =
      [⟨2⟩, ⟨2⟩, ⟨2⟩, ⟨2⟩] := by
  decide +kernel

end TraitInference.UnionFind
