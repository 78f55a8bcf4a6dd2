import TraitInference.Point

/-!
# TraitInference — lookups in tables keyed by points

What a table holds after an insertion or a removal, and a set after an
insertion, said with equality of points instead of their comparison.
-/

namespace TraitInference.PointMap

variable {α : Type}

private theorem compare_eq_iff (p q : Point) : compare p q = .eq ↔ q = p := by
  rw [Std.LawfulEqOrd.compare_eq_iff_eq]
  exact eq_comm

/-- What a table holds after an insertion. -/
theorem getElem?_insert (m : PointMap α) (p q : Point) (v : α) :
    (m.insert p v)[q]? = if q = p then some v else m[q]? := by
  rw [Std.ExtTreeMap.getElem?_insert]
  simp only [compare_eq_iff]

/-- What a table holds after a removal. -/
theorem getElem?_erase (m : PointMap α) (p q : Point) :
    (m.erase p)[q]? = if q = p then none else m[q]? := by
  rw [Std.ExtTreeMap.getElem?_erase]
  simp only [compare_eq_iff]

end TraitInference.PointMap

namespace TraitInference.PointSet

theorem mem_insert {s : PointSet} {p q : Point} : q ∈ s.insert p ↔ q = p ∨ q ∈ s := by
  rw [Std.ExtTreeSet.mem_insert, Std.LawfulEqOrd.compare_eq_iff_eq, eq_comm]

end TraitInference.PointSet
