import TraitInference.Fault

/-!
# TraitInference — the arena of points

The arena remembers, for every allocated point, where it stands in the source
text, what is written there, which definition it belongs to, and, for a
**copy**, which point it was copied from and for which call site. Points are
never removed or changed: the arena only grows.

* `Arena.alloc`, `Arena.copy` — the two ways to grow.
* `Arena.site` and its projections — lookups, which fault outside the arena.
* `Arena.lineage` — a point, the point it was copied from, and so on.
* `Arena.inSourceOrder` — arranges items by the source position of a point.
-/

namespace TraitInference

/-- A stretch of source text, from `start` up to `stop`. -/
structure Span where
  start : Nat
  stop : Nat
deriving DecidableEq, Inhabited

/-- What the arena knows about one point. -/
structure Site where
  span : Span
  /-- The text written there. -/
  source : String
  /-- The definition whose body the point belongs to. -/
  owner : Option Point := none
  /-- The point this one is a copy of. -/
  copiedFrom : Option Point := none
  /-- The call site on whose behalf the copy was made. -/
  copiedBy : Option Point := none
deriving DecidableEq, Inhabited

-- ---------------------------------------------------------------------------
-- Source positions
-- ---------------------------------------------------------------------------

/-- Where a point stands: by start, then by end, then by allocation. -/
structure Position where
  start : Nat
  stop : Nat
  index : Nat
deriving DecidableEq, Inhabited

namespace Position

/-- Lexicographic comparison of the three fields. -/
def cmp : Position → Position → Ordering :=
  compareLex (compareOn Position.start)
    (compareLex (compareOn Position.stop) (compareOn Position.index))

instance : Ord Position := ⟨cmp⟩

instance : Std.TransOrd Position :=
  inferInstanceAs (Std.TransCmp (compareLex (compareOn Position.start)
    (compareLex (compareOn Position.stop) (compareOn Position.index))))

instance : Std.LawfulEqOrd Position where
  eq_of_compare {a b} h := by
    have hCmp : cmp a b = .eq := h
    simp only [cmp, compareLex_eq_eq, compareOn, Nat.compare_eq_eq] at hCmp
    cases a
    cases b
    simp_all

/-- Whether `a` stands strictly before `b`. -/
def isBefore (a b : Position) : Bool :=
  (compare a b).isLT

end Position

-- ---------------------------------------------------------------------------
-- The arena
-- ---------------------------------------------------------------------------

/-- All points allocated so far, by number. -/
structure Arena where
  sites : Array Site := #[]
deriving DecidableEq, Inhabited

namespace Arena

/-- The number of allocated points. -/
def size (a : Arena) : Nat :=
  a.sites.size

/-- Every allocated point, in order. -/
def points (a : Arena) : List Point :=
  (List.range a.size).map Point.mk

/-- Allocates a point for `s`. -/
def alloc (a : Arena) (s : Site) : Point × Arena :=
  (⟨a.size⟩, ⟨a.sites.push s⟩)

/-- What is known about `p`; a fault if `p` is not allocated. -/
def site (a : Arena) (p : Point) : Except Fault Site :=
  match a.sites[p.index]? with
  | some s => .ok s
  | none => .error (.unallocated a.size p)

@[simp]
theorem size_alloc (a : Arena) (s : Site) : (a.alloc s).2.size = a.size + 1 := by
  simp [alloc, size]

/-- Allocation leaves the older points as they are. -/
theorem site_alloc_of_lt {a : Arena} {p : Point} (s : Site) (h : p.index < a.size) :
    (a.alloc s).2.site p = a.site p := by
  have hSize : p.index < a.sites.size := h
  simp [alloc, site, Array.getElem?_push, Nat.ne_of_lt hSize, hSize]

@[simp]
theorem site_alloc_self (a : Arena) (s : Site) : (a.alloc s).2.site (a.alloc s).1 = .ok s := by
  simp [alloc, site, size]

/-- The definition whose body `p` belongs to. -/
def owner (a : Arena) (p : Point) : Except Fault (Option Point) :=
  (·.owner) <$> a.site p

/-- The text written at `p`. -/
def source (a : Arena) (p : Point) : Except Fault String :=
  (·.source) <$> a.site p

/-- The text written at `p`, asked when only the first `size` points were allocated. -/
def sourceWithin (a : Arena) (size : Nat) (p : Point) : Except Fault String :=
  if p.index < size then a.source p else .error (.unallocated size p)

/-- Where `p` stands in the source text. -/
def position (a : Arena) (p : Point) : Except Fault Position :=
  (fun s => ⟨s.span.start, s.span.stop, p.index⟩) <$> a.site p

/-- Allocates a copy of `template` on behalf of `site`: it keeps the template's
text, place and owner, and remembers both points. -/
def copy (a : Arena) (template site : Point) : Except Fault (Point × Arena) :=
  (fun s => a.alloc { s with copiedFrom := some template, copiedBy := some site })
    <$> a.site template

/-- Follows `copiedFrom` from `p` through at most `fuel` points. -/
def lineageFrom (a : Arena) : Nat → Point → Except Fault (List Point)
  | 0, _ => .ok []
  | fuel + 1, p => do
    let s ← a.site p
    match s.copiedFrom with
    | none => .ok [p]
    | some q => (p :: ·) <$> a.lineageFrom fuel q

/-- The point `p`, the point it was copied from, and so on up to a point that
is no copy. A copy is always younger than its template, so a lineage is at most
as long as the arena. -/
def lineage (a : Arena) (p : Point) : Except Fault (List Point) :=
  a.lineageFrom (a.size + 1) p

/-- The uncopied point at the end of the lineage of `p`. -/
def origin (a : Arena) (p : Point) : Except Fault Point :=
  (fun line => line.getLastD p) <$> a.lineage p

/-- The text written at `p`, primed once for each time it was copied. -/
def name (a : Arena) (p : Point) : Except Fault String := do
  let text ← a.source p
  let line ← a.lineage p
  return text ++ String.join (List.replicate (line.length - 1) "'")

/-- The one copy of `template` that was made on behalf of `site`. -/
def copyFor (a : Arena) (template site : Point) : Except Fault Point :=
  let copies := a.points.filter fun p =>
    match a.sites[p.index]? with
    | some s => s.copiedFrom == some template && s.copiedBy == some site
    | none => false
  match copies with
  | [p] => .ok p
  | _ => .error (.copyCount template site copies)

/-- Arranges items by the source position of the point that `key` gives them,
one item a position. A single item is in order wherever it stands, so its point
is not looked up. -/
def inSourceOrder {α : Type} (a : Arena) (key : α → Point) : List α → Except Fault (List α)
  | [] => .ok []
  | [x] => .ok [x]
  | xs => do
    let placed ← xs.mapM fun x => do return (← a.position (key x), x)
    return (Std.ExtTreeMap.ofList placed compare).values

end Arena

end TraitInference
