import TraitInference.Report
import TraitInference.Trace.Printer
import TraitInference.Proofs.Grouping

/-!
# TraitInference — the points that are mentioned

Points are numbers, and nothing keeps a program from mentioning one that its arena does
not hold. This module says what a program mentions, and what it takes to be well formed
(`Program.Proper`): whatever it mentions is allocated, and the bounds and instances of a
trait fit together.

* `Below n ps` — all points of `ps` are among the first `n`.
* `mentions` — every point that occurs in a type, a constraint, a program: as a point, as
  the declaration of a nominal type or of a parameter, as a trait, an instance or a
  definition, or as a replacement that a call fixes.
* `Ty.exists_print`, `Arena.Closed.exists_name` — what mentions allocated points only can
  be written.
* `Constraint.Proper`, `Instance.Proper` — what holds of the constraints and assumptions
  of a well-formed program, and of all that solving makes of them.
-/

namespace TraitInference

variable {n m : Nat} {p : Point} {ps qs : List Point}

-- ---------------------------------------------------------------------------
-- Lists of points
-- ---------------------------------------------------------------------------

/-- All points are among the first `n`. -/
def Below (n : Nat) (ps : List Point) : Prop :=
  ∀ p ∈ ps, p.index < n

instance : Decidable (Below n ps) :=
  inferInstanceAs (Decidable (∀ p ∈ ps, p.index < n))

/-- An arena that has grown holds more points. -/
theorem Below.mono (h : Below n ps) (hLe : n ≤ m) : Below m ps :=
  fun p hp => Nat.lt_of_lt_of_le (h p hp) hLe

@[simp]
theorem below_nil : Below n [] := by
  simp [Below]

@[simp]
theorem below_cons : Below n (p :: ps) ↔ p.index < n ∧ Below n ps :=
  List.forall_mem_cons

@[simp]
theorem below_append : Below n (ps ++ qs) ↔ Below n ps ∧ Below n qs :=
  List.forall_mem_append

/-- What is mentioned by a list of things, thing by thing. -/
@[simp]
theorem below_flatMap {α : Type} {f : α → List Point} {l : List α} :
    Below n (l.flatMap f) ↔ ∀ x ∈ l, Below n (f x) := by
  simp only [Below, List.mem_flatMap, forall_exists_index, and_imp]
  exact ⟨fun h x hx p hp => h p x hx hp, fun h p x hx hp => h x hx p hp⟩

-- ---------------------------------------------------------------------------
-- Types
-- ---------------------------------------------------------------------------

/-- The declaration of a nominal type or of a parameter. -/
def Tag.mentions : Tag → List Point
  | .named declaration => [declaration]
  | .parameter q => [q.source]
  | .function | .tuple | .block | .intrinsic | .message _ => []

namespace Ty

mutual

/-- The points of a type and the declarations in its tags. -/
def mentions : Ty → List Point
  | .point p => [p]
  | .con tag children _ => tag.mentions ++ mentionsOfAll children

/-- What a row of types mentions. -/
def mentionsOfAll : List Ty → List Point
  | [] => []
  | t :: ts => t.mentions ++ mentionsOfAll ts

end

/-- A row of types, one by one. -/
theorem below_mentionsOfAll {ts : List Ty} :
    Below n (mentionsOfAll ts) ↔ ∀ t ∈ ts, Below n t.mentions := by
  induction ts with
  | nil => simp [mentionsOfAll]
  | cons t ts ih => simp [mentionsOfAll, ih]

mutual

/-- Replaced points count no more, but what replaces them does. -/
theorem below_mentions_bind {f : Point → Ty} (hf : ∀ p, p.index < n → Below n (f p).mentions) :
    ∀ t : Ty, Below n t.mentions → Below n (t.bind f).mentions
  | .point p, h => hf p (h p List.mem_cons_self)
  | .con tag children emit, h => by
    rw [mentions, below_append] at h
    rw [bind, mentions, below_append]
    exact ⟨h.1, below_mentionsOfAll_bindAll hf children h.2⟩

theorem below_mentionsOfAll_bindAll {f : Point → Ty}
    (hf : ∀ p, p.index < n → Below n (f p).mentions) :
    ∀ ts : List Ty, Below n (mentionsOfAll ts) → Below n (mentionsOfAll (bindAll f ts))
  | [], h => h
  | t :: ts, h => by
    rw [mentionsOfAll, below_append] at h
    rw [bindAll, mentionsOfAll, below_append]
    exact ⟨below_mentions_bind hf t h.1, below_mentionsOfAll_bindAll hf ts h.2⟩

end

-- ---------------------------------------------------------------------------
-- Writing types
-- ---------------------------------------------------------------------------

variable {name : Point → Except Fault String}

mutual

/-- **A type can be written** if its declarations have names. -/
theorem exists_write (hName : ∀ p : Point, p.index < n → ∃ text, name p = .ok text) :
    ∀ (place : Place) (t : Ty), Below n t.mentions → ∃ text, write name place t = .ok text
  | _, .point _, _ => ⟨['_'], by rw [write]⟩
  | place, .con tag children emit, h => by
    rw [mentions, below_append] at h
    have hRow (place : Place) := exists_writeAll hName place children h.2
    -- one case for each way of writing; only nominal types ask for a name
    cases tag with
    | named declaration =>
      obtain ⟨head, hHead⟩ := hName declaration (h.1 _ List.mem_cons_self)
      obtain ⟨texts, hTexts⟩ := hRow .atom
      rw [write, hHead, hTexts]
      exact ⟨_, rfl⟩
    | parameter q => exact ⟨q.name.toList, by rw [write]⟩
    | function =>
      obtain ⟨⟨texts, result⟩, hArrow⟩ := exists_writeArrow hName children h.2
      rw [write, hArrow]
      exact ⟨_, rfl⟩
    | tuple =>
      obtain ⟨texts, hTexts⟩ := hRow .top
      rw [write, hTexts]
      exact ⟨_, rfl⟩
    | block =>
      obtain ⟨texts, hTexts⟩ := hRow .top
      rw [write, hTexts]
      exact ⟨_, rfl⟩
    | intrinsic => exact ⟨_, by rw [write]⟩
    | message text => exact ⟨_, by rw [write]⟩

theorem exists_writeAll (hName : ∀ p : Point, p.index < n → ∃ text, name p = .ok text) :
    ∀ (place : Place) (ts : List Ty), Below n (mentionsOfAll ts) →
      ∃ texts, writeAll name place ts = .ok texts
  | _, [], _ => ⟨[], by rw [writeAll]⟩
  | place, t :: ts, h => by
    rw [mentionsOfAll, below_append] at h
    obtain ⟨text, hText⟩ := exists_write hName place t h.1
    obtain ⟨texts, hTexts⟩ := exists_writeAll hName place ts h.2
    rw [writeAll, hText, hTexts]
    exact ⟨_, rfl⟩

/-- Arguments are written one by one, the result last. -/
theorem exists_writeArrow (hName : ∀ p : Point, p.index < n → ∃ text, name p = .ok text) :
    ∀ ts : List Ty, Below n (mentionsOfAll ts) → ∃ texts, writeArrow name ts = .ok texts
  | [], _ => ⟨_, by rw [writeArrow]⟩
  | [result], h => by
    rw [mentionsOfAll, below_append] at h
    obtain ⟨text, hText⟩ := exists_write hName .top result h.1
    rw [writeArrow, hText]
    exact ⟨_, rfl⟩
  | argument :: next :: rest, h => by
    rw [mentionsOfAll, below_append] at h
    obtain ⟨text, hText⟩ := exists_write hName .atom argument h.1
    obtain ⟨texts, hTexts⟩ := exists_writeArrow hName (next :: rest) h.2
    rw [writeArrow, hText, hTexts]
    exact ⟨_, rfl⟩

end

/-- A type can be printed if its declarations have names. -/
theorem exists_print (hName : ∀ p : Point, p.index < n → ∃ text, name p = .ok text) {t : Ty}
    (h : Below n t.mentions) : ∃ text, t.print name = .ok text := by
  obtain ⟨text, hText⟩ := exists_write hName .top t h
  rw [print, hText]
  exact ⟨_, rfl⟩

end Ty

-- ---------------------------------------------------------------------------
-- Substitutions
-- ---------------------------------------------------------------------------

namespace Substitution

variable {s : Substitution}

/-- The declarations of the parameters, and what the types given for them mention. -/
def mentions (s : Substitution) : List Point :=
  s.toList.flatMap fun entry => entry.1.source :: entry.2.mentions

/-- What a substitution mentions, entry by entry. -/
theorem below_mentions : Below n s.mentions ↔
    ∀ (q : Parameter) (t : Ty), s[q]? = some t → q.source.index < n ∧ Below n t.mentions := by
  simp only [mentions, below_flatMap, below_cons, Prod.forall,
    Std.ExtTreeMap.mem_toList_iff_getElem?_eq_some]

theorem below_mentions_empty : Below n (∅ : Substitution).mentions :=
  below_mentions.mpr fun q t hFound => by simp at hFound

/-- Types that are mapped inside mention nothing new. -/
theorem below_mentions_mapTypes {f : Ty → Ty}
    (hf : ∀ t : Ty, Below n t.mentions → Below n (f t).mentions) (h : Below n s.mentions) :
    Below n (s.mapTypes f).mentions := by
  refine below_mentions.mpr fun q t hFound => ?_
  rw [mapTypes, Std.ExtTreeMap.getElem?_map] at hFound
  obtain ⟨t', ht', rfl⟩ := Option.map_eq_some_iff.mp hFound
  obtain ⟨hq, ht⟩ := below_mentions.mp h q t' ht'
  exact ⟨hq, hf t' ht⟩

theorem below_mentions_values (h : Below n s.mentions) :
    Below n (Ty.mentionsOfAll s.values) := by
  rw [Ty.below_mentionsOfAll, Entries.values_eq]
  intro t ht
  obtain ⟨⟨q, t'⟩, hEntry, rfl⟩ := List.mem_map.mp ht
  exact (below_mentions.mp h q t' (Std.ExtTreeMap.mem_toList_iff_getElem?_eq_some.mp hEntry)).2

end Substitution

-- ---------------------------------------------------------------------------
-- Constraints and programs
-- ---------------------------------------------------------------------------

/-- The point of a bound, its trait, and what its types mention. -/
def Bound.mentions (b : Bound) : List Point :=
  b.source :: b.trait :: b.args.mentions

/-- The node of an instance, its trait, and what its types mention. -/
def Instance.mentions (i : Instance) : List Point :=
  i.node :: i.trait :: i.args.mentions

/-- The point that is given a type, and what the type mentions. -/
def Ascription.mentions (a : Ascription) : List Point :=
  a.node :: a.type.mentions

/-- The call site, the definition, the points whose counterparts are fixed, these
counterparts, and what the types given for parameters mention. -/
def Call.mentions (c : Call) : List Point :=
  c.source :: c.definition :: (c.points.toList.flatMap fun entry => [entry.1, entry.2]) ++
    c.args.mentions

theorem Bound.below_mentions {b : Bound} : Below n b.mentions ↔
    b.source.index < n ∧ b.trait.index < n ∧ Below n b.args.mentions := by
  simp only [mentions, below_cons]

theorem Instance.below_mentions {i : Instance} : Below n i.mentions ↔
    i.node.index < n ∧ i.trait.index < n ∧ Below n i.args.mentions := by
  simp only [mentions, below_cons]

theorem Call.below_mentions {c : Call} : Below n c.mentions ↔
    c.source.index < n ∧ c.definition.index < n ∧
      (∀ p q : Point, c.points[p]? = some q → p.index < n ∧ q.index < n) ∧
      Below n c.args.mentions := by
  simp only [mentions, List.cons_append, below_cons, below_append, below_flatMap, Prod.forall,
    Std.ExtTreeMap.mem_toList_iff_getElem?_eq_some, below_nil, and_true]

namespace Constraint

/-- Whatever the constraint is, and also if it is scoped. -/
def mentions : Constraint → List Point
  | .ascribe a | .fallback a => a.mentions
  | .call c => c.mentions
  | .require b => b.mentions
  | .scoped c => c.mentions

/-- The bound that a constraint states, whether it is to be shown or assumed. -/
def bound? : Constraint → Option Bound
  | .require b => some b
  | .scoped c => c.bound?
  | .ascribe _ | .call _ | .fallback _ => none

/-- A hypothesis is a bound. -/
theorem bound?_of_hypothesis : ∀ {c : Constraint} {b : Bound}, c.hypothesis = some b →
    c.bound? = some b
  | .require b', b, h => by
    rw [hypothesis] at h
    split at h
    · exact h
    · cases h
  | .scoped c, b, h => bound?_of_hypothesis (c := c) h
  | .ascribe _, _, h | .call _, _, h | .fallback _, _, h => by cases h

/-- A bound mentions nothing that its constraint does not. -/
theorem below_mentions_of_bound? : ∀ {c : Constraint} {b : Bound}, c.bound? = some b →
    Below n c.mentions → Below n b.mentions
  | .require _, _, h, hc => Option.some.inj h ▸ hc
  | .scoped c, _, h, hc => below_mentions_of_bound? (c := c) h hc
  | .ascribe _, _, h, _ | .call _, _, h, _ | .fallback _, _, h, _ => by cases h

end Constraint

namespace Program

variable {program : Program}

/-- All constraints of a program. -/
def constraints (program : Program) : List Constraint :=
  program.topLevel ++ program.definitions.toList.flatMap Prod.snd

/-- All bounds of a program, those that it assumes and those that hold in a definition
only included. -/
def bounds (program : Program) : List Bound :=
  program.constraints.filterMap Constraint.bound?

/-- Every point that occurs in a program. -/
def mentions (program : Program) : List Point :=
  program.definitions.keys ++ program.constraints.flatMap Constraint.mentions ++
    program.instances.toList.flatMap fun entry =>
      entry.1 :: entry.2.flatMap Instance.mentions

/-- The constraints of a definition are constraints of the program. -/
theorem mem_constraints_of_definition {d : Point} {c : Constraint}
    (hc : c ∈ program.definition d) : c ∈ program.constraints := by
  unfold definition at hc
  cases hFound : program.definitions[d]? with
  | none => simp [hFound] at hc
  | some cs =>
    rw [hFound, Option.getD_some] at hc
    have hEntry := Std.ExtTreeMap.mem_toList_iff_getElem?_eq_some.mpr hFound
    exact List.mem_append_right _ (List.mem_flatMap.mpr ⟨_, hEntry, hc⟩)

/-- What a constraint of the program mentions, the program mentions. -/
theorem below_mentions_of_mem (h : Below n program.mentions) {c : Constraint}
    (hc : c ∈ program.constraints) : Below n c.mentions := by
  simp only [mentions, below_append, below_flatMap] at h
  exact h.1.2 c hc

theorem below_mentions_instance (h : Below n program.mentions) {trait : Point} {i : Instance}
    (hi : i ∈ program.instancesOf trait) : Below n i.mentions := by
  unfold instancesOf at hi
  cases hFound : program.instances[trait]? with
  | none => simp [hFound] at hi
  | some is =>
    rw [hFound, Option.getD_some] at hi
    simp only [mentions, below_append, below_flatMap, below_cons] at h
    have hEntry := Std.ExtTreeMap.mem_toList_iff_getElem?_eq_some.mpr hFound
    exact (h.2 _ hEntry).2 i hi

end Program

-- ---------------------------------------------------------------------------
-- Arenas
-- ---------------------------------------------------------------------------

namespace Arena

variable {a : Arena}

/-- Copies were made of points that the arena holds. -/
def Closed (a : Arena) : Prop :=
  ∀ (p : Point) (s : Site) (q : Point), a.site p = .ok s → s.copiedFrom = some q → a.Holds q

/-- An allocated point has a text. -/
theorem exists_source (hp : a.Holds p) : ∃ text, a.source p = .ok text := by
  obtain ⟨s, hSite⟩ := exists_site hp
  exact ⟨s.source, by rw [source, hSite]; rfl⟩

theorem exists_sourceWithin (hLe : n ≤ a.size) (hp : p.index < n) :
    ∃ text, a.sourceWithin n p = .ok text := by
  rw [sourceWithin, if_pos hp]
  exact exists_source (Nat.lt_of_lt_of_le hp hLe)

/-- A lineage never leaves the arena, however far it is followed. -/
theorem Closed.exists_lineageFrom (h : a.Closed) (hp : a.Holds p) (fuel : Nat) :
    ∃ line, a.lineageFrom fuel p = .ok line := by
  induction fuel generalizing p with
  | zero => exact ⟨[], rfl⟩
  | succ fuel ih =>
    obtain ⟨s, hSite⟩ := exists_site hp
    rw [lineageFrom, hSite]
    cases hFrom : s.copiedFrom with
    | none => exact ⟨[p], by simp [bind, Except.bind, hFrom]⟩
    -- the point it was copied from is held by a closed arena
    | some q =>
      obtain ⟨line, hLine⟩ := ih (h p s q hSite hFrom)
      exact ⟨p :: line, by simp [bind, Except.bind, hFrom, hLine, Functor.map, Except.map]⟩

/-- **A point that the arena holds has a name.** -/
theorem Closed.exists_name (h : a.Closed) (hp : a.Holds p) : ∃ text, a.name p = .ok text := by
  obtain ⟨text, hText⟩ := exists_source hp
  obtain ⟨line, hLine⟩ := h.exists_lineageFrom hp (a.size + 1)
  rw [name, hText, lineage, hLine]
  exact ⟨_, rfl⟩

/-- A copy is made of a point that the arena holds. -/
theorem Closed.copies {a' : Arena} (h : a.Closed) (hCopies : a.Copies a') : a'.Closed := by
  intro p s q hSite hFrom
  have hGrown : a.Grown a' := .single hCopies
  by_cases hp : a.Holds p
  · rw [hCopies.site_eq hp] at hSite
    exact hGrown.holds q (h p s q hSite hFrom)
  · -- the only new point is the copy
    obtain ⟨template, site, copy, hCopy⟩ := hCopies
    obtain ⟨known, hKnown, -⟩ := copy_eq_ok_iff.mp hCopy
    obtain rfl := eq_of_copy hCopy (holds_of_site hSite) hp
    rw [site_of_copy hCopy hKnown] at hSite
    obtain rfl := Except.ok.inj hSite
    obtain rfl := Option.some.inj hFrom
    exact hGrown.holds _ (holds_of_site hKnown)

/-- Copying keeps an arena closed. -/
theorem Closed.grown {a' : Arena} (h : a.Closed) (hGrown : a.Grown a') : a'.Closed := by
  induction hGrown with
  | refl => exact h
  | tail _ hCopies ih => exact ih.copies hCopies

end Arena

/-- **A program that the solver can be given**, in an arena of `n` points: whatever it
mentions is allocated, all bounds of a trait give types for the same parameters, and the
instances of the trait give types for no others. -/
structure Program.Proper (program : Program) (n : Nat) : Prop where
  allocated : Below n program.mentions
  alike     : ∀ b ∈ program.bounds, ∀ b' ∈ program.bounds, b.trait = b'.trait →
    ∀ q, b.args.contains q = b'.args.contains q
  covered   : ∀ b ∈ program.bounds, ∀ i ∈ program.instancesOf b.trait,
    ∀ q, i.args.contains q = true → b.args.contains q = true

/-- A well-formed program is well formed in an arena that has grown. -/
theorem Program.Proper.mono {program : Program} (h : program.Proper n) (hLe : n ≤ m) :
    program.Proper m :=
  ⟨h.allocated.mono hLe, h.alike, h.covered⟩

-- ---------------------------------------------------------------------------
-- What solving makes of a program
-- ---------------------------------------------------------------------------

/-- The program has a bound for the same trait with the same parameters. -/
def Program.Declares (program : Program) (trait : Point) (args : Substitution) : Prop :=
  ∃ b ∈ program.bounds, b.trait = trait ∧ ∀ q, args.contains q = b.args.contains q

/-- A constraint on the first `n` points, with parameters as the program has them. -/
structure Constraint.Proper (program : Program) (n : Nat) (c : Constraint) : Prop where
  below    : Below n c.mentions
  declared : ∀ b, c.bound? = some b → program.Declares b.trait b.args

/-- An instance on the first `n` points, with the parameters that the bounds of its trait
have. What a definition assumes is of this kind. -/
structure Instance.Proper (program : Program) (n : Nat) (i : Instance) : Prop where
  below    : Below n i.mentions
  declared : program.Declares i.trait i.args

theorem Constraint.Proper.mono {program : Program} {c : Constraint} (h : c.Proper program n)
    (hLe : n ≤ m) : c.Proper program m :=
  ⟨h.below.mono hLe, h.declared⟩

theorem Instance.Proper.mono {program : Program} {i : Instance} (h : i.Proper program n)
    (hLe : n ≤ m) : i.Proper program m :=
  ⟨h.below.mono hLe, h.declared⟩

/-- The constraints of the program itself; a bound of theirs is its own declaration. -/
theorem Program.proper_of_mem {program : Program} (h : Below n program.mentions) {c : Constraint}
    (hc : c ∈ program.constraints) : c.Proper program n :=
  ⟨below_mentions_of_mem h hc,
    fun b hb => ⟨b, List.mem_filterMap.mpr ⟨c, hc, hb⟩, rfl, fun _ => rfl⟩⟩

namespace Program.Proper

variable {program : Program} {trait : Point} {args args' : Substitution}
  {q : Parameter}

theorem constraint (h : program.Proper n) {c : Constraint} (hc : c ∈ program.constraints) :
    c.Proper program n :=
  proper_of_mem h.allocated hc

/-- What a definition assumes has the parameters of a bound, as it is one. -/
theorem hypothesis (h : program.Proper n) {c : Constraint} (hc : c ∈ program.constraints)
    {b : Bound} (hb : c.hypothesis = some b) :
    (Instance.ofHypothesis b).Proper program n := by
  have hBound := Constraint.bound?_of_hypothesis hb
  have hProper := h.constraint hc
  exact ⟨Constraint.below_mentions_of_bound? hBound hProper.below, hProper.declared b hBound⟩

/-- All bounds of a trait have the same parameters, also the copies that solving makes. -/
theorem contains_eq (h : program.Proper n) (hDeclared : program.Declares trait args)
    (hDeclared' : program.Declares trait args') : args.contains q = args'.contains q := by
  obtain ⟨b, hb, hTrait, hKeys⟩ := hDeclared
  obtain ⟨b', hb', hTrait', hKeys'⟩ := hDeclared'
  rw [hKeys, hKeys', h.alike b hb b' hb' (hTrait.trans hTrait'.symm)]

/-- **An instance gives no type for a parameter that the bound lacks.** -/
theorem contains_of_instance (h : program.Proper n) (hDeclared : program.Declares trait args)
    {i : Instance} (hi : i ∈ program.instancesOf trait) (hq : i.args.contains q = true) :
    args.contains q = true := by
  obtain ⟨b, hb, rfl, hKeys⟩ := hDeclared
  rw [hKeys]
  exact h.covered b hb i hi q hq

end Program.Proper

end TraitInference
