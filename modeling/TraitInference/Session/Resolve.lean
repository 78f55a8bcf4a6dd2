import TraitInference.Session.Basic

/-!
# TraitInference — the search for an instance

A bound is resolved by trial. Every candidate of a tier is tried on a fork of
the session of its own: the instance is copied for the bound's point, the
constraints that come before bounds are worked off, and the types it gives for
the supplied parameters are unified with those of the bound. A candidate fits
when its fork shows no conflict. The first tier in which exactly one candidate
fits decides: that fork replaces the session, and the types that the instance
gives for the inferred parameters are unified with those of the bound. If there
is no such tier the bound is unresolved and nothing of the trials remains but
the points they allocated.
-/

namespace TraitInference

/-- A candidate that fits. -/
structure Candidate where
  candidate : Instance
  /-- The fork on which it was tried. -/
  branch : Session
  /-- The types it gives for the inferred parameters. -/
  found : Substitution

namespace Session

/-- Compares the types that an instance gives with those of the bound: those of
the supplied parameters are unified, those of the inferred ones collected. -/
def matchArgs (depth : Nat) (b : Bound) (node : Point) :
    List (Parameter × Ty) → Session → Substitution → SolveM (Session × Substitution)
  | [], s, found => return (s, found)
  | (q, t) :: rest, s, found => do
    match b.args.supplied[q]? with
    | some expected =>
      let s ← s.unify depth expected t
      matchArgs depth b node rest s found
    | none =>
      if b.args.inferred.contains q then matchArgs depth b node rest s (found.insert q t)
      else throw (.fault (.foreignParameter q.name node))

/-- Copies an instance for a bound, and works off by `settle` what comes before
bounds; also gives the types of the copy. -/
def instantiate (program : Program) (settle : Session → SolveM Session) (b : Bound)
    (i : Instance) (s : Session) : SolveM (Session × Substitution) := do
  let (cs, copier) ← (Call.ofSource b.source i.node ∅).unfold program
  let (args, _) ← SolveM.copy copier (CopyM.substitution i.args)
  let s ← settle { s with agenda := s.agenda.extend cs }
  return (s, args)

/-- A fork of the session on which an instance is to be tried, and the types that
the instance gives. What is assumed is taken as it stands. -/
def prepare (program : Program) (settle : Session → SolveM Session) (b : Bound) (tier : Tier)
    (i : Instance) (s : Session) : SolveM (Session × Substitution) :=
  match tier with
  | .implied => return (s.fork, i.args)
  | _ => s.fork.instantiate program settle b i

/-- Tries an instance. -/
def attempt (depth : Nat) (program : Program) (settle : Session → SolveM Session) (b : Bound)
    (tier : Tier) (i : Instance) (s : Session) : SolveM (Option Candidate) := do
  let (branch, args) ← s.prepare program settle b tier i
  let (branch, found) ← branch.matchArgs depth b i.node args.toList ∅
  if branch.unification.hasError then
    SolveM.emit (.rejected i.node)
    return none
  else return some { candidate := i, branch, found }

/-- The only candidate of the first tier that has exactly one. -/
def firstUnique (trial : Tier → Instance → SolveM (Option Candidate)) :
    List (Tier × List Instance) → SolveM (Option (Tier × Candidate))
  | [] => return none
  | (tier, instances) :: rest => do
    let fitting := (← instances.mapM (trial tier)).reduceOption
    SolveM.emit (.tried tier fitting.length)
    match fitting with
    | [c] => return some (tier, c)
    | _ => firstUnique trial rest

/-- The instances to try for a bound. -/
def tiers (program : Program) (b : Bound) (s : Session) : List (Tier × List Instance) :=
  let known := program.instancesOf b.trait
  [(.implied, s.implied.filter (·.trait == b.trait)),
    (.ordinary, known.filter (!·.isDefault)),
    (.default, known.filter (·.isDefault))]

/-- Unifies the types found for the inferred parameters with those of the bound. -/
def adopt (depth : Nat) (b : Bound) : List (Parameter × Ty) → Session → SolveM Session
  | [], s => return s
  | (q, t) :: rest, s => do
    match b.args.inferred[q]? with
    | some slot => adopt depth b rest (← s.unify depth slot t)
    | none => adopt depth b rest s

/-- Keeps the types given for a bound for the end of the session and, unless the
bound was only assumed to hold, what became of it. -/
def close (b : Bound) (outcome : Option Outcome) (s : Session) : Session :=
  let (deferred, unification) := s.unification.defer b.args
  { s with
    unification
    resolutions := s.resolutions ++ (outcome.map fun o => ⟨b, deferred, o⟩).toList }

/-- Goes on with the fork of a candidate, and with what it has found. -/
def accept (depth : Nat) (b : Bound) (tier : Tier) (c : Candidate) (s : Session) :
    SolveM Session := do
  let s ← (s.commit c.branch).adopt depth b c.found.toList
  SolveM.emit (.resolved tier c.candidate.node)
  return s.close b <| match tier with
    | .implied => none
    | _ => some (.resolved c.candidate.node c.candidate.isError)

/-- Searches for an instance and goes on with the one that is found. -/
def seek (depth : Nat) (program : Program) (settle : Session → SolveM Session) (b : Bound)
    (s : Session) : SolveM Session := do
  SolveM.emit (.seek b)
  match ← firstUnique (fun tier i => s.attempt depth program settle b tier i)
      (s.tiers program b) with
  | none =>
    SolveM.emit .unresolved
    return s.close b (some .unresolved)
  | some (tier, c) => s.accept depth b tier c

/-- Works off a bound. A trait's own declaration asks for nothing, and a
hypothesis is not to be shown where it is assumed. -/
def resolve (depth : Nat) (program : Program) (settle : Session → SolveM Session) (b : Bound)
    (s : Session) : SolveM Session :=
  SolveM.within (.bound b.source) do
    if b.source == b.trait && !b.copied then
      SolveM.emit .selfReference
      return s
    else if b.isHypothesis then
      SolveM.emit .hypothesis
      return s
    else s.seek depth program settle b

end Session

end TraitInference
