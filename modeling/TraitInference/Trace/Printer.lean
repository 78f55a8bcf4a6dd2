import TraitInference.Text.Lines
import TraitInference.Trace.Event

/-!
# TraitInference — how a trace is written

One sentence for each event, and one for the end of each span. It gives the
level, the open spans from the outermost on, the event, and the details of the
spans, and takes up one line unless a name in it contains line breaks. Only what
is at most as detailed as the chosen level is written, and only then are the
types in it looked at.
-/

namespace TraitInference.Trace

/-- Levels of detail, from the coarsest to the finest. -/
inductive Level
  | error
  | warn
  | info
  | debug
  | trace
deriving DecidableEq

namespace Level

/-- The place of a level in their order. -/
def rank : Level → Nat
  | .error => 0
  | .warn => 1
  | .info => 2
  | .debug => 3
  | .trace => 4

/-- The name of a level. -/
def label : Level → String
  | .error => "ERROR"
  | .warn => "WARN"
  | .info => "INFO"
  | .debug => "DEBUG"
  | .trace => "TRACE"

/-- Whether something of level `l` is shown when `limit` is the finest level asked for. -/
def isShown (l limit : Level) : Bool :=
  l.rank ≤ limit.rank

end Level

/-- The level of spans. -/
def Span.level : Level := .info

/-- The name of a span. -/
def Span.name : Span → String
  | .session .. => "solve_session"
  | .bound _ => "resolve_bound"
  | .call .. => "instantiate"
  | .unify => "unify"

/-- A detail of an event or a span. -/
def field (key value : String) : String :=
  key ++ "=" ++ value

/-- The details of a span. -/
def Span.fields : Span → List String
  | .session definition name =>
    [field "definition" (Point.labelOption definition), field "name" name]
  | .bound source => [field "source" source.label]
  | .call source definition =>
    [field "source" source.label, field "definition" definition.label]
  | .unify => []

/-- The level of an event. -/
def Event.level : Event → Level
  | .run .. | .ascribe .. | .defaultSkipped _ | .copying _ | .selfReference | .hypothesis
  | .rejected _ | .noted (.recursive _) => .trace
  | .seek _ | .tried .. | .resolved .. | .unresolved | .finished .. | .noted (.conflict ..) =>
    .debug

/-- The words of an event: its message, if it has one, and its details. -/
def Event.words (name : Point → Except Fault String) : Event → Except Fault (List String)
  | .run stage remaining =>
    .ok ["run", field "stage" stage.label, field "remaining" (toString remaining)]
  | .ascribe node type => do
    let text ← type.print name
    return [field "node" node.label, field "ty" text]
  | .defaultSkipped node => .ok ["default skipped", field "node" node.label]
  | .noted (.conflict left right) =>
    .ok ["conflict", field "left" left.label, field "right" right.label]
  | .noted (.recursive representative) =>
    .ok ["recursive type dropped", field "representative" representative.label]
  | .copying count => .ok [field "count" (toString count)]
  | .selfReference => .ok ["trait self-reference"]
  | .hypothesis => .ok ["hypothesis"]
  | .seek b => do
    let text ← b.print name
    return [field "bound" text]
  | .rejected node => .ok ["rejected", field "instance" node.label]
  | .tried tier candidates =>
    .ok [field "tier" tier.label, field "candidates" (toString candidates)]
  | .resolved tier node =>
    .ok ["resolved", field "tier" tier.label, field "instance" node.label]
  | .unresolved => .ok ["unresolved"]
  | .finished groups bounds =>
    .ok ["finished", field "groups" (toString groups), field "bounds" (toString bounds)]

/-- A sentence of the trace, inside `spans`, the outermost first. -/
def sentence (level : Level) (spans : List Span) (words : List String) : String :=
  let place := match spans with
    | [] => []
    | _ => [":".intercalate (spans.map Span.name) ++ ":"]
  " ".intercalate (level.label :: place ++ words ++ spans.flatMap Span.fields)

/-- Writes the entries of a log, oldest first, inside the open `spans`, the
innermost first. -/
def sentencesFrom (limit : Level) (a : Arena) : List Span → List Entry → Except Fault (List String)
  | _, [] => .ok []
  | spans, .enter s :: rest => sentencesFrom limit a (s :: spans) rest
  | spans, .leave :: rest => do
    let texts ← sentencesFrom limit a spans.tail rest
    return if Span.level.isShown limit then
      sentence Span.level spans.reverse ["close"] :: texts
    else texts
  | spans, .event e size :: rest =>
    if e.level.isShown limit then do
      let words ← e.words (a.sourceWithin size)
      let texts ← sentencesFrom limit a spans rest
      return sentence e.level spans.reverse words :: texts
    else sentencesFrom limit a spans rest

/-- The lines of a log, given newest entry first, up to a level of detail. -/
def lines (limit : Level) (a : Arena) (log : List Entry) : Except Fault (List String) := do
  return (← sentencesFrom limit a [] log.reverse).flatMap Text.lines

end TraitInference.Trace
