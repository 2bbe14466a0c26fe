import LiveSheet.Sheet
import LiveSheet.Value.Json

/-!
# Recalculation

A node is brought up to date in three stages. First the references of its expression are looked up,
and the edges of the node are set to what it reads; a node that reads itself, or from which a cycle
can be reached, is unresolved and gets the matching error kind. Then the fingerprint, which is the
expression with the results that it reads, is compared with that of the last evaluation, whose
result still holds if they agree. Otherwise the expression is evaluated, unless one of the results
that it reads is an error kind, which the node takes over.

A node publishes what it has come to, so that its dependents follow. An unresolved node does so only
if it has not published the same before, or a cycle would never come to rest.
-/

namespace LiveSheet.Sheet

/-! ### References and edges -/

/-- The nodes that some headers refer to, each once, after those already found. There is no answer
if a header refers to the node `id` itself. -/
def resolve? (g : Graph NodeId) (id : NodeId) (found : List NodeId) :
    List String → Option (List NodeId)
  | [] => some found
  | header :: rest =>
    match g.findByHeader (some header) with
    | none => resolve? g id found rest
    | some (target, _) =>
      if target = id then none
      else resolve? g id (if target ∈ found then found else found ++ [target]) rest

/-- Replaces the edges of a node to what it has read by edges to what it reads now. -/
def relink (s : Sheet) (id : NodeId) (before now : List NodeId) : Sheet :=
  let unlinked := before.foldl (·.removeDependency id ·) s.graph
  { s.modify id fun c => { c with reads := now } with graph := now.foldl (·.link id ·) unlinked }

/-- Sets the edges of a node to what its expression reads. A node that is unresolved gets its error
kind, which is returned. -/
def updateDependencies (env : Environment) (s : Sheet) (id : NodeId) :
    Sheet × Option ErrorKind :=
  match s.calculator? id with
  | none => (s, none)
  | some c =>
    match resolve? s.graph id [] (env.references c.expression) with
    | none =>
      ((s.relink id c.reads []).setResult id (.failed .selfReference), some .selfReference)
    | some reads =>
      let s := s.relink id c.reads reads
      if s.graph.reachesCycle id then
        (s.setResult id (.failed .circularDependency), some .circularDependency)
      else (s, none)

/-! ### Fingerprints and scopes -/

/-- The result of a node as others see it, 0 if it is not registered. -/
def resultSeen (g : Graph NodeId) (id : NodeId) : Value :=
  match g.node? id with
  | some record => record.result
  | none => .int 0

/-- The text of an expression with the results that it reads. -/
def fingerprintOf (expression : String) (results : List Value) : String :=
  expression ++ (Value.list results).json

/-- The fingerprint of a calculator in a graph. -/
def fingerprint (g : Graph NodeId) (c : Calculator) : String :=
  fingerprintOf c.expression (c.reads.map (resultSeen g))

/-- The results of some nodes by their headers, or the first error kind among them. -/
def gather (g : Graph NodeId) : (scope : Scope) → List NodeId → Except ErrorKind Scope
  | scope, [] => .ok scope
  | scope, id :: rest =>
    match g.node? id with
    | none => gather g scope rest
    | some record =>
      match ErrorKind.ofValue? record.result with
      | some kind => .error kind
      | none => gather g (scope.insert (record.header.getD "") record.result) rest

/-! ### Results -/

/-- Keeps and publishes the result that belongs to a fingerprint. -/
def conclude (s : Sheet) (id : NodeId) (print : String) (result : Result) : Sheet :=
  let s := s.modify id fun c => { c with cached := some (print, result), published := none }
  (s.setResult id result).publish id

/-- Publishes the error kind of an unresolved node, unless it has been published before with the
same fingerprint. -/
def concludeUnresolved (s : Sheet) (id : NodeId) (c : Calculator) (print : String)
    (kind : ErrorKind) : Sheet :=
  if c.published = some (print, kind) then s.modify id fun c => { c with cached := none }
  else
    let s := s.modify id fun c => { c with cached := none, published := some (print, kind) }
    s.publish id

/-- Enters an evaluation into the journal. -/
def noteEvaluation (s : Sheet) (expression : String) (scope : Scope) : Sheet :=
  { s with
    journal := { s.journal with evaluations := s.journal.evaluations ++ [(expression, scope)] } }

/-- What an expression comes to as a result of a node. -/
def evaluate (env : Environment) (expression : String) (scope : Scope) :
    Except NumberError Result :=
  match env.evaluate expression scope with
  | .ok v => Result.finalize env.precision v
  | .error e => .error e

/-- Evaluates a node whose edges are set. -/
def reevaluate (env : Environment) (s : Sheet) (id : NodeId) (c : Calculator) (print : String) :
    Sheet × Except NumberError Result :=
  match gather s.graph .empty c.reads with
  | .error kind => (s.conclude id print (.failed kind), .ok (.failed kind))
  | .ok scope =>
    let s := s.noteEvaluation c.expression scope
    match evaluate env c.expression scope with
    | .ok result => (s.conclude id print result, .ok result)
    | .error e => (s, .error e)

/-- Brings a node up to date and publishes what it has come to. A node that is not registered any
more keeps its result. -/
def recalculate (env : Environment) (s : Sheet) (id : NodeId) :
    Sheet × Except NumberError Result :=
  match s.calculator? id with
  | none => (s, .ok default)
  | some c =>
    if (s.graph.node? id).isNone then (s, .ok c.result)
    else
      let (s, unresolved) := updateDependencies env s id
      let c := (s.calculator? id).getD c
      let print := fingerprint s.graph c
      match unresolved with
      | some kind => (s.concludeUnresolved id c print kind, .ok (.failed kind))
      | none =>
        match c.cached with
        | some (last, result) =>
          if last = print then (s.modify id fun c => { c with result }, .ok result)
          else reevaluate env s id c print
        | none => reevaluate env s id c print

/-- Does a task. What a node raises is lost with it, and the others go on. -/
def perform (env : Environment) : SheetTask → Sheet → Sheet
  | .recalculate id, s => (recalculate env s id).1
  | .follow ids, s => callEach (fun id s => recalculate env s id) ids s

/-- The worker that does the tasks of a sheet. -/
def worker (env : Environment) : Worker Sheet NodeId SheetTask where
  agenda := (·.agenda)
  withAgenda s agenda := { s with agenda }
  perform := perform env

end LiveSheet.Sheet
