import LiveSheet.Agenda.Worker
import LiveSheet.Evaluation.Chain
import LiveSheet.Graph.Propagation
import LiveSheet.Result.Rounding

/-!
# Sheets

A sheet is a graph of nodes together with the calculators of nodes. A calculator has an expression
and keeps the result of its node; the record in the graph shows the result to the other nodes. What
remains to be done is on the agenda of the sheet, and what has been evaluated and published is in
its journal.
-/

namespace LiveSheet

/-- How a sheet reads and evaluates expressions. -/
structure Environment where
  /-- The headers that an expression refers to, in order of first mention. -/
  references : String → List String
  /-- What an expression comes to. -/
  evaluate : String → Scope → Except NumberError Value
  /-- The decimals to which results are rounded. -/
  precision : Numeric

/-- The environment of a registry, with evaluators in line and a calculus for trees. -/
def Environment.ofCalculus {α : Type} (k : Calculus α) (r : Registry) (line : List Evaluator)
    (precision : Numeric) : Environment where
  references := r.references
  evaluate text scope := (k.evaluateSource r line (.text text) scope).map Result.toValue
  precision := precision

/-- The environment of a registry with the evaluator on a stack alone. -/
def Environment.ofStack (r : Registry) (precision : Numeric) : Environment where
  references := r.references
  evaluate text scope := (r.evaluate (r.tokens text) scope).map Result.toValue
  precision := precision

/-- What computes a node. -/
structure Calculator where
  expression : String
  /-- How long the node waits for further edits. -/
  delay : Int
  result : Result := .number 0
  /-- The nodes that the expression reads, in order of first mention. -/
  reads : List NodeId := []
  /-- The result of the last evaluation, with the fingerprint it belongs to. -/
  cached : Option (String × Result) := none
  /-- The error kind of an unresolved node that was published last, with its fingerprint. -/
  published : Option (String × ErrorKind) := none

/-- A task on the agenda of a sheet. -/
inductive SheetTask where
  /-- A node is recalculated after a pause in editing it. -/
  | recalculate (id : NodeId)
  /-- The nodes that follow a change are recalculated, one after the other. -/
  | follow (ids : List NodeId)
deriving Repr, DecidableEq

/-- What has happened on a sheet. -/
structure Journal where
  /-- The evaluated expressions with their scopes. -/
  evaluations : List (String × Scope) := []
  /-- The nodes that have published a change, with the results shown then. -/
  publications : List (NodeId × Option Value) := []

/-- Nodes, their calculators, and what remains to be done. -/
structure Sheet where
  graph : Graph NodeId := {}
  calculators : Table NodeId Calculator := .empty
  agenda : Agenda NodeId SheetTask := {}
  journal : Journal := {}

namespace Sheet

/-- The sheet without nodes. -/
def empty : Sheet :=
  {}

/-- The calculator of a node. -/
def calculator? (s : Sheet) (id : NodeId) : Option Calculator :=
  s.calculators.get? id

/-- Changes the calculator of a node. -/
def modify (s : Sheet) (id : NodeId) (f : Calculator → Calculator) : Sheet :=
  { s with calculators := s.calculators.modify id f }

/-- Adds a calculator that has not computed anything. -/
def addCalculator (s : Sheet) (id : NodeId) (expression : String) (delay : Int) : Sheet :=
  { s with calculators := s.calculators.insert id { expression, delay } }

/-- Registers a node in the graph; one that follows changes is recalculated by them. -/
def register (s : Sheet) (id : NodeId) (header : Option String) (follows : Bool) : Sheet :=
  { s with
    graph := s.graph.register id
      [.header header, .callback (if follows then some id else none)] }

/-- Replaces the expression of a node. -/
def setExpression (s : Sheet) (id : NodeId) (expression : String) : Sheet :=
  s.modify id fun c => { c with expression }

/-- Gives a node a result, and shows it to the others. -/
def setResult (s : Sheet) (id : NodeId) (result : Result) : Sheet :=
  { s.modify id fun c => { c with result } with
    graph := s.graph.update id [.result result.toValue] }

/-- Sets off what a change of a node sets off. -/
def publish (s : Sheet) (id : NodeId) : Sheet :=
  let shown := (s.graph.node? id).map (·.result)
  { s with
    journal := { s.journal with publications := s.journal.publications ++ [(id, shown)] }
    agenda := (s.graph.wave id).enqueue .follow s.agenda }

/-- Has a node recalculated once its delay has passed without another call. -/
def debounce (s : Sheet) (id : NodeId) : Sheet :=
  match s.calculator? id with
  | some c => { s with agenda := s.agenda.debounce id c.delay (.recalculate id) }
  | none => s

end Sheet

end LiveSheet
