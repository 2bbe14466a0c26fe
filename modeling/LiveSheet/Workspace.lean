import LiveSheet.Completion
import LiveSheet.Record
import LiveSheet.Sheet.Recalculation
import LiveSheet.Workspace.Setup

/-!
# Workspaces

A workspace is a sheet whose nodes are made, edited, renamed and removed by hand. Every such change
recalculates the nodes that it touches at once: the node itself, and those that mention a header
which now means another node. What follows from there on is left to the agenda of the sheet.

An id is never given twice. A node that comes without header gets one that no other node has.
-/

namespace LiveSheet

/-- The nodes of a workspace, and how many there have ever been. -/
structure Workspace where
  sheet : Sheet := {}
  created : Nat := 0

/-- Why a workspace does not do what it is asked for. -/
inductive WorkspaceError where
  | unknownNode (id : NodeId)
  | number (e : NumberError)
  | records (e : RecordsError)
  | suggestionLimit

/-- The message of an error. -/
def WorkspaceError.message : WorkspaceError → String
  | unknownNode id => "Unknown node: " ++ Text.quoted id
  | number e => e.message
  | records e => e.message
  | suggestionLimit => "slice indices must be integers or None or have an __index__ method"

namespace Workspace

/-- The workspace after an operation, and what the operation answers. -/
abbrev Outcome (α : Type) := Workspace × Except WorkspaceError α

/-- The workspace without nodes. -/
def empty : Workspace :=
  {}

/-- Changes the sheet. -/
def onSheet (w : Workspace) (f : Sheet → Sheet) : Workspace :=
  { w with sheet := f w.sheet }

/-! ### Looking -/

/-- The ids of the nodes in order of creation. -/
def ids (w : Workspace) : List NodeId :=
  w.sheet.calculators.keys

/-- The headers of the nodes in order of registration. -/
def headers (w : Workspace) : List (Option String) :=
  w.sheet.graph.nodes.values.map (·.header)

/-- The header of a node, if it has one. -/
def headerOf (w : Workspace) (id : NodeId) : Option String :=
  (w.sheet.graph.node? id).bind (·.header)

/-- The calculator of a node. -/
def calculatorOf (w : Workspace) (id : NodeId) : Except WorkspaceError Calculator :=
  match w.sheet.calculator? id with
  | some c => .ok c
  | none => .error (.unknownNode id)

/-- The first node with a header. -/
def find? (w : Workspace) (header : Option String) : Option NodeId :=
  (w.sheet.graph.findByHeader header).map (·.1)

/-- The equation of a node and its result. -/
def latexOf (setup : Setup) (w : Workspace) (id : NodeId) : Except WorkspaceError String :=
  match w.calculatorOf id with
  | .error e => .error e
  | .ok c =>
    (Latex.equation setup.registry setup.renderers setup.limits c.expression
      c.result.toValue).mapError .number

/-- The suggestions for what was typed. -/
def suggestions (setup : Setup) (w : Workspace) (typed : String) :
    Except WorkspaceError (List Suggestion) :=
  match Completion.suggestions? setup.registry w.headers setup.suggestionLimit typed with
  | some found => .ok found
  | none => .error .suggestionLimit

/-- The records of the nodes in order of creation. -/
def toRecords (w : Workspace) : List Record :=
  w.sheet.calculators.entries.map fun (id, c) => ⟨w.headerOf id, c.expression⟩

/-! ### Recalculating -/

/-- Brings a node up to date. -/
def recalculate (setup : Setup) (w : Workspace) (id : NodeId) : Outcome Result :=
  let (sheet, outcome) := w.sheet.recalculate setup.environment id
  ({ w with sheet }, outcome.mapError .number)

/-- Brings those of some nodes up to date that are there, until one fails. -/
def recalculateAll (setup : Setup) (w : Workspace) : List NodeId → Outcome Unit
  | [] => (w, .ok ())
  | id :: rest =>
    if (w.sheet.calculator? id).isNone then recalculateAll setup w rest
    else
      match w.recalculate setup id with
      | (w, .ok _) => recalculateAll setup w rest
      | (w, .error e) => (w, .error e)

/-- The nodes, without one, whose expressions mention one of the names. -/
def mentioning (setup : Setup) (w : Workspace) (names : List String) (skip : Option NodeId) :
    List NodeId :=
  (w.sheet.calculators.entries.filter fun (id, c) =>
    some id ≠ skip ∧ (setup.environment.references c.expression).any (· ∈ names)).map (·.1)

/-- Brings some nodes up to date, and then all others that mention one of the headers. -/
def reresolve (setup : Setup) (w : Workspace) (headers : List (Option String))
    (skip : Option NodeId) (first : List NodeId) : Outcome Unit :=
  let names := headers.filterMap fun header => header.filter (!·.isEmpty)
  let others := (w.mentioning setup names skip).filter (· ∉ first)
  w.recalculateAll setup (first ++ others)

/-! ### Nodes -/

/-- The first of the generated headers from a number on that is not taken, after so many tries. -/
def freshHeader (taken : List (Option String)) : (tries : Nat) → (n : Nat) → String
  | 0, n => "Node" ++ toString n
  | tries + 1, n =>
    if some ("Node" ++ toString n) ∈ taken then freshHeader taken tries (n + 1)
    else "Node" ++ toString n

/-- A header that no node has. -/
def nextHeader (w : Workspace) : String :=
  freshHeader w.headers w.headers.length (w.sheet.calculators.size + 1)

/-- The id of the node that is created next. -/
def nextId (w : Workspace) : NodeId :=
  "node-" ++ toString (w.created + 1)

/-- Creates a node without computing it. -/
def create (setup : Setup) (w : Workspace) (record : Record) : Workspace × NodeId :=
  let id := w.nextId
  let header := record.header.getD w.nextHeader
  let sheet :=
    (w.sheet.addCalculator id record.expression setup.delay).register id (some header) true
  (⟨sheet, w.created + 1⟩, id)

/-- Creates a node, computes it, and brings the nodes up to date that mention its header. -/
def add (setup : Setup) (w : Workspace) (record : Record) : Outcome NodeId :=
  let (w, id) := w.create setup record
  match w.recalculate setup id with
  | (w, .error e) => (w, .error e)
  | (w, .ok _) =>
    let (w, outcome) := w.reresolve setup [w.headerOf id] (some id) []
    (w, outcome.map fun _ => id)

/-- Replaces the expression of a node and computes it, instead of a pending edit. -/
def setExpression (setup : Setup) (w : Workspace) (id : NodeId) (expression : String) :
    Outcome Result :=
  match w.calculatorOf id with
  | .error e => (w, .error e)
  | .ok _ =>
    let w := w.onSheet fun s => { s with agenda := s.agenda.cancel id }
    (w.onSheet (·.setExpression id expression)).recalculate setup id

/-- Replaces the expression of a node, which is computed once no further edit has come for a
while. -/
def edit (w : Workspace) (id : NodeId) (expression : String) : Outcome Unit :=
  match w.calculatorOf id with
  | .error e => (w, .error e)
  | .ok _ => (w.onSheet fun s => (s.setExpression id expression).debounce id, .ok ())

/-- Gives a node another header, and brings the nodes up to date that mention the old or the new
one. -/
def rename (setup : Setup) (w : Workspace) (id : NodeId) (header : Option String) :
    Outcome Unit :=
  match w.calculatorOf id with
  | .error e => (w, .error e)
  | .ok _ =>
    let before := w.headerOf id
    let w := w.onSheet fun s => { s with graph := s.graph.update id [.header header] }
    w.reresolve setup [before, header] none []

/-- Removes a node, and brings the nodes up to date that depended on it or mention its header. -/
def remove (setup : Setup) (w : Workspace) (id : NodeId) : Outcome Unit :=
  match w.calculatorOf id with
  | .error e => (w, .error e)
  | .ok _ =>
    let header := w.headerOf id
    let dependents := w.sheet.graph.dependentsOf id
    let w := w.onSheet fun s =>
      { s with
        agenda := s.agenda.cancel id
        graph := s.graph.unregister id
        calculators := s.calculators.erase id }
    w.reresolve setup [header] none dependents

/-- Removes every node. -/
def clear (w : Workspace) : Workspace :=
  w.onSheet fun s =>
    { s with
      agenda := s.agenda.cancelAll
      graph := s.calculators.keys.foldl (·.unregister ·) s.graph
      calculators := .empty }

/-! ### Stored nodes -/

/-- Creates nodes without computing them. -/
def createAll (setup : Setup) (w : Workspace) : List Record → Workspace × List NodeId
  | [] => (w, [])
  | record :: rest =>
    let (w, id) := w.create setup record
    let (w, ids) := createAll setup w rest
    (w, id :: ids)

/-- Creates the nodes that a value stores, after those that are there or in their place, and then
computes them in order. -/
def load (setup : Setup) (w : Workspace) (stored : Value) (replaces : Bool) :
    Outcome (List NodeId) :=
  match Record.ofStored stored with
  | .error e => (w, .error (.records e))
  | .ok records =>
    let (w, ids) := (if replaces then w.clear else w).createAll setup records
    let (w, outcome) := w.recalculateAll setup ids
    (w, outcome.map fun _ => ids)

/-! ### Time -/

/-- Works until nothing is left to do, in at most so many steps. -/
def settle (setup : Setup) (steps : Nat) (w : Workspace) : Workspace :=
  w.onSheet ((Sheet.worker setup.environment).settle steps)

/-- Works while a span of time passes, in at most so many steps. -/
def wait (setup : Setup) (steps : Nat) (span : Int) (w : Workspace) : Workspace :=
  w.onSheet ((Sheet.worker setup.environment).wait steps span)

end Workspace

end LiveSheet
