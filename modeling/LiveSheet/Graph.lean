import LiveSheet.Graph.Search
import LiveSheet.Result

/-!
# The graph of nodes and their dependencies

A graph holds a record for each registered node, in order of registration, and two tables of edges
that hold the same edges from both ends: what depends on a node, and what a node depends on. Both
hold ascending lists of ids. Edges may join nodes that are not registered, and registering a node
again keeps its edges and its place.
-/

namespace LiveSheet

/-- The name by which a node is known for good. -/
abbrev NodeId := String

namespace NodeId

/-- Puts an id that a list does not hold before the first id that is not smaller. -/
def insert (x : NodeId) (ids : List NodeId) : List NodeId :=
  if x ∈ ids then ids else ids.takeWhile (· < x) ++ x :: ids.dropWhile (· < x)

/-- Takes an id out of a list. -/
def erase (x : NodeId) (ids : List NodeId) : List NodeId :=
  ids.filter (· ≠ x)

/-- The ids of a list in ascending order, each once. -/
def ascending (ids : List NodeId) : List NodeId :=
  ids.foldr insert []

/-- What is in a list after an insertion is the new node or was there before. -/
theorem mem_insert {x y : NodeId} {ids : List NodeId} :
    y ∈ insert x ids ↔ y = x ∨ y ∈ ids := by
  unfold insert
  split
  · next h => exact ⟨.inr, fun hy => hy.elim (· ▸ h) id⟩
  · have hsplit : y ∈ ids ↔ y ∈ ids.takeWhile (· < x) ∨ y ∈ ids.dropWhile (· < x) := by
      rw [← List.mem_append, List.takeWhile_append_dropWhile]
    rw [List.mem_append, List.mem_cons, hsplit]
    exact or_left_comm

/-- No id comes to stand twice. -/
theorem nodup_insert {x : NodeId} {ids : List NodeId} (h : ids.Nodup) : (insert x ids).Nodup := by
  unfold insert
  split
  · exact h
  · next hx =>
    rw [List.perm_middle.nodup_iff, List.takeWhile_append_dropWhile]
    exact List.nodup_cons.2 ⟨hx, h⟩

/-- What is left after a removal was there before and is another node. -/
theorem mem_erase {x y : NodeId} {ids : List NodeId} : y ∈ erase x ids ↔ y ∈ ids ∧ y ≠ x := by
  simp [erase]

/-- Sorting changes no membership. -/
theorem mem_ascending {y : NodeId} {ids : List NodeId} : y ∈ ascending ids ↔ y ∈ ids := by
  induction ids with
  | nil => simp [ascending]
  | cons x xs ih =>
    have : ascending (x :: xs) = insert x (ascending xs) := rfl
    rw [this, mem_insert, ih, List.mem_cons]

end NodeId

/-- What is kept about a node: the header that others refer to it by, its result, what is called
when something it depends on has changed, and notes. -/
structure NodeRecord (γ : Type) where
  header : Option String := some ""
  result : Value := .float 0
  callback : Option γ := none
  notes : Table String Value := .empty

/-- A change of one part of a record. -/
inductive Change (γ : Type) where
  | header (h : Option String)
  | result (v : Value)
  | callback (c : Option γ)
  | note (key : String) (v : Value)
  | notes (entries : List (String × Value))

namespace NodeRecord

variable {γ : Type}

/-- Whether the record holds an error kind. -/
def isFailed (record : NodeRecord γ) : Bool :=
  (ErrorKind.ofValue? record.result).isSome

/-- The record after a change. -/
def apply (record : NodeRecord γ) : Change γ → NodeRecord γ
  | .header h => { record with header := h }
  | .result v => { record with result := v }
  | .callback c => { record with callback := c }
  | .note key v => { record with notes := record.notes.insert key v }
  | .notes entries =>
    { record with notes := entries.foldl (fun t (key, v) => t.insert key v) record.notes }

/-- The record after some changes. -/
def applyAll (record : NodeRecord γ) (changes : List (Change γ)) : NodeRecord γ :=
  changes.foldl apply record

end NodeRecord

/-- The records of nodes and the edges between them. -/
structure Graph (γ : Type) where
  nodes : Table NodeId (NodeRecord γ) := .empty
  dependents : Table NodeId (List NodeId) := .empty
  dependencies : Table NodeId (List NodeId) := .empty

/-- Why an edge is refused. -/
inductive EdgeError where
  | selfDependency (id : NodeId)
deriving Repr, DecidableEq

/-- The message of an error. -/
def EdgeError.message : EdgeError → String
  | selfDependency id => "Node " ++ Text.quoted id ++ " cannot depend on itself"

namespace Graph

variable {γ : Type}

/-- The graph without nodes. -/
def empty : Graph γ :=
  {}

/-! ### Nodes -/

/-- The record of a node. -/
def node? (g : Graph γ) (id : NodeId) : Option (NodeRecord γ) :=
  g.nodes.get? id

/-- Registers a node with a new record. Its edges stay. -/
def register (g : Graph γ) (id : NodeId) (changes : List (Change γ)) : Graph γ :=
  ⟨g.nodes.insert id (NodeRecord.applyAll {} changes), g.dependents.insertIfNew id [],
    g.dependencies.insertIfNew id []⟩

/-- Changes the record of a node that is registered. -/
def update (g : Graph γ) (id : NodeId) (changes : List (Change γ)) : Graph γ :=
  { g with nodes := g.nodes.modify id (·.applyAll changes) }

/-- Takes an id out of the lists of some nodes. -/
def eraseFrom (edges : Table NodeId (List NodeId)) (id : NodeId) (keys : List NodeId) :
    Table NodeId (List NodeId) :=
  keys.foldl (fun edges key => edges.modify key (NodeId.erase id)) edges

/-- Removes a node and every edge that touches it. -/
def unregister (g : Graph γ) (id : NodeId) : Graph γ :=
  ⟨g.nodes.erase id,
    (eraseFrom g.dependents id (Search.successors g.dependencies id)).erase id,
    (eraseFrom g.dependencies id (Search.successors g.dependents id)).erase id⟩

/-- The first registered node with a header. -/
def findByHeader (g : Graph γ) (header : Option String) : Option (NodeId × NodeRecord γ) :=
  g.nodes.entries.find? fun (_, record) => record.header = header

/-! ### Edges -/

/-- What depends on a node. -/
def dependentsOf (g : Graph γ) (id : NodeId) : List NodeId :=
  Search.successors g.dependents id

/-- What a node depends on. -/
def dependenciesOf (g : Graph γ) (id : NodeId) : List NodeId :=
  Search.successors g.dependencies id

/-- Adds an id to the list of a node. -/
def insertAt (edges : Table NodeId (List NodeId)) (key id : NodeId) : Table NodeId (List NodeId) :=
  edges.insert key (NodeId.insert id (Search.successors edges key))

/-- The edge from a node to a different one that it depends on. -/
def link (g : Graph γ) (dependent dependency : NodeId) : Graph γ :=
  { g with
    dependents := insertAt g.dependents dependency dependent
    dependencies := insertAt g.dependencies dependent dependency }

/-- Records that a node depends on another one. -/
def addDependency (g : Graph γ) (dependent dependency : NodeId) : Except EdgeError (Graph γ) :=
  if dependent = dependency then .error (.selfDependency dependent)
  else .ok (g.link dependent dependency)

/-- Removes the edge between two nodes. -/
def removeDependency (g : Graph γ) (dependent dependency : NodeId) : Graph γ :=
  { g with
    dependents := g.dependents.modify dependency (NodeId.erase dependent)
    dependencies := g.dependencies.modify dependent (NodeId.erase dependency) }

end Graph

end LiveSheet
