import LiveSheet.Agenda
import LiveSheet.Graph

/-!
# How changes spread

A change of a node reaches everything that depends on it, directly or through others, and each of
these nodes once. They follow in topological order, so that a node on no cycle comes after all that
it depends on; what the order does not name comes last, by id.
-/

namespace LiveSheet

/-- What a change sets off: the nodes that follow, and what is called for them, both in order. -/
structure Wave (γ : Type) where
  order : List NodeId
  callbacks : List γ

/-- Puts the calls of a wave on an agenda as one task, if there are any. -/
def Wave.enqueue {γ κ τ : Type} (w : Wave γ) (task : List γ → τ) (a : Agenda κ τ) : Agenda κ τ :=
  if w.callbacks.isEmpty then a else a.schedule (task w.callbacks)

/-- Calls callbacks one after the other, each on the state that the calls before it have left. What
one of them raises is lost with it, and the others are called all the same. -/
def callEach {γ σ ρ : Type} (call : γ → σ → σ × ρ) (callbacks : List γ) (s : σ) : σ :=
  callbacks.foldl (fun s callback => (call callback s).1) s

namespace Graph

variable {γ : Type}

/-- Whether a cycle can be reached from a node along its dependencies. -/
def reachesCycle (g : Graph γ) (id : NodeId) : Bool :=
  Search.reachesCycle g.dependencies id

/-- The registered nodes and all that they depend on, each after its dependencies where no cycle
prevents it. -/
def topologicalOrder (g : Graph γ) : List NodeId :=
  Search.finishOrder g.dependencies g.nodes.keys

/-- What depends on a node, directly or through others, without the node itself. -/
def closure (g : Graph γ) (id : NodeId) : List NodeId :=
  NodeId.ascending ((Search.finishOrder g.dependents [id]).filter (· ≠ id))

/-- What depends on a node, in the order in which it follows a change. -/
def propagationOrder (g : Graph γ) (id : NodeId) : List NodeId :=
  let closure := g.closure id
  let order := g.topologicalOrder
  order.filter (· ∈ closure) ++ closure.filter (· ∉ order)

/-- What a change of a node sets off, with the callbacks that the nodes have now. -/
def wave (g : Graph γ) (id : NodeId) : Wave γ :=
  let order := g.propagationOrder id
  ⟨order, order.filterMap fun follower => (g.node? follower).bind (·.callback)⟩

end Graph

end LiveSheet
